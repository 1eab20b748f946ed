import Mathlib.Data.List.Infix
import Concord.Proofs.Measure.Printed

/-! The notations of a product. Blanks, points and stars stand between its factors, an exponent stands directly behind
    its symbol or behind a caret or two stars, and factors with the exponents turned round stand behind a slash. All of
    them are read as the same unit, as long as the exponents that are written have 32 bits. -/

namespace Concord

namespace Measure

variable {symbol : String} {e sign : Int} {es t gap cs rest : List Char} {fs num den : List (String × Int)}
  {u : Measure Double}

/-! ### Texts -/

/-- Without digits and signs, and without what stands between factors or in front of an exponent. -/
structure IsSymbol (cs : List Char) : Prop where
  nonempty : cs ≠ []
  chars : ∀ c ∈ cs, Text.isBlank c = false ∧ startsExponent c = false ∧ c ≠ '^' ∧ c ≠ '*' ∧ c ≠ '.' ∧ c ≠ '/'

-- The characters of the text are tried, not all characters there are.
instance (cs : List Char) : Decidable (IsSymbol cs) :=
  @decidable_of_iff _ _ ⟨fun h => ⟨h.1, h.2⟩, fun h => ⟨h.nonempty, h.chars⟩⟩
    (@instDecidableAnd (cs ≠ []) _ _ (List.decidableBAll _ cs))

/-- What stands in front of an exponent. -/
inductive Mark where
  | none
  | caret
  | stars

def Mark.text : Mark → List Char
  | none => []
  | caret => ['^']
  | stars => ['*', '*']

/-- The text is a whole number, which may have a plus sign if it is not negative. -/
inductive SpellsNumber : Int → List Char → Prop
  | plain (e : Int) : SpellsNumber e (toString e).toList
  | plus (n : Nat) : SpellsNumber n ('+' :: (toString (n : Int)).toList)

/-- The text is an exponent. One may be left out. -/
inductive SpellsExponent : Int → List Char → Prop
  | omitted : SpellsExponent 1 []
  | marked (mark : Mark) {e : Int} {t : List Char} : SpellsNumber e t → SpellsExponent e (mark.text ++ t)

/-- Blanks, points and stars, but no two stars in a row. -/
structure IsGap (gap : List Char) : Prop where
  chars : ∀ c ∈ gap, Text.isBlank c = true ∨ c = '.' ∨ c = '*'
  single : ¬['*', '*'] <:+: gap

instance (gap : List Char) : Decidable (IsGap gap) :=
  @decidable_of_iff _ _ ⟨fun h => ⟨h.1, h.2⟩, fun h => ⟨h.chars, h.single⟩⟩
    (@instDecidableAnd _ _ (List.decidableBAll _ gap) _)

/-- The text is that of some factors, with gaps between them and perhaps behind them. -/
inductive SpellsFactors : List (String × Int) → List Char → Prop
  | nil : SpellsFactors [] []
  | cons {symbol : String} {e : Int} {es : List Char} (gap : List Char) {cs : List Char} {fs : List (String × Int)} :
      IsSymbol symbol.toList → SpellsExponent e es → IsGap gap → (fs ≠ [] → gap ≠ []) → SpellsFactors fs cs →
      SpellsFactors ((symbol, e) :: fs) (symbol.toList ++ (es ++ (gap ++ cs)))

/-- The text is a product, perhaps with a gap in front. -/
def SpellsProduct (fs : List (String × Int)) (cs : List Char) : Prop :=
  ∃ gap rest, IsGap gap ∧ SpellsFactors fs rest ∧ cs = gap ++ rest

/-- The text is the product of `num` and `den`, those of `den` behind a slash. -/
inductive Spells : List (String × Int) → List (String × Int) → String → Prop
  | product {num : List (String × Int)} {cs : List Char} : num ≠ [] → SpellsProduct num cs →
      Spells num [] (String.ofList cs)
  | quotient {num den : List (String × Int)} {cs ds : List Char} : SpellsProduct num cs →
      SpellsProduct (den.map fun p => (p.1, -p.2)) ds → Spells num den (String.ofList (cs ++ '/' :: ds))

/-- The sum of the exponents of a symbol. -/
def total (fs : List (String × Int)) (symbol : String) : Int := ((fs.filter fun p => p.1 = symbol).map (·.2)).sum

/-! ### Symbols -/

section
variable (h : IsSymbol symbol.toList)
include h

theorem IsSymbol.isDigit {c : Char} (hc : c ∈ symbol.toList) : c.isDigit = false := by
  have hstart := (h.chars c hc).2.1
  rw [startsExponent, Bool.or_eq_false_iff, Bool.or_eq_false_iff] at hstart
  exact hstart.1.1

theorem IsSymbol.not_mem : '^' ∉ symbol.toList ∧ '*' ∉ symbol.toList ∧ '/' ∉ symbol.toList :=
  ⟨fun hc => (h.chars _ hc).2.2.1 rfl, fun hc => (h.chars _ hc).2.2.2.1 rfl, fun hc => (h.chars _ hc).2.2.2.2.2 rfl⟩

theorem IsSymbol.unbroken {c : Char} (hc : c ∈ symbol.toList) : Text.isBlank c = false ∧ c ≠ '*' ∧ c ≠ '.' :=
  let ⟨hblank, _, _, hstar, hpoint, _⟩ := h.chars c hc
  ⟨hblank, hstar, hpoint⟩

theorem IsSymbol.readSymbol_eq {factor : List Char} (hsplit : splitSymbol factor = (symbol.toList, t))
    (ht : readExponent t = some e) : readSymbol factor = .ok (symbol, e) := by
  obtain ⟨c, cs, hcs⟩ := List.exists_cons_of_ne_nil h.nonempty
  have hfirst : (symbol.toList.head?.any Char.isDigit) = false := by
    rw [hcs]
    exact h.isDigit (hcs ▸ List.mem_cons_self)
  have hempty : symbol.toList.isEmpty = false := by simpa using h.nonempty
  rw [readSymbol, hsplit]
  simp [hempty, hfirst, ht]

theorem IsSymbol.applyFactor_eq (sign : Int) (u : Measure Double) 
    (hread : readSymbol (symbol.toList ++ es) = .ok (symbol, e)) :
    applyFactor sign u (symbol.toList ++ es) = .ok ⟨raise u.terms symbol (e * sign), u.scale⟩ := by
  obtain ⟨c, cs, hcs⟩ := List.exists_cons_of_ne_nil h.nonempty
  have hmem : c ∈ symbol.toList := hcs ▸ List.mem_cons_self
  have hdigit := h.isDigit hmem
  obtain ⟨-, -, hpoint⟩ := h.unbroken hmem
  have hskip : ¬(symbol.toList ++ es = [] ∨ symbol.toList ++ es = ['1']) := by
    rw [hcs]
    rintro (h | h)
    · cases h
    · obtain ⟨rfl, -⟩ := List.cons.inj h
      cases hdigit
  have hnumeric : isNumeric (symbol.toList ++ es) = false := by
    rw [hcs]
    simp [isNumeric, hdigit, hpoint]
  rw [applyFactor, if_neg hskip, hnumeric, if_neg Bool.false_ne_true, hread]
  rfl

end

/-! ### Exponents -/

theorem SpellsNumber.chars (h : SpellsNumber e t) : t ≠ [] ∧ ∀ c ∈ t, startsExponent c = true := by
  have hplain : ∀ n : Int, ∀ c ∈ (toString n).toList, startsExponent c = true := by
    intro n c hc
    rcases Decimal.chars_toString hc with hdigit | rfl
    · simp [startsExponent, hdigit]
    · rfl
  cases h with
  | plain => exact ⟨Decimal.toString_ne_nil e, hplain e⟩
  | plus n => exact ⟨List.cons_ne_nil _ _, List.forall_mem_cons.mpr ⟨rfl, hplain n⟩⟩

/-- Nothing in a number stands between factors or in front of an exponent. -/
theorem startsExponent_ne {c : Char} (h : startsExponent c = true) :
    Text.isBlank c = false ∧ c ≠ '^' ∧ c ≠ '*' ∧ c ≠ '.' ∧ c ≠ '/' := by
  rw [startsExponent, Bool.or_eq_true, Bool.or_eq_true, beq_iff_eq, beq_iff_eq] at h
  rcases h with (hdigit | rfl) | rfl
  · refine ⟨isBlank_of_isDigit hdigit, ?_, ?_, ?_, ?_⟩ <;> rintro rfl <;> cases hdigit
  · decide
  · decide

theorem readExponent_number (h : SpellsNumber e t) (he : Fits e) : readExponent t = some e := by
  cases h with
  | plain => rw [readExponent_toString, if_pos he]
  | plus n =>
    have hdigits : (Decimal.digits n).all Char.isDigit = true := List.all_eq_true.mpr fun _ => Decimal.isDigit_digits
    have hread : Decimal.readInt ('+' :: Decimal.digits n) = some (n : Int) := by
      simp [Decimal.readInt, Decimal.readSign, hdigits, Decimal.digits_ne_nil, Decimal.ofDigits_digits]
    rw [Decimal.toList_toString, if_neg (by omega), Int.natAbs_natCast, readExponent_of_readInt hread, if_pos he]

/-! ### Stars -/

theorem caretForStars_append_of_not_mem (h : '*' ∉ cs) : caretForStars (cs ++ rest) = cs ++ caretForStars rest := by
  induction cs with
  | nil => rfl
  | cons c cs ih =>
    rw [List.mem_cons, not_or] at h
    rw [List.cons_append, caretForStars.eq_2 _ _ fun _ hc => absurd hc.symm h.1, ih h.2, List.cons_append]

/-- Single stars stay. -/
theorem IsGap.caretForStars_append (h : IsGap gap) (hrest : ∀ c ∈ rest.head?, c ≠ '*') :
    caretForStars (gap ++ rest) = gap ++ caretForStars rest := by
  obtain ⟨-, hsingle⟩ := h
  induction gap with
  | nil => rfl
  | cons c gap ih =>
    have hnext : ∀ cs, c = '*' → gap ++ rest = '*' :: cs → False := by
      rintro cs rfl heq
      cases gap with
      | nil => exact hrest '*' (by rw [← List.nil_append rest, heq]; rfl) rfl
      | cons d gap =>
        obtain ⟨rfl, -⟩ := List.cons.inj heq
        exact hsingle (List.prefix_append ['*', '*'] gap).isInfix
    rw [List.cons_append, caretForStars.eq_2 _ _ hnext, List.cons_append,
      ih fun hstars => hsingle (hstars.trans (List.infix_cons List.infix_rfl))]

/-- Once carets stand for stars, a symbol and its exponent are a factor. -/
theorem SpellsExponent.factor (h : SpellsExponent e es) (hsymbol : IsSymbol symbol.toList) (he : Fits e) : ∃ es',
    (∀ rest, caretForStars (es ++ rest) = es' ++ caretForStars rest) ∧
      (∀ c ∈ es', Text.isBlank c = false ∧ c ≠ '*' ∧ c ≠ '.') ∧
        readSymbol (symbol.toList ++ es') = .ok (symbol, e) := by
  have hcaret := hsymbol.not_mem.1
  have hplain : Plain symbol.toList := fun c hc => (hsymbol.chars c (List.mem_of_mem_tail hc)).2.1
  cases h with
  | omitted =>
    have hsplit := splitSymbol_plain (e := []) hsymbol.nonempty hplain hcaret List.not_mem_nil (fun _ hc => by cases hc)
    exact ⟨[], fun _ => rfl, fun _ hc => absurd hc List.not_mem_nil, hsymbol.readSymbol_eq hsplit (by decide +kernel)⟩
  | marked mark hnumber =>
    rename_i t
    obtain ⟨hne, hchars⟩ := hnumber.chars
    have hstars : '*' ∉ t := fun hc => (startsExponent_ne (hchars _ hc)).2.2.1 rfl
    have ht := readExponent_number hnumber he
    have hnumeral : ∀ c ∈ t, Text.isBlank c = false ∧ c ≠ '*' ∧ c ≠ '.' := fun c hc =>
      let ⟨hblank, _, hstar, hpoint, _⟩ := startsExponent_ne (hchars c hc)
      ⟨hblank, hstar, hpoint⟩
    have hcarets : readSymbol (symbol.toList ++ '^' :: t) = .ok (symbol, e) :=
      hsymbol.readSymbol_eq (by rw [splitSymbol.eq_def, Text.splitFirst_append hcaret]) ht
    cases mark with
    | none =>
      have hnone : '^' ∉ t := fun hc => (startsExponent_ne (hchars _ hc)).2.1 rfl
      have hsplit := splitSymbol_plain hsymbol.nonempty hplain hcaret hnone
        fun c hc => hchars c (List.mem_of_mem_head? hc)
      rw [if_neg (by simpa using hne)] at hsplit
      exact ⟨t, fun _ => caretForStars_append_of_not_mem hstars, hnumeral, hsymbol.readSymbol_eq hsplit ht⟩
    | caret =>
      refine ⟨'^' :: t, fun rest => ?_, List.forall_mem_cons.mpr ⟨by decide, hnumeral⟩, hcarets⟩
      exact caretForStars_append_of_not_mem (List.not_mem_cons_of_ne_of_not_mem (by decide) hstars)
    | stars =>
      refine ⟨'^' :: t, fun rest => ?_, List.forall_mem_cons.mpr ⟨by decide, hnumeral⟩, hcarets⟩
      exact congrArg ('^' :: ·) (caretForStars_append_of_not_mem hstars)

/-! ### Gaps -/

/-- Points in front of anything but a digit separate. -/
theorem separates_gap {previous c : Char} (h : Text.isBlank c = true ∨ c = '.' ∨ c = '*')
    (hrest : ∀ d ∈ rest.head?, d.isDigit = false) : separates previous c rest = true := by
  rcases h with h | rfl | rfl
  · rw [separates, h]; rfl
  · have hpoint : isDecimalPoint previous '.' rest = false := by
      cases rest with
      | nil => simp [isDecimalPoint]
      | cons d rest => simp [isDecimalPoint, hrest d rfl]
    rw [separates, hpoint]; rfl
  · rw [separates]; simp

theorem factors_append {c : Char} (h : ∀ d ∈ cs, Text.isBlank d = false ∧ d ≠ '*' ∧ d ≠ '.')
    (hc : ∀ previous, separates previous c rest = true) :
    ∀ previous, factors previous (cs ++ c :: rest) = cs :: factors c rest := by
  induction cs with
  | nil => intro previous; rw [List.nil_append, factors, if_pos (hc previous)]
  | cons d cs ih =>
    intro previous
    obtain ⟨⟨hblank, hstar, hpoint⟩, hcs⟩ := List.forall_mem_cons.mp h
    have hd : separates previous d (cs ++ c :: rest) = false := by simp [separates, hblank, hstar, hpoint]
    rw [List.cons_append, factors, hd, if_neg Bool.false_ne_true, ih hcs]
    rfl

theorem head_gap (hgap : ∀ c ∈ gap, Text.isBlank c = true ∨ c = '.' ∨ c = '*')
    (hrest : ∀ d ∈ rest.head?, d.isDigit = false) : ∀ d ∈ (gap ++ rest).head?, d.isDigit = false := by
  cases gap with
  | nil => exact hrest
  | cons c gap =>
    rintro d ⟨⟩
    rcases hgap c List.mem_cons_self with hblank | rfl | rfl
    · by_contra hdigit
      rw [isBlank_of_isDigit (by simpa using hdigit)] at hblank
      cases hblank
    · rfl
    · rfl

/-- A gap changes nothing, as nothing but empty factors stands in it. -/
theorem foldlM_gap (sign : Int) (u : Measure Double) (hrest : ∀ d ∈ rest.head?, d.isDigit = false) :
    ∀ {gap : List Char}, (∀ c ∈ gap, Text.isBlank c = true ∨ c = '.' ∨ c = '*') → ∀ previous, ∃ last,
      (factors previous (gap ++ rest)).foldlM (applyFactor sign) u = (factors last rest).foldlM (applyFactor sign) u
  | [], _, previous => ⟨previous, rfl⟩
  | c :: gap, h, previous => by
    obtain ⟨hc, hgap⟩ := List.forall_mem_cons.mp h
    obtain ⟨last, hlast⟩ := foldlM_gap sign u hrest hgap c
    refine ⟨last, ?_⟩
    rw [List.cons_append, factors, if_pos (separates_gap hc (head_gap hgap hrest)), List.foldlM_cons]
    exact hlast

/-! ### Products -/

/-- The terms with those of a product to the power `sign`. -/
def raiseAll (sign : Int) (t : NameMap Int) (fs : List (String × Int)) : NameMap Int :=
  fs.foldl (fun t p => raise t p.1 (p.2 * sign)) t

theorem total_cons (p : String × Int) (fs : List (String × Int)) (symbol : String) :
    total (p :: fs) symbol = (if symbol = p.1 then p.2 else 0) + total fs symbol := by
  by_cases heq : p.1 = symbol
  · simp [total, heq]
  · simp [total, heq, Ne.symm heq]

theorem exponentOf_raiseAll {t : NameMap Int} :
    exponentOf (raiseAll sign t fs) symbol = exponentOf t symbol + total fs symbol * sign := by
  induction fs generalizing t with
  | nil => simp [raiseAll, total]
  | cons p fs ih =>
    rw [raiseAll, List.foldl_cons, ← raiseAll, ih, exponentOf_raise, total_cons, Int.add_mul, Int.add_assoc]
    split
    · rfl
    · rw [Int.zero_mul]

/-- A product starts with a symbol. -/
theorem SpellsFactors.head (h : SpellsFactors fs cs) : ∀ c ∈ cs.head?, c ≠ '*' ∧ c.isDigit = false := by
  cases h with
  | nil => exact fun _ hc => by cases hc
  | cons _ hsymbol =>
    obtain ⟨d, ds, hd⟩ := List.exists_cons_of_ne_nil hsymbol.nonempty
    have hmem := hd ▸ List.mem_cons_self
    rw [hd]
    rintro c ⟨⟩
    exact ⟨(hsymbol.unbroken hmem).2.1, hsymbol.isDigit hmem⟩

theorem SpellsFactors.head_caretForStars (h : SpellsFactors fs cs) :
    ∀ c ∈ (caretForStars cs).head?, c.isDigit = false := by
  have hhead := h.head
  cases cs with
  | nil => exact fun _ hc => by cases hc
  | cons c cs =>
    obtain ⟨hstar, hdigit⟩ := hhead c rfl
    rw [caretForStars.eq_2 _ _ fun _ hc => absurd hc hstar]
    rintro d ⟨⟩
    exact hdigit

/-- Each factor raises its symbol. -/
theorem SpellsFactors.foldlM (h : SpellsFactors fs cs) : (∀ p ∈ fs, Fits p.2) → ∀ (previous : Char) (u : Measure Double),
    (factors previous (caretForStars cs)).foldlM (applyFactor sign) u = .ok ⟨raiseAll sign u.terms fs, u.scale⟩ := by
  induction h with
  | nil => exact fun _ _ _ => rfl
  | @cons symbol e es gap cs fs hsymbol hexponent hgap hsome hfs ih =>
    intro hfits previous u
    obtain ⟨he, hfits⟩ := List.forall_mem_cons.mp hfits
    obtain ⟨es', hcaret, hchars, hread⟩ := hexponent.factor hsymbol he
    have hstars := hsymbol.not_mem.2.1
    have hunbroken : ∀ c ∈ symbol.toList ++ es', Text.isBlank c = false ∧ c ≠ '*' ∧ c ≠ '.' := fun c hc =>
      (List.mem_append.mp hc).elim hsymbol.unbroken (hchars c)
    have happly := hsymbol.applyFactor_eq sign u hread
    rw [caretForStars_append_of_not_mem hstars, hcaret, hgap.caretForStars_append fun c hc => (hfs.head c hc).1,
      ← List.append_assoc]
    cases gap with
    | nil =>
      -- Only the last factor has no gap behind it.
      obtain rfl : fs = [] := by_contra fun hne => hsome hne rfl
      cases hfs
      rw [caretForStars, List.append_nil, List.append_nil, factors_unbroken (unbroken_of_not_point hunbroken previous),
        List.foldlM_cons, happly]
      rfl
    | cons c gap =>
      obtain ⟨hc, hgap⟩ := List.forall_mem_cons.mp hgap.chars
      obtain ⟨last, hlast⟩ := foldlM_gap sign ⟨raise u.terms symbol (e * sign), u.scale⟩
        hfs.head_caretForStars hgap c
      have hseparates : ∀ previous, separates previous c (gap ++ caretForStars cs) = true := fun previous =>
        separates_gap hc (head_gap hgap hfs.head_caretForStars)
      rw [List.cons_append, factors_append hunbroken hseparates, List.foldlM_cons, happly]
      exact hlast.trans (ih hfits last _)

/-- A gap in front changes nothing. -/
theorem applyProduct_spelled {u : Measure Double} (h : SpellsProduct fs cs) (hfits : ∀ p ∈ fs, Fits p.2) :
    applyProduct sign u cs = .ok ⟨raiseAll sign u.terms fs, u.scale⟩ := by
  obtain ⟨gap, rest, hgap, hfs, rfl⟩ := h
  obtain ⟨last, hlast⟩ := foldlM_gap sign u hfs.head_caretForStars hgap.chars ' '
  rw [applyProduct, hgap.caretForStars_append fun c hc => (hfs.head c hc).1, hlast]
  exact hfs.foldlM hfits last u

theorem SpellsExponent.not_mem_slash (h : SpellsExponent e es) : '/' ∉ es := by
  cases h with
  | omitted => exact List.not_mem_nil
  | marked mark hnumber =>
    refine List.not_mem_append ?_ fun hc => (startsExponent_ne (hnumber.chars.2 _ hc)).2.2.2.2 rfl
    cases mark <;> decide

theorem IsGap.not_mem_slash (h : IsGap gap) : '/' ∉ gap := fun hc => by
  rcases h.chars _ hc with hblank | heq | heq
  · revert hblank
    decide
  · cases heq
  · cases heq

theorem SpellsFactors.not_mem_slash (h : SpellsFactors fs cs) : '/' ∉ cs := by
  induction h with
  | nil => exact List.not_mem_nil
  | cons _ hsymbol hexponent hgap _ _ ih =>
    exact List.not_mem_append hsymbol.not_mem.2.2
      (List.not_mem_append hexponent.not_mem_slash (List.not_mem_append hgap.not_mem_slash ih))

theorem SpellsProduct.not_mem_slash (h : SpellsProduct fs cs) : '/' ∉ cs := by
  obtain ⟨gap, rest, hgap, hfs, rfl⟩ := h
  exact List.not_mem_append hgap.not_mem_slash hfs.not_mem_slash

/-- The text of some factors is not blank. -/
theorem SpellsProduct.trim (h : SpellsProduct fs cs) (hne : fs ≠ []) : (Text.trim cs).isEmpty = false := by
  obtain ⟨gap, rest, hgap, hfs, rfl⟩ := h
  cases hfs with
  | nil => exact absurd rfl hne
  | cons _ hsymbol =>
    obtain ⟨c, cs, hcs⟩ := List.exists_cons_of_ne_nil hsymbol.nonempty
    have hblank := (hsymbol.unbroken (hcs ▸ List.mem_cons_self)).1
    exact Text.trim_of_mem (List.mem_append_right _ (List.mem_append_left _ (hcs ▸ List.mem_cons_self))) hblank

/-! ### Texts of units -/

theorem total_append (fs gs : List (String × Int)) (symbol : String) :
    total (fs ++ gs) symbol = total fs symbol + total gs symbol := by
  rw [total, List.filter_append, List.map_append, List.sum_append]
  rfl

theorem total_neg (fs : List (String × Int)) (symbol : String) :
    total (fs.map fun p => (p.1, -p.2)) symbol = -total fs symbol := by
  induction fs with
  | nil => rfl
  | cons p fs ih => rw [List.map_cons, total_cons, total_cons, ih]; split <;> omega

theorem fits_neg (he : Fits e) (hne : e ≠ -2 ^ 31) : Fits (-e) := by
  obtain ⟨hlow, hhigh⟩ := he
  exact ⟨by omega, by omega⟩

theorem Spells.read_eq {text : String} (h : Spells num den text) (hfits : ∀ p ∈ num ++ den, Fits p.2)
    (hden : ∀ p ∈ den, p.2 ≠ -2 ^ 31) :
    read text = .ok ⟨normalize (raiseAll (-1) (raiseAll 1 .empty num) (den.map fun p => (p.1, -p.2))), 1⟩ := by
  rw [List.forall_mem_append] at hfits
  cases h with
  | @product cs hne hnum =>
    have hsplit : Text.split (· == '/') cs = [cs] := Text.split_of_none fun c hc =>
      beq_eq_false_iff_ne.mpr fun heq => hnum.not_mem_slash (heq ▸ hc)
    rw [read, String.toList_ofList, hnum.trim hne, if_neg Bool.false_ne_true, hsplit, applyParts,
      applyProduct_spelled hnum hfits.1, one_eq_scale]
    rfl
  | @quotient _ cs ds hnum hdenominator =>
    have htrim : (Text.trim (cs ++ '/' :: ds)).isEmpty = false :=
      Text.trim_of_mem (List.mem_append_right _ List.mem_cons_self) (by decide)
    have hsplit : Text.split (· == '/') (cs ++ '/' :: ds) = [cs, ds] := by
      have hnone : Text.split (· == '/') ds = [ds] := Text.split_of_none fun c hc =>
        beq_eq_false_iff_ne.mpr fun heq => hdenominator.not_mem_slash (heq ▸ hc)
      rw [Text.split_append hnum.not_mem_slash, hnone]
    have hdenominatorFits : ∀ p ∈ den.map fun p => (p.1, -p.2), Fits p.2 := by
      intro p hp
      obtain ⟨q, hq, rfl⟩ := List.mem_map.mp hp
      exact fits_neg (hfits.2 q hq) (hden q hq)
    have hparts : ∀ s, applyParts s unity [cs, ds] =
        .ok ⟨raiseAll (-1) (raiseAll 1 .empty num) (den.map fun p => (p.1, -p.2)), 1⟩ := fun s =>
      bind_eq_ok.mpr ⟨_, applyProduct_spelled hnum hfits.1,
        bind_eq_ok.mpr ⟨_, applyProduct_spelled hdenominator hdenominatorFits, by rw [one_eq_scale]; rfl⟩⟩
    rw [read, String.toList_ofList, htrim, if_neg Bool.false_ne_true, hsplit, hparts]
    rfl

theorem get?_normalize {t : NameMap Int} {e : Int} (h : exponentOf t symbol = e) :
    (normalize t).get? symbol = if e = 0 then none else some e := by
  rw [← exponentOf_normalize] at h
  split
  · rename_i hzero
    cases hget : (normalize t).get? symbol with
    | none => rfl
    | some v =>
      obtain ⟨hv, hne⟩ := (normal_normalize t).get?_iff.mp hget
      omega
  · exact (normal_normalize t).get?_iff.mpr ⟨h, ‹_›⟩

/-- Texts with two slashes or more are refused. -/
theorem read_slashes {text : String} (h : 2 ≤ text.toList.count '/') : ∃ fault, read text = .error fault := by
  have hlength := Text.length_split (· == '/') text.toList
  rw [List.count] at h
  rw [read]
  split
  · exact ⟨_, rfl⟩
  · generalize Text.split (· == '/') text.toList = parts at *
    obtain ⟨numerator, denominator, next, rest, rfl⟩ : ∃ numerator denominator next rest,
        parts = numerator :: denominator :: next :: rest := by
      rcases parts with _ | ⟨numerator, _ | ⟨denominator, _ | ⟨next, rest⟩⟩⟩
      · cases hlength
      · rw [List.length_singleton] at hlength
        omega
      · rw [List.length_cons, List.length_singleton] at hlength
        omega
      · exact ⟨numerator, denominator, next, rest, rfl⟩
    cases hread : applyParts text unity (numerator :: denominator :: next :: rest) with
    | error fault => exact ⟨fault, rfl⟩
    | ok u =>
      obtain ⟨v, -, hrest⟩ := bind_eq_ok.mp hread
      obtain ⟨w, -, hrest⟩ := bind_eq_ok.mp hrest
      cases hrest

/-- All notations of a product are read as the unit whose exponents are the sums of those of its factors. Behind the slash
    only the exponent `-2 ^ 31` has no notation that is read, as it has 32 bits only before it is turned round. -/
theorem read_spelled :
    (∀ {num den : List (String × Int)} {text : String}, Spells num den text → (∀ p ∈ num ++ den, Fits p.2) →
      (∀ p ∈ den, p.2 ≠ -2 ^ 31) → ∃ u, read text = .ok u ∧ u.scale = 1 ∧ ∀ symbol,
        u.terms.get? symbol = if total (num ++ den) symbol = 0 then none else some (total (num ++ den) symbol)) ∧
    ∀ text : String, 2 ≤ text.toList.count '/' → ∃ fault, read text = .error fault := by
  refine ⟨fun h hfits hden => ⟨_, h.read_eq hfits hden, rfl, fun symbol => get?_normalize ?_⟩, fun _ => read_slashes⟩
  rw [exponentOf_raiseAll, exponentOf_raiseAll, total_neg, total_append]
  simp [exponentOf, NameMap.get?, NameMap.empty, NameMap.find]

theorem read_spelled_kilogram :
    Spells [("kg", 1), ("m", 2), ("kg", -3)] [("s", 2)] " kg.m**+2 * kg^-3/s-2" ∧
      (∃ u, read " kg.m**+2 * kg^-3/s-2" = .ok u ∧ u.scale = 1 ∧ u.terms.get? "kg" = some (-2)) ∧
      ∃ fault, read "kg/m/s" = .error fault := by
  have hnum : SpellsProduct [("kg", 1), ("m", 2), ("kg", -3)] " kg.m**+2 * kg^-3".toList :=
    ⟨[' '], "kg.m**+2 * kg^-3".toList, by decide,
      .cons ['.'] (by decide) .omitted (by decide) (by decide) <|
      .cons [' ', '*', ' '] (by decide) (.marked .stars (.plus 2)) (by decide) (by decide) <|
      .cons [] (by decide) (.marked .caret (.plain (-3))) (by decide) (by decide) .nil, by decide⟩
  have hden : SpellsProduct [("s", -2)] "s-2".toList :=
    ⟨[], "s-2".toList, by decide,
      .cons [] (by decide) (.marked .none (.plain (-2))) (by decide) (by decide) .nil, rfl⟩
  have hspells : Spells [("kg", 1), ("m", 2), ("kg", -3)] [("s", 2)] " kg.m**+2 * kg^-3/s-2" := .quotient hnum hden
  obtain ⟨u, hread, hscale, hterms⟩ := read_spelled.1 hspells (by decide) (by decide)
  exact ⟨hspells, ⟨u, hread, hscale, (hterms "kg").trans (by decide +kernel)⟩,
    read_spelled.2 "kg/m/s" (by decide +kernel)⟩

theorem read_spelled_limit : Spells [("m", 1)] [("s", -2 ^ 31)] "m/s2147483648" ∧ Fits 1 ∧ Fits (-2 ^ 31) ∧
    read "m/s2147483648" = .error (.badExponent "s2147483648") := by
  have hnum : SpellsProduct [("m", 1)] "m".toList :=
    ⟨[], "m".toList, by decide, .cons [] (by decide) .omitted (by decide) (by decide) .nil, rfl⟩
  have hden : SpellsProduct [("s", 2 ^ 31)] "s2147483648".toList :=
    ⟨[], "s2147483648".toList, by decide,
      .cons [] (by decide) (.marked .none (.plain (2 ^ 31))) (by decide) (by decide) .nil, rfl⟩
  exact ⟨.quotient hnum hden, by decide, by decide, by decide +kernel⟩

end Measure
end Concord
