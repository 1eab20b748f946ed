import Concord.Proofs.Measure.Notations
import Concord.Proofs.Measure.RoundTrip

/-! Numbers in front of a symbol. A point is part of a number only between digits, so a number is read at its value
    unless its point stands in front, or right in front of an exponent part that says something. -/

namespace Concord

namespace Decimal

variable {cs whole tail : List Char} {x : Double} {e : Int}

theorem magnitudeBits_ofDecimal_ne_zero {m : Nat} (h : ofDecimal m e ≠ 0) : (ofDecimal m e).magnitudeBits ≠ 0 := by
  intro hbits
  refine h ?_
  rw [Double.eq_magnitude (isNegative_ofDecimal m e), hbits]
  rfl

/-! ### Literals -/

theorem readInt_eq_some (h : readInt cs = some e) : cs ≠ [] ∧ ∀ c ∈ cs, c.isDigit = true ∨ c = '-' ∨ c = '+' := by
  have hsign : ∀ c ∈ cs, c ∈ (readSign cs).2 ∨ c = '-' ∨ c = '+' := by
    unfold readSign
    split
    · exact List.forall_mem_cons.mpr ⟨.inr (.inl rfl), fun _ => .inl⟩
    · exact List.forall_mem_cons.mpr ⟨.inr (.inr rfl), fun _ => .inl⟩
    · exact fun _ => .inl
  unfold readInt at h
  dsimp only at h
  split at h
  · cases h
  · rename_i hcond
    rw [Bool.or_eq_true, not_or] at hcond
    have hdigits : ∀ c ∈ (readSign cs).2, c.isDigit = true := by simpa using hcond.2
    refine ⟨?_, fun c hc => (hsign c hc).imp_left (hdigits c)⟩
    rintro rfl
    exact hcond.1 rfl

/-- Behind the places of a literal stands nothing, or an exponent part. -/
theorem readExponent_eq_some (h : readExponent tail = some e) :
    tail = [] ∧ e = 0 ∨ ∃ c cs, tail = c :: cs ∧ (c = 'e' ∨ c = 'E') ∧ readInt cs = some e := by
  cases tail with
  | nil => exact .inl ⟨rfl, (Option.some.inj h).symm⟩
  | cons c cs =>
    rw [readExponent] at h
    split at h
    · exact .inr ⟨c, cs, rfl, ‹_›, h⟩
    · cases h

theorem head_of_readExponent (h : readExponent tail = some e) : ∀ c ∈ tail.head?, c.isDigit = false ∧ c ≠ '.' := by
  rcases readExponent_eq_some h with ⟨rfl, -⟩ | ⟨c, cs, rfl, hc, -⟩
  · exact fun _ hc => by cases hc
  · rintro d ⟨⟩
    rcases hc with rfl | rfl <;> decide

/-- The digits of a literal, which may have a point in front, among or behind them, and what follows them. -/
inductive IsLiteral : List Char → Double → Prop
  | whole {whole tail : List Char} {e : Int} : (∀ c ∈ whole, c.isDigit = true) → whole ≠ [] → readExponent tail = some e →
      IsLiteral (whole ++ tail) (ofDecimal (ofDigits whole) e)
  | point {whole fraction tail : List Char} {e : Int} : (∀ c ∈ whole, c.isDigit = true) →
      (∀ c ∈ fraction, c.isDigit = true) → whole ≠ [] ∨ fraction ≠ [] → readExponent tail = some e →
      IsLiteral (whole ++ '.' :: (fraction ++ tail)) (ofDecimal (ofDigits (whole ++ fraction)) (e - fraction.length))

theorem isLiteral_of_read (h : read cs = some x) : IsLiteral cs x := by
  have hcs : cs.takeWhile Char.isDigit ++ cs.dropWhile Char.isDigit = cs := List.takeWhile_append_dropWhile
  have hwhole : ∀ c ∈ cs.takeWhile Char.isDigit, c.isDigit = true := fun _ => List.mem_takeWhile_imp
  unfold read splitFraction at h
  dsimp only at h
  generalize cs.takeWhile Char.isDigit = whole at *
  generalize cs.dropWhile Char.isDigit = rest at *
  subst hcs
  split at h
  · rename_i cs
    dsimp only at h
    split at h
    · cases h
    · rename_i hne
      obtain ⟨e, he, rfl⟩ := Option.map_eq_some_iff.mp h
      have hplaces : whole ≠ [] ∨ cs.takeWhile Char.isDigit ≠ [] := by
        rw [Bool.and_eq_true, not_and_or] at hne
        exact hne.imp (fun h => by simpa using h) fun h => by simpa using h
      have hliteral := IsLiteral.point hwhole (fun _ => List.mem_takeWhile_imp) hplaces he
      rwa [List.takeWhile_append_dropWhile] at hliteral
  · split at h
    · cases h
    · rename_i hne
      obtain ⟨e, he, rfl⟩ := Option.map_eq_some_iff.mp h
      rw [List.append_nil, List.length_nil, Int.natCast_zero, Int.sub_zero]
      exact .whole hwhole (by simpa using hne) he

theorem read_whole_append (hwhole : ∀ c ∈ whole, c.isDigit = true) (hne : whole ≠ []) (he : readExponent tail = some e) :
    read (whole ++ tail) = some (ofDecimal (ofDigits whole) e) := by
  have hhead := head_of_readExponent he
  have htake : tail.takeWhile Char.isDigit = [] ∧ tail.dropWhile Char.isDigit = tail ∧
      splitFraction tail = ([], tail) := by
    cases tail with
    | nil => exact ⟨rfl, rfl, rfl⟩
    | cons c cs =>
      obtain ⟨hdigit, hpoint⟩ := hhead c rfl
      refine ⟨List.takeWhile_cons_of_neg (by simp [hdigit]), List.dropWhile_cons_of_neg (by simp [hdigit]), ?_⟩
      rw [splitFraction.eq_2]
      rintro cs ⟨⟩
      exact hpoint rfl
  unfold read
  rw [List.takeWhile_append_of_pos hwhole, List.dropWhile_append_of_pos hwhole, htake.1, htake.2.1, htake.2.2]
  simp [hne, he]

end Decimal

namespace Measure

variable {l symbol : String} {cs whole fraction tail : List Char} {x : Double} {e : Int} {u : Measure Double}

/-! ### Factors -/

/-- A number that is the first factor. -/
theorem applyFactor_literal (hread : Decimal.read cs = some x) (hnumeric : isNumeric cs = true) :
    applyFactor 1 unity cs =
      if (x = 0 || !x.isFinite) = true then .error (.badScale (String.ofList cs)) else .ok ⟨.empty, x⟩ := by
  have hnil : cs ≠ [] := by
    rintro rfl
    cases hnumeric
  by_cases hone : cs = ['1']
  · subst hone
    have hone : Decimal.read ['1'] = some Scalar.one := by decide +kernel
    obtain rfl : Scalar.one = x := Option.some.inj (hone.symm.trans hread)
    rw [if_neg (by decide +kernel)]
    rfl
  · have hvalue : (unity : Measure Double).scale * Scalar.power x 1 = x := by
      change Scalar.one * (Scalar.one * x) = x
      rw [Double.one_mul, Double.one_mul]
    rw [applyFactor, if_neg (not_or.mpr ⟨hnil, hone⟩), if_pos hnumeric, readScale, hread]
    dsimp only
    split
    · rfl
    · rw [Except.map, hvalue]
      rfl

theorem isNumeric_digits (hwhole : ∀ c ∈ whole, c.isDigit = true) (hne : whole ≠ []) (tail : List Char) :
    isNumeric (whole ++ tail) = true := by
  obtain ⟨c, cs, rfl⟩ := List.exists_cons_of_ne_nil hne
  simp [isNumeric, hwhole c List.mem_cons_self]

/-- An exponent part by itself is a symbol with an exponent. -/
theorem applyFactor_exponent {c : Char} (hc : c = 'e' ∨ c = 'E') (hread : Decimal.readInt cs = some e) :
    applyFactor 1 u (c :: cs) = if Fits e then .ok ⟨raise u.terms (String.ofList [c]) e, u.scale⟩
      else .error (.badExponent (String.ofList (c :: cs))) := by
  obtain ⟨hne, hchars⟩ := Decimal.readInt_eq_some hread
  have hstart : ∀ d ∈ cs, startsExponent d = true := by
    intro d hd
    rcases hchars d hd with hdigit | rfl | rfl
    · simp [startsExponent, hdigit]
    · rfl
    · rfl
  obtain ⟨hdigit, hpoint, hcaret⟩ : c.isDigit = false ∧ c ≠ '.' ∧ '^' ∉ [c] := by
    rcases hc with rfl | rfl <;> decide
  have hcarets : '^' ∉ cs := fun hd => (startsExponent_ne (hstart _ hd)).2.1 rfl
  have hsplit : splitSymbol (c :: cs) = ([c], cs) := by
    have h := splitSymbol_plain (List.cons_ne_nil c []) (fun _ h => by cases h) hcaret hcarets
      fun d hd => hstart d (List.mem_of_mem_head? hd)
    rwa [if_neg (by simpa using hne)] at h
  have hexponent := readExponent_of_readInt hread
  have hskip : ¬(c :: cs = [] ∨ c :: cs = ['1']) := by
    rintro (h | h)
    · cases h
    · cases h
      cases hdigit
  have hnumeric : isNumeric (c :: cs) = false := by simp [isNumeric, hdigit, hpoint]
  rw [applyFactor, if_neg hskip, hnumeric, if_neg Bool.false_ne_true, readSymbol, hsplit]
  by_cases he : Fits e
  · rw [if_pos he] at hexponent ⊢
    simp [hdigit, hexponent, Except.map]
  · rw [if_neg he] at hexponent ⊢
    simp [hdigit, hexponent, Except.map]

/-- The symbol behind a number. -/
theorem foldlM_symbol (hsymbol : IsSymbol symbol.toList) (previous : Char) (u : Measure Double) :
    (factors previous symbol.toList).foldlM (applyFactor 1) u = .ok ⟨raise u.terms symbol 1, u.scale⟩ := by
  have hspells : SpellsFactors [(symbol, 1)] symbol.toList := by
    simpa using SpellsFactors.cons [] hsymbol .omitted (by decide) (by decide) .nil
  rw [← caretForStars_of_not_mem hsymbol.not_mem.2.1]
  exact hspells.foldlM (by simp [Fits]) previous u

/-! ### Texts -/

theorem isDigit_nil : ∀ c ∈ ([] : List Char), c.isDigit = true := fun _ h => absurd h List.not_mem_nil

/-- The point of a literal, if there is one, has a digit in front of it, and behind it a digit, or no exponent part but
    one that is zero. -/
def PointKept (cs : List Char) : Prop := ∀ parts ∈ Text.splitFirst '.' cs,
  parts.1 ≠ [] ∧ (parts.2.head?.any Char.isDigit = true ∨ Decimal.readExponent parts.2 = some 0)

instance (cs : List Char) : Decidable (PointKept cs) :=
  Option.decidableForallMem (Text.splitFirst '.' cs)

theorem pointKept_iff {rest : List Char} (hwhole : '.' ∉ whole) : PointKept (whole ++ '.' :: rest) ↔
    whole ≠ [] ∧ (rest.head?.any Char.isDigit = true ∨ Decimal.readExponent rest = some 0) := by
  rw [PointKept, Text.splitFirst_append hwhole]
  simp

theorem places_chars (hwhole : ∀ c ∈ whole, c.isDigit = true) (he : Decimal.readExponent tail = some e) :
    ∀ c ∈ whole ++ tail, Text.isBlank c = false ∧ c ≠ '*' ∧ c ≠ '.' ∧ c ≠ '/' := by
  have hstart : ∀ c, startsExponent c = true → Text.isBlank c = false ∧ c ≠ '*' ∧ c ≠ '.' ∧ c ≠ '/' := fun c hc =>
    ⟨(startsExponent_ne hc).1, (startsExponent_ne hc).2.2⟩
  refine List.forall_mem_append.mpr ⟨fun c hc => hstart c (by simp [startsExponent, hwhole c hc]), ?_⟩
  rcases Decimal.readExponent_eq_some he with ⟨rfl, -⟩ | ⟨c, cs, rfl, hc, hread⟩
  · exact fun _ hc => absurd hc List.not_mem_nil
  · refine List.forall_mem_cons.mpr ⟨by rcases hc with rfl | rfl <;> decide, fun d hd => hstart d ?_⟩
    rcases (Decimal.readInt_eq_some hread).2 d hd with hdigit | rfl | rfl
    · simp [startsExponent, hdigit]
    · rfl
    · rfl

theorem unbroken_places_exponent (hwhole : ∀ c ∈ whole, c.isDigit = true) (he : Decimal.readExponent tail = some e)
    (previous : Char) : Unbroken previous (whole ++ tail) :=
  unbroken_of_not_point (fun c hc =>
    let ⟨hblank, hstar, hpoint, _⟩ := places_chars hwhole he c hc
    ⟨hblank, hstar, hpoint⟩) previous

theorem chars_of_isLiteral (h : Decimal.IsLiteral cs x) : ∀ c ∈ cs, c ≠ '/' ∧ c ≠ '*' := by
  have hplaces : ∀ {whole tail : List Char} {e : Int}, (∀ c ∈ whole, c.isDigit = true) →
      Decimal.readExponent tail = some e → ∀ c ∈ whole ++ tail, c ≠ '/' ∧ c ≠ '*' := fun hwhole he c hc =>
    let ⟨_, hstar, _, hslash⟩ := places_chars hwhole he c hc
    ⟨hslash, hstar⟩
  cases h with
  | whole hwhole _ he => exact hplaces hwhole he
  | point hwhole hfraction _ he =>
    exact List.forall_mem_append.mpr ⟨(List.forall_mem_append.mp (hplaces hwhole he)).1,
      List.forall_mem_cons.mpr ⟨by decide, hplaces hfraction he⟩⟩

theorem exponentOf_empty (key : String) : exponentOf .empty key = 0 := rfl

/-- Exponents are those of the one symbol with a factor. -/
theorem normalize_eq_single {t : NameMap Int} {y : Double} : (⟨normalize t, y⟩ : Measure Double) = single x symbol 1 ↔
    y = x ∧ ∀ key, exponentOf t key = if key = symbol then 1 else 0 := by
  constructor
  · intro h
    refine ⟨congrArg Measure.scale h, fun key => ?_⟩
    have hterms : normalize t = (single x symbol 1).terms := congrArg Measure.terms h
    rw [← exponentOf_normalize, hterms, exponentOf_single]
  · rintro ⟨rfl, ht⟩
    have hnormal : Normal (single y symbol 1).terms := by
      intro key hkey
      rw [single, NameMap.ofList, List.foldl_cons, List.foldl_nil, NameMap.get?_insert] at hkey
      split at hkey <;> cases hkey
    refine Measure.ext ((normal_normalize t).ext hnormal fun key => ?_) rfl
    rw [exponentOf_normalize, ht, exponentOf_single]

/-! ### Numbers in front of a symbol -/

section
variable (hsymbol : IsSymbol symbol.toList)
include hsymbol

/-- A literal, a blank and a symbol are read factor by factor. -/
theorem read_before_symbol (hliteral : Decimal.IsLiteral l.toList x) : read (l ++ " " ++ symbol) =
    ((factors ' ' (l.toList ++ ' ' :: symbol.toList)).foldlM (applyFactor 1) unity).map
      fun u => ⟨normalize u.terms, u.scale⟩ := by
  have htext : (l ++ " " ++ symbol).toList = l.toList ++ ' ' :: symbol.toList := by
    rw [String.toList_append, String.toList_append, List.append_assoc]
    rfl
  have hall : ∀ c ∈ l.toList ++ ' ' :: symbol.toList, c ≠ '/' ∧ c ≠ '*' :=
    List.forall_mem_append.mpr ⟨chars_of_isLiteral hliteral, List.forall_mem_cons.mpr ⟨by decide, fun c hc =>
      ⟨fun heq => hsymbol.not_mem.2.2 (heq ▸ hc), fun heq => hsymbol.not_mem.2.1 (heq ▸ hc)⟩⟩⟩
  have htrim : (Text.trim (l.toList ++ ' ' :: symbol.toList)).isEmpty = false := by
    obtain ⟨c, cs, hcs⟩ := List.exists_cons_of_ne_nil hsymbol.nonempty
    have hblank := (hsymbol.unbroken (hcs ▸ List.mem_cons_self)).1
    exact Text.trim_of_mem (List.mem_append_right _ (List.mem_cons_of_mem _ (hcs ▸ List.mem_cons_self))) hblank
  have hsplit : Text.split (· == '/') (l.toList ++ ' ' :: symbol.toList) = [l.toList ++ ' ' :: symbol.toList] :=
    Text.split_of_none fun c hc => beq_eq_false_iff_ne.mpr (hall c hc).1
  rw [read, htext, htrim, if_neg Bool.false_ne_true, hsplit, applyParts, applyProduct,
    caretForStars_of_not_mem fun hc => (hall _ hc).2 rfl]

/-- A number and a symbol, read one after the other. -/
theorem foldlM_number (hread : Decimal.read cs = some x) (hnumeric : isNumeric cs = true) (previous : Char) :
    ((cs :: factors previous symbol.toList).foldlM (applyFactor 1) unity).map (fun u => ⟨normalize u.terms, u.scale⟩) =
      if (x = 0 || !x.isFinite) = true then .error (.badScale (String.ofList cs)) else .ok (single x symbol 1) := by
  rw [List.foldlM_cons, applyFactor_literal hread hnumeric]
  split
  · rfl
  · refine (congrArg (Except.map _) (foldlM_symbol hsymbol previous _)).trans (congrArg Except.ok ?_)
    exact normalize_eq_single.mpr ⟨rfl, fun key => by rw [exponentOf_raise, exponentOf_empty, Int.zero_add]⟩

/-- A number that is not broken up is read at its value. -/
theorem read_unbroken (hread : Decimal.read l.toList = some x) (hnumeric : isNumeric l.toList = true)
    (hunbroken : Unbroken ' ' l.toList) : read (l ++ " " ++ symbol) =
      if (x = 0 || !x.isFinite) = true then .error (.badScale l) else .ok (single x symbol 1) := by
  rw [read_before_symbol hsymbol (Decimal.isLiteral_of_read hread), factors_blank hunbroken,
    foldlM_number hsymbol hread hnumeric, String.ofList_toList]

/-- With the point in front, the digits are read as a whole number. -/
theorem read_leading (hl : l.toList = '.' :: (fraction ++ tail)) (hfraction : ∀ c ∈ fraction, c.isDigit = true)
    (hne : fraction ≠ []) (he : Decimal.readExponent tail = some e)
    (hx : Decimal.ofDecimal (Decimal.ofDigits fraction) e = x) : read (l ++ " " ++ symbol) =
      if (x = 0 || !x.isFinite) = true then .error (.badScale (String.ofList (fraction ++ tail)))
      else .ok (single x symbol 1) := by
  have hliteral := Decimal.IsLiteral.point isDigit_nil hfraction (.inr hne) he
  rw [List.nil_append, ← hl] at hliteral
  have hread := hx ▸ Decimal.read_whole_append hfraction hne he
  have hpoint : separates ' ' '.' (fraction ++ tail ++ ' ' :: symbol.toList) = true := rfl
  rw [read_before_symbol hsymbol hliteral, hl, List.cons_append, factors, if_pos hpoint,
    factors_blank (unbroken_places_exponent hfraction he '.'),
    ← foldlM_number hsymbol hread (isNumeric_digits hfraction hne tail)]
  rfl

/-- Without its places a decimal is larger by a power of ten. -/
theorem read_leading_ne (hl : l.toList = '.' :: (fraction ++ tail)) (hfraction : ∀ c ∈ fraction, c.isDigit = true)
    (hne : fraction ≠ []) (he : Decimal.readExponent tail = some e)
    (hx : Decimal.ofDecimal (Decimal.ofDigits fraction) (e - fraction.length) = x) (hfinite : x.isFinite = true)
    (hzero : x ≠ 0) : read (l ++ " " ++ symbol) ≠ .ok (single x symbol 1) := by
  subst hx
  have hlt : e - fraction.length < e := by
    have hpos := List.length_pos_iff.mpr hne
    omega
  rw [read_leading hsymbol hl hfraction hne he rfl]
  split
  · exact fun h => by cases h
  · exact fun h => Decimal.ofDecimal_ne_of_lt hlt hfinite (Decimal.magnitudeBits_ofDecimal_ne_zero hzero)
      (congrArg Measure.scale (Except.ok.inj h)).symm

/-- A number, an exponent part by itself and a symbol: the exponent part is a symbol too, which only a zero hides. -/
theorem foldlM_number_exponent_iff {c : Char} {y : Double} (hread : Decimal.read whole = some y)
    (hnumeric : isNumeric whole = true) (hc : c = 'e' ∨ c = 'E') (hcs : Decimal.readInt cs = some e)
    (hfinite : x.isFinite = true) (hzero : x ≠ 0) :
    ((whole :: (c :: cs) :: factors ' ' symbol.toList).foldlM (applyFactor 1) unity).map
      (fun u => ⟨normalize u.terms, u.scale⟩) = .ok (single x symbol 1) ↔ y = x ∧ e = 0 := by
  rw [List.foldlM_cons, applyFactor_literal hread hnumeric]
  split
  · rename_i hbad
    refine iff_of_false (fun h => by cases h) ?_
    rintro ⟨rfl, -⟩
    simp [hzero, hfinite] at hbad
  · change Except.map _ (((c :: cs) :: factors ' ' symbol.toList).foldlM (applyFactor 1) _) = _ ↔ _
    rw [List.foldlM_cons, applyFactor_exponent hc hcs]
    by_cases hfits : Fits e
    · rw [if_pos hfits]
      change Except.map _ ((factors ' ' symbol.toList).foldlM (applyFactor 1) _) = _ ↔ _
      rw [foldlM_symbol hsymbol]
      refine (Except.ok.injEq ..).to_iff.trans (normalize_eq_single.trans (and_congr_right fun _ => ⟨fun h => ?_, ?_⟩))
      · have hkey := h (String.ofList [c])
        rw [exponentOf_raise, exponentOf_raise, exponentOf_empty, if_pos rfl] at hkey
        omega
      · rintro rfl key
        rw [exponentOf_raise, exponentOf_raise, exponentOf_empty, ite_self]
        omega
    · rw [if_neg hfits]
      refine iff_of_false (fun h => by cases h) ?_
      rintro ⟨-, rfl⟩
      exact hfits (by decide)

omit hsymbol in
/-- A point behind digits ends them if no digit follows. -/
theorem factors_trailing (hwhole : ∀ c ∈ whole, c.isDigit = true) (he : Decimal.readExponent tail = some e) :
    factors ' ' (whole ++ '.' :: tail ++ ' ' :: symbol.toList) = whole :: tail :: factors ' ' symbol.toList := by
  have hdigits : ∀ c ∈ whole, Text.isBlank c = false ∧ c ≠ '*' ∧ c ≠ '.' := fun c hc =>
    let ⟨hblank, hstar, hpoint, _⟩ := places_chars hwhole he c (List.mem_append_left _ hc)
    ⟨hblank, hstar, hpoint⟩
  have hpoint : ∀ previous, separates previous '.' (tail ++ ' ' :: symbol.toList) = true := by
    intro previous
    refine separates_gap (.inr (.inl rfl)) ?_
    cases tail with
    | nil => rintro d ⟨⟩; rfl
    | cons c cs => exact fun d hd => (Decimal.head_of_readExponent he d hd).1
  have hunbroken := unbroken_places_exponent isDigit_nil he '.'
  rw [List.append_assoc, List.cons_append, factors_append hdigits hpoint]
  exact congrArg (whole :: ·) (factors_blank hunbroken)

/-- With the point behind the digits, a number is read at its value if its exponent part says nothing. -/
theorem read_trailing_iff (hl : l.toList = whole ++ '.' :: tail) (hwhole : ∀ c ∈ whole, c.isDigit = true)
    (hne : whole ≠ []) (he : Decimal.readExponent tail = some e) (hfinite : x.isFinite = true) (hzero : x ≠ 0)
    (hx : Decimal.ofDecimal (Decimal.ofDigits whole) e = x) :
    read (l ++ " " ++ symbol) = .ok (single x symbol 1) ↔ e = 0 := by
  have hliteral := Decimal.IsLiteral.point hwhole isDigit_nil (.inl hne) he
  rw [List.nil_append, ← hl] at hliteral
  have hread := Decimal.read_whole_append hwhole hne (show Decimal.readExponent [] = some 0 from rfl)
  rw [List.append_nil] at hread
  have hnumeric : isNumeric whole = true := List.append_nil whole ▸ isNumeric_digits hwhole hne []
  rw [read_before_symbol hsymbol hliteral, hl, factors_trailing hwhole he]
  rcases Decimal.readExponent_eq_some he with ⟨rfl, rfl⟩ | ⟨c, cs, rfl, hc, hcs⟩
  · refine iff_of_true ?_ rfl
    have hnumber := foldlM_number hsymbol (hx ▸ hread) hnumeric ' '
    rw [if_neg (by simp [hzero, hfinite])] at hnumber
    exact hnumber
  · rw [foldlM_number_exponent_iff hsymbol hread hnumeric hc hcs hfinite hzero]
    refine ⟨fun h => h.2, ?_⟩
    rintro rfl
    exact ⟨hx, rfl⟩

end

/-- A number in front of a symbol is read at its value if, and only if, its point is kept. -/
theorem read_literal_iff (hread : Decimal.read l.toList = some x) (hfinite : x.isFinite = true) (hzero : x ≠ 0)
    (hsymbol : IsSymbol symbol.toList) :
    read (l ++ " " ++ symbol) = .ok (single x symbol 1) ↔ PointKept l.toList := by
  have hnumber : ¬(x = 0 || !x.isFinite) = true := by simp [hzero, hfinite]
  have hkept : isNumeric l.toList = true → Unbroken ' ' l.toList → read (l ++ " " ++ symbol) = .ok (single x symbol 1) :=
    fun hnumeric hunbroken => by rw [read_unbroken hsymbol hread hnumeric hunbroken, if_neg hnumber]
  have hpoint : ∀ {whole tail : List Char} {e : Int}, (∀ c ∈ whole, c.isDigit = true) →
      Decimal.readExponent tail = some e → '.' ∉ whole ++ tail :=
    fun hwhole he hc => (places_chars hwhole he _ hc).2.2.1 rfl
  have hshape := Decimal.isLiteral_of_read hread
  obtain ⟨cs, hl⟩ : ∃ cs, l.toList = cs := ⟨_, rfl⟩
  rw [hl] at hshape hkept ⊢
  -- The point has digits on both sides, or on one side only.
  cases hshape with
  | @whole whole tail e hwhole hne he =>
    refine iff_of_true (hkept (isNumeric_digits hwhole hne tail) (unbroken_places_exponent hwhole he ' ')) ?_
    rw [PointKept, Text.splitFirst_of_not_mem (hpoint hwhole he)]
    exact fun _ h => by cases h
  | @point whole fraction tail e hwhole hfraction hne he =>
    rw [pointKept_iff fun hc => hpoint hwhole he (List.mem_append_left _ hc)]
    rcases eq_or_ne whole [] with rfl | hwhole'
    · have hfraction' : fraction ≠ [] := hne.resolve_left (absurd rfl)
      exact iff_of_false (read_leading_ne hsymbol hl hfraction hfraction' he rfl hfinite hzero) fun h => h.1 rfl
    · rcases eq_or_ne fraction [] with rfl | hfraction'
      · rw [List.append_nil, List.length_nil, Int.natCast_zero, Int.sub_zero] at hfinite hzero ⊢
        rw [read_trailing_iff hsymbol hl hwhole hwhole' he hfinite hzero rfl, List.nil_append, he, Option.some.injEq]
        refine ⟨fun h => ⟨hwhole', .inr h⟩, fun h => h.2.resolve_left fun hdigit => ?_⟩
        cases tail with
        | nil => cases hdigit
        | cons c cs => exact absurd hdigit (by simp [(Decimal.head_of_readExponent he c rfl).1])
      · obtain ⟨d, ds, rfl⟩ := List.exists_cons_of_ne_nil hfraction'
        have hdigit : (d :: ds ++ tail).head?.any Char.isDigit = true := hfraction d List.mem_cons_self
        refine iff_of_true (hkept (isNumeric_digits hwhole hwhole' _) ?_) ⟨hwhole', .inl hdigit⟩
        exact unbroken_point hdigit (unbroken_places_exponent hfraction he '.') hwhole (.inl hwhole')

theorem read_literal_iff_half :
    Decimal.read "0.5".toList = some (Decimal.ofDecimal 5 (-1)) ∧
      Decimal.read ".5".toList = some (Decimal.ofDecimal 5 (-1)) ∧
      read "0.5 m" = .ok (single (Decimal.ofDecimal 5 (-1)) "m" 1) ∧
      read ".5 m" ≠ .ok (single (Decimal.ofDecimal 5 (-1)) "m" 1) ∧ read ".5 m" = .ok (single 5 "m" 1) := by
  have hbehind : Decimal.read "0.5".toList = some (Decimal.ofDecimal 5 (-1)) := by decide +kernel
  have hfront : Decimal.read ".5".toList = some (Decimal.ofDecimal 5 (-1)) := by decide +kernel
  have hfinite : (Decimal.ofDecimal 5 (-1)).isFinite = true := by decide +kernel
  have hzero : Decimal.ofDecimal 5 (-1) ≠ 0 := by decide +kernel
  have hlost : ¬PointKept ".5".toList := by decide +kernel
  have hsymbol : IsSymbol "m".toList := by decide
  exact ⟨hbehind, hfront, (read_literal_iff hbehind hfinite hzero hsymbol).mpr (by decide +kernel),
    fun h => hlost ((read_literal_iff hfront hfinite hzero hsymbol).mp h), by decide +kernel⟩

end Measure
end Concord
