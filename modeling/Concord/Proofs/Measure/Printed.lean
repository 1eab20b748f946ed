import Concord.Proofs.Decimal.Reading
import Concord.Proofs.Measure.Reading

/-! Printed units are read again, if their symbols are plain: then each part of the text is a factor, and a symbol
    ends where its exponent starts. -/

namespace Concord

namespace Decimal

variable {m : Nat} {e : Int} {x : Double} {whole fraction cs : List Char}

/-- Digits, with at most one point among them. -/
inductive Places : List Char → Prop
  | whole {whole : List Char} : (∀ c ∈ whole, c.isDigit = true) → whole ≠ [] → Places whole
  | point {whole fraction : List Char} : (∀ c ∈ whole, c.isDigit = true) → whole ≠ [] →
      (∀ c ∈ fraction, c.isDigit = true) → fraction ≠ [] → Places (whole ++ '.' :: fraction)

theorem places_positional (m : Nat) (e : Int) : Places (positional "" (digits m) e).toList := by
  have hdigits : ∀ c ∈ digits m, c.isDigit = true := fun _ => isDigit_digits
  have hzeros : ∀ n, ∀ c ∈ List.replicate n '0' ++ digits m, c.isDigit = true := by
    intro n c hc
    rcases List.mem_append.mp hc with hc | hc
    · rw [List.eq_of_mem_replicate hc]
      rfl
    · exact hdigits c hc
  unfold positional
  split
  · rw [String.append_empty, String.toList_ofList]
    refine .whole (fun c hc => hzeros e.toNat c ?_) (by simp [digits_ne_nil])
    rw [List.mem_append] at hc ⊢
    exact hc.symm
  · rename_i he
    dsimp only
    split
    · rename_i hlt
      rw [String.toList_ofList]
      refine .point (fun c hc => hdigits c (List.mem_of_mem_take hc)) ?_
        (fun c hc => hdigits c (List.mem_of_mem_drop hc)) ?_
      · rw [← List.length_pos_iff, List.length_take]
        omega
      · rw [← List.length_pos_iff, List.length_drop]
        omega
    · rw [String.toList_ofList]
      have hpoint : ∀ fraction : List Char, (∀ c ∈ fraction, c.isDigit = true) → fraction ≠ [] →
          Places (['0'] ++ '.' :: fraction) := fun _ => .point (by simp [Char.isDigit]) (by simp)
      exact hpoint _ (hzeros _) (by simp [digits_ne_nil])

/-- The text of a finite number of positive sign has no sign and no exponent. -/
theorem places_plain (hfinite : x.isFinite = true) (hsign : x.isNegative = false) : Places (plain x).toList := by
  rw [plain_of_isFinite hfinite, layOut, hsign]
  simp only [Bool.false_eq_true, if_false]
  split
  · exact .whole (by simp [plainLayout, Char.isDigit]) (by simp [plainLayout])
  · have hplaces := places_positional (shortest plainLayout.ties x.abs).1 (shortest plainLayout.ties x.abs).2
    simpa [plainLayout] using hplaces

theorem toList_toString (n : Int) :
    (toString n).toList = if n < 0 then '-' :: digits n.natAbs else digits n.natAbs := by
  cases n with
  | ofNat n =>
    have hpos : ¬Int.ofNat n < 0 := Int.not_lt.mpr (Int.natCast_nonneg n)
    change (Nat.repr n).toList = _
    rw [Nat.toList_repr, if_neg hpos]
    rfl
  | negSucc n =>
    change ("-" ++ Nat.repr (n + 1)).toList = _
    rw [String.toList_append, Nat.toList_repr, if_pos (Int.negSucc_lt_zero n)]
    rfl

theorem readInt_toString (n : Int) : readInt (toString n).toList = some n := by
  have hdigits : (digits n.natAbs).all Char.isDigit = true := List.all_eq_true.mpr fun _ => isDigit_digits
  have hne : (digits n.natAbs).isEmpty = false := by simpa using digits_ne_nil n.natAbs
  rw [toList_toString]
  split
  · rename_i hneg
    simp [readInt, readSign, hdigits, hne, ofDigits_digits, abs_of_neg hneg]
  · rename_i hpos
    have hsign : readSign (digits n.natAbs) = (false, digits n.natAbs) := by
      have hhead := fun c => @isDigit_digits n.natAbs c
      cases hd : digits n.natAbs with
      | nil => rfl
      | cons c cs =>
        have hc := hhead c (hd ▸ List.mem_cons_self)
        unfold readSign
        split <;> simp_all [Char.isDigit]
    simp [readInt, hsign, hdigits, hne, ofDigits_digits, abs_of_nonneg (Int.not_lt.mp hpos)]

theorem chars_toString {n : Int} {c : Char} (hc : c ∈ (toString n).toList) : c.isDigit = true ∨ c = '-' := by
  rw [toList_toString] at hc
  split at hc
  · exact (List.mem_cons.mp hc).symm.imp_left isDigit_digits
  · exact .inl (isDigit_digits hc)

theorem toString_ne_nil (n : Int) : (toString n).toList ≠ [] := by
  rw [toList_toString]
  split
  · exact List.cons_ne_nil _ _
  · exact digits_ne_nil _

end Decimal

namespace Measure

variable {s symbol : String} {u v : Measure Double} {cs rest : List Char} {e : Int}

/-! ### Parts -/

/-- No character separates factors, where `previous` stands in front. -/
def Unbroken : Char → List Char → Prop
  | _, [] => True
  | previous, c :: cs => separates previous c cs = false ∧ Unbroken c cs

/-- A blank behind a part ends it. -/
theorem factors_blank : ∀ {cs : List Char} {previous : Char}, Unbroken previous cs →
    factors previous (cs ++ ' ' :: rest) = cs :: factors ' ' rest
  | [], previous, _ => by
    have hblank : separates previous ' ' rest = true := rfl
    rw [List.nil_append, factors, if_pos hblank]
  | c :: cs, previous, h => by
    obtain ⟨hc, hcs⟩ := h
    -- Only a point looks at what is behind it, and a blank there is no digit, as nothing is.
    have hbehind : separates previous c (cs ++ ' ' :: rest) = separates previous c cs := by
      cases cs <;> rfl
    rw [List.cons_append, factors, hbehind, hc, factors_blank hcs]
    rfl

theorem factors_unbroken : ∀ {cs : List Char} {previous : Char}, Unbroken previous cs → factors previous cs = [cs]
  | [], _, _ => rfl
  | c :: cs, previous, h => by
    obtain ⟨hc, hcs⟩ := h
    rw [factors, hc, factors_unbroken hcs]
    rfl

theorem factors_intercalate : ∀ {parts : List (List Char)}, parts ≠ [] → (∀ part ∈ parts, Unbroken ' ' part) →
    factors ' ' ([' '].intercalate parts) = parts
  | [part], _, h => by
    rw [List.intercalate_singleton]
    exact factors_unbroken (h part List.mem_cons_self)
  | part :: next :: parts, _, h => by
    rw [List.intercalate_cons_cons, List.append_assoc]
    refine (factors_blank (h part List.mem_cons_self)).trans (congrArg (part :: ·) ?_)
    exact factors_intercalate (List.cons_ne_nil _ _) fun p hp => h p (List.mem_cons_of_mem _ hp)

theorem unbroken_of_not_point : ∀ {cs : List Char}, (∀ c ∈ cs, Text.isBlank c = false ∧ c ≠ '*' ∧ c ≠ '.') →
    ∀ previous, Unbroken previous cs
  | [], _, _ => trivial
  | c :: cs, h, previous => by
    obtain ⟨hblank, hstar, hpoint⟩ := h c List.mem_cons_self
    refine ⟨?_, unbroken_of_not_point (fun d hd => h d (List.mem_cons_of_mem _ hd)) c⟩
    simp [separates, hblank, hstar, hpoint]

theorem separates_of_isDigit {previous c : Char} (h : c.isDigit = true) (rest : List Char) :
    separates previous c rest = false := by
  cases hc : separates previous c rest with
  | false => rfl
  | true => rw [separates_digit hc] at h; cases h

theorem unbroken_digits : ∀ {cs : List Char}, (∀ c ∈ cs, c.isDigit = true) → ∀ previous, Unbroken previous cs
  | [], _, _ => trivial
  | c :: cs, h, _ =>
    ⟨separates_of_isDigit (h c List.mem_cons_self) cs, unbroken_digits (fun d hd => h d (List.mem_cons_of_mem _ hd)) c⟩

/-- A point between digits is a decimal point. -/
theorem unbroken_point (hdigit : rest.head?.any Char.isDigit = true) (hrest : Unbroken '.' rest) :
    ∀ {whole : List Char} {previous : Char}, (∀ c ∈ whole, c.isDigit = true) →
      whole ≠ [] ∨ previous.isDigit = true → Unbroken previous (whole ++ '.' :: rest)
  | [], previous, _, h => by
    have hprevious : previous.isDigit = true := h.resolve_left (absurd rfl)
    exact ⟨by simp [separates, isDecimalPoint, hprevious, hdigit, Text.isBlank], hrest⟩
  | c :: whole, previous, hwhole, _ => by
    have hc := hwhole c List.mem_cons_self
    exact ⟨separates_of_isDigit hc _,
      unbroken_point hdigit hrest (fun d hd => hwhole d (List.mem_cons_of_mem _ hd)) (.inr hc)⟩

theorem unbroken_places (h : Decimal.Places cs) (previous : Char) : Unbroken previous cs := by
  cases h with
  | whole hwhole => exact unbroken_digits hwhole previous
  | point hwhole hne hfraction hne' =>
    obtain ⟨c, cs, rfl⟩ := List.exists_cons_of_ne_nil hne'
    have hdigit : (c :: cs).head?.any Char.isDigit = true := hfraction c List.mem_cons_self
    exact unbroken_point hdigit (unbroken_digits hfraction '.') hwhole (.inl hne)

/-! ### Terms -/

theorem Pointed.not_mem : ∀ {cs : List Char} {previous : Char}, Pointed previous cs → previous.isDigit = false →
    (∀ c ∈ cs, c.isDigit = false) → '.' ∉ cs
  | [], _, _, _, _ => List.not_mem_nil
  | c :: cs, previous, h, hprevious, hcs => by
    obtain ⟨hc, h⟩ := pointed_cons.mp h
    rw [List.mem_cons, not_or]
    refine ⟨fun heq => ?_, h.not_mem (hcs c List.mem_cons_self) fun d hd => hcs d (List.mem_cons_of_mem _ hd)⟩
    rw [hc heq.symm] at hprevious
    cases hprevious

theorem Proper.not_mem_point (h : Proper cs) (hplain : Plain cs) : '.' ∉ cs := by
  refine h.pointed.not_mem rfl fun c hc => ?_
  obtain ⟨d, ds, rfl⟩ := List.exists_cons_of_ne_nil h.nonempty
  rcases List.mem_cons.mp hc with rfl | hc
  · exact h.first c rfl
  · have hstart := hplain c hc
    rw [startsExponent, Bool.or_eq_false_iff, Bool.or_eq_false_iff] at hstart
    exact hstart.1.1

/-- The text of a term has no character that stands between factors or before an exponent. -/
theorem termText_chars (h : Proper symbol.toList) {c : Char} (hc : c ∈ (termText symbol e).toList) :
    Text.isBlank c = false ∧ c ≠ '*' ∧ c ≠ '/' ∧ c ≠ '^' := by
  unfold termText at hc
  split at hc
  · exact h.chars c hc
  · rw [String.toList_append, List.mem_append] at hc
    rcases hc with hc | hc
    · exact h.chars c hc
    · rcases Decimal.chars_toString hc with hdigit | rfl
      · refine ⟨isBlank_of_isDigit hdigit, ?_, ?_, ?_⟩ <;> rintro rfl <;> cases hdigit
      · decide

theorem termText_not_point (h : Proper symbol.toList) (hplain : Plain symbol.toList) :
    '.' ∉ (termText symbol e).toList := by
  intro hc
  unfold termText at hc
  split at hc
  · exact h.not_mem_point hplain hc
  · rw [String.toList_append, List.mem_append] at hc
    rcases hc with hc | hc
    · exact h.not_mem_point hplain hc
    · rcases Decimal.chars_toString hc with hdigit | heq
      · cases hdigit
      · cases heq

theorem splitSymbol_plain {base e : List Char} (hne : base ≠ []) (hplain : Plain base) (hbase : '^' ∉ base)
    (hcaret : '^' ∉ e) (hstart : ∀ c ∈ e.head?, startsExponent c = true) :
    splitSymbol (base ++ e) = (base, if e.isEmpty then ['1'] else e) := by
  obtain ⟨c, rest, rfl⟩ := List.exists_cons_of_ne_nil hne
  have hnone : Text.splitFirst '^' (c :: rest ++ e) = none :=
    Text.splitFirst_of_not_mem (List.not_mem_append hbase hcaret)
  have hrest : ∀ d ∈ rest, (!startsExponent d) = true := fun d hd => by simp [hplain d hd]
  unfold splitSymbol
  rw [hnone]
  dsimp only [List.cons_append]
  rw [List.takeWhile_append_of_pos hrest, List.dropWhile_append_of_pos hrest]
  cases e with
  | nil => simp
  | cons d ds =>
    have hd := hstart d rfl
    simp [hd]

/-- The exponent has 32 bits. -/
def Fits (e : Int) : Prop := -2 ^ 31 ≤ e ∧ e < 2 ^ 31

instance (e : Int) : Decidable (Fits e) := inferInstanceAs (Decidable (_ ∧ _))

theorem readExponent_of_readInt (h : Decimal.readInt cs = some e) : readExponent cs = if Fits e then some e else none := by
  rw [readExponent, h, Option.filter_some]
  refine if_congr ?_ rfl rfl
  rw [Bool.and_eq_true, decide_eq_true_iff, decide_eq_true_iff]
  rfl

theorem readExponent_toString : readExponent (toString e).toList = if Fits e then some e else none :=
  readExponent_of_readInt (Decimal.readInt_toString e)

/-- The text of a term is read as the term, if its exponent has 32 bits. -/
theorem readSymbol_termText (h : Proper symbol.toList) (hplain : Plain symbol.toList) :
    readSymbol (termText symbol e).toList =
      if Fits e then .ok (symbol, e) else .error (.badExponent (termText symbol e)) := by
  have hcaret : '^' ∉ symbol.toList := fun hc => (h.chars _ hc).2.2.2 rfl
  have hfirst : (symbol.toList.head?.any Char.isDigit) = false := by
    cases hhead : symbol.toList.head? with
    | none => rfl
    | some c => exact h.first c hhead
  have hempty : symbol.toList.isEmpty = false := by simpa using h.nonempty
  obtain ⟨e', hsplit, hread⟩ : ∃ e', splitSymbol (termText symbol e).toList = (symbol.toList, e') ∧
      readExponent e' = if Fits e then some e else none := by
    unfold termText
    split
    · rename_i hone
      have hsplit := splitSymbol_plain h.nonempty hplain hcaret List.not_mem_nil (fun c hc => by cases hc)
      rw [List.append_nil] at hsplit
      exact ⟨['1'], hsplit, by rw [hone]; decide +kernel⟩
    · have hstart : ∀ c ∈ (toString e).toList, startsExponent c = true := by
        intro c hc
        rcases Decimal.chars_toString hc with hdigit | rfl
        · simp [startsExponent, hdigit]
        · rfl
      have hnot : '^' ∉ (toString e).toList := fun hc => absurd (hstart _ hc) (by decide)
      have hsplit := splitSymbol_plain h.nonempty hplain hcaret hnot fun c hc => hstart c (List.mem_of_mem_head? hc)
      rw [if_neg (by simpa using Decimal.toString_ne_nil e)] at hsplit
      exact ⟨_, String.toList_append ▸ hsplit, readExponent_toString⟩
  unfold readSymbol
  rw [hsplit]
  dsimp only
  rw [hempty, hfirst, hread, Bool.or_false, if_neg Bool.false_ne_true]
  split
  · rename_i hfits
    split at hfits
    · cases hfits
      rw [String.ofList_toList, if_pos ‹_›]
    · cases hfits
  · rename_i hfits
    split at hfits
    · cases hfits
    · rw [if_neg ‹_›, String.ofList_toList]

theorem termText_head (h : Proper symbol.toList) (hplain : Plain symbol.toList) :
    ∃ c cs, (termText symbol e).toList = c :: cs ∧ c.isDigit = false ∧ c ≠ '.' := by
  obtain ⟨c, cs, hcs⟩ := List.exists_cons_of_ne_nil h.nonempty
  have hc : c.isDigit = false := h.first c (by rw [hcs]; rfl)
  have hpoint : c ≠ '.' := fun heq => h.not_mem_point hplain (by rw [hcs, heq]; exact List.mem_cons_self)
  unfold termText
  split
  · exact ⟨c, cs, hcs, hc, hpoint⟩
  · exact ⟨c, cs ++ (toString e).toList, by rw [String.toList_append, hcs]; rfl, hc, hpoint⟩

theorem applyFactor_termText (h : Proper symbol.toList) (hplain : Plain symbol.toList) :
    applyFactor 1 u (termText symbol e).toList =
      if Fits e then .ok ⟨raise u.terms symbol e, u.scale⟩ else .error (.badExponent (termText symbol e)) := by
  obtain ⟨c, cs, hcs, hdigit, hpoint⟩ := termText_head (e := e) h hplain
  have hread := readSymbol_termText (e := e) h hplain
  have hskip : ¬(c :: cs = [] ∨ c :: cs = ['1']) := by
    rintro (h | h)
    · cases h
    · cases h
      cases hdigit
  rw [hcs] at hread ⊢
  have hnumeric : isNumeric (c :: cs) = false := by simp [isNumeric, hdigit, hpoint]
  rw [applyFactor, if_neg hskip, if_neg (by rw [hnumeric]; exact Bool.false_ne_true), hread]
  split
  · simp [Except.map]
  · rfl

theorem applyFactor_plain {x : Double} (hfinite : x.isFinite = true) (hsign : x.isNegative = false) (hzero : x ≠ 0)
    (hone : x ≠ 1) : applyFactor 1 u (Decimal.plain x).toList = .ok ⟨u.terms, u.scale * x⟩ := by
  obtain ⟨hne, hplaces, hread⟩ := Decimal.literal_plain hfinite hsign
  have hskip : ¬((Decimal.plain x).toList = [] ∨ (Decimal.plain x).toList = ['1']) := by
    rintro (h | h)
    · exact hne h
    · rw [h] at hread
      exact hone (Option.some.inj (hread.symm.trans (by decide +kernel)))
  have hnumeric : isNumeric (Decimal.plain x).toList = true := by
    obtain ⟨c, cs, hcs⟩ := List.exists_cons_of_ne_nil hne
    have hc := hplaces c (hcs ▸ List.mem_cons_self)
    rw [hcs]
    simpa [isNumeric] using hc
  have hscale : readScale (Decimal.plain x).toList = .ok x := by
    simp [readScale, hread, hzero, hfinite]
  have hpower : Scalar.power x 1 = x := by
    change Scalar.one * x = x
    exact Double.one_mul x
  rw [applyFactor, if_neg hskip, if_pos hnumeric, hscale]
  simp [Except.map, hpower]

/-! ### Texts -/

theorem mem_blank_intercalate {c : Char} : ∀ {parts : List (List Char)}, c ∈ [' '].intercalate parts →
    c = ' ' ∨ ∃ part ∈ parts, c ∈ part
  | [], h => by cases h
  | [part], h => by
    rw [List.intercalate_singleton] at h
    exact .inr ⟨part, List.mem_cons_self, h⟩
  | part :: next :: parts, h => by
    rw [List.intercalate_cons_cons, List.append_assoc, List.mem_append, List.mem_append, List.mem_singleton] at h
    rcases h with h | h | h
    · exact .inr ⟨part, List.mem_cons_self, h⟩
    · exact .inl h
    · exact (mem_blank_intercalate h).imp_right fun ⟨p, hp, hc⟩ => ⟨p, List.mem_cons_of_mem _ hp, hc⟩

/-- The parts of the text of a unit. -/
def textParts (u : Measure Double) : List String :=
  (if u.scale = 1 then [] else [Decimal.plain u.scale]) ++ u.terms.entries.map fun p => termText p.1 p.2

theorem text_eq (u : Measure Double) :
    text u = if (textParts u).isEmpty then "1" else " ".intercalate (textParts u) := rfl

section
variable (h : Sound u)
include h

theorem Sound.entry {p : String × Int} (hp : p ∈ u.terms.entries) :
    exponentOf u.terms p.1 = p.2 ∧ Proper p.1.toList := by
  obtain ⟨he, hne⟩ := h.normal.get?_iff.mp (NameMap.mem_entries.mp hp)
  exact ⟨he, h.proper p.1 (he ▸ hne)⟩

theorem Sound.isNegative (hfinite : u.scale.isFinite = true) : u.scale.isNegative = false := by
  refine h.unsigned.resolve_left fun hnan => ?_
  have hlt : u.scale.magnitudeBits < Double.infinityBits := of_decide_eq_true hfinite
  have hlt' : Double.infinityBits < u.scale.magnitudeBits := of_decide_eq_true hnan
  omega

/-- Texts of units have no caret, no star and no slash. -/
theorem Sound.text_chars (hfinite : u.scale.isFinite = true) {c : Char} (hc : c ∈ (text u).toList) :
    c ≠ '*' ∧ c ≠ '/' ∧ c ≠ '^' := by
  rw [text_eq] at hc
  split at hc
  · rcases List.mem_singleton.mp hc with rfl
    decide
  · rw [String.toList_intercalate] at hc
    rcases mem_blank_intercalate hc with rfl | ⟨part, hpart, hc⟩
    · decide
    · obtain ⟨part, hmem, rfl⟩ := List.mem_map.mp hpart
      unfold textParts at hmem
      rcases List.mem_append.mp hmem with hmem | hmem
      · split at hmem
        · cases hmem
        · rcases List.mem_singleton.mp hmem with rfl
          rcases (Decimal.literal_plain hfinite (h.isNegative hfinite)).places c hc with hdigit | rfl
          · refine ⟨?_, ?_, ?_⟩ <;> rintro rfl <;> cases hdigit
          · decide
      · obtain ⟨p, hp, rfl⟩ := List.mem_map.mp hmem
        exact (termText_chars (h.entry hp).2 hc).2

end

/-- Printed terms are read one after the other, if all exponents have 32 bits. -/
theorem foldlM_termText : ∀ {l : List (String × Int)} {u : Measure Double},
    (∀ p ∈ l, Proper p.1.toList ∧ Plain p.1.toList) → (∀ p ∈ l, Fits p.2) →
    (l.map fun p => (termText p.1 p.2).toList).foldlM (applyFactor 1) u =
      .ok ⟨l.foldl (fun t p => raise t p.1 p.2) u.terms, u.scale⟩
  | [], _, _, _ => rfl
  | p :: l, u, h, hfits => by
    obtain ⟨hproper, hplain⟩ := h p List.mem_cons_self
    rw [List.map_cons, List.foldlM_cons, applyFactor_termText hproper hplain, if_pos (hfits p List.mem_cons_self)]
    exact foldlM_termText (fun q hq => h q (List.mem_cons_of_mem _ hq)) fun q hq => hfits q (List.mem_cons_of_mem _ hq)

theorem fits_of_foldlM_termText : ∀ {l : List (String × Int)} {u v : Measure Double},
    (∀ p ∈ l, Proper p.1.toList ∧ Plain p.1.toList) →
    (l.map fun p => (termText p.1 p.2).toList).foldlM (applyFactor 1) u = .ok v → ∀ p ∈ l, Fits p.2
  | [], _, _, _, _, _, hp => absurd hp List.not_mem_nil
  | q :: l, u, v, h, hfold, p, hp => by
    obtain ⟨hproper, hplain⟩ := h q List.mem_cons_self
    rw [List.map_cons, foldlM_cons_eq_ok] at hfold
    obtain ⟨w, hw, hfold⟩ := hfold
    rw [applyFactor_termText hproper hplain] at hw
    split at hw
    · rename_i hfits
      rcases List.mem_cons.mp hp with rfl | hp
      · exact hfits
      · exact fits_of_foldlM_termText (fun r hr => h r (List.mem_cons_of_mem _ hr)) hfold p hp
    · cases hw

theorem one_eq_scale : (1 : Double) = Scalar.one := by decide +kernel

theorem foldlM_textParts (h : Sound u) (hfinite : u.scale.isFinite = true) (hzero : u.scale ≠ 0) :
    ((textParts u).map String.toList).foldlM (applyFactor 1) unity =
      (u.terms.entries.map fun p => (termText p.1 p.2).toList).foldlM (applyFactor 1) ⟨.empty, u.scale⟩ := by
  unfold textParts
  rw [List.map_append, List.map_map, List.foldlM_append]
  by_cases hone : u.scale = 1
  · rw [if_pos hone, hone, one_eq_scale]
    rfl
  · rw [if_neg hone, List.map_singleton, List.foldlM_cons, applyFactor_plain hfinite (h.isNegative hfinite) hzero hone,
      show (unity : Measure Double).scale = Scalar.one from rfl, Double.one_mul]
    rfl

section
variable (h : Sound u) (hplain : Symbols (fun symbol => Plain symbol.toList) u.terms)
  (hfinite : u.scale.isFinite = true)
include h hplain

theorem Sound.plain_entry {p : String × Int} (hp : p ∈ u.terms.entries) : Proper p.1.toList ∧ Plain p.1.toList := by
  obtain ⟨he, hproper⟩ := h.entry hp
  exact ⟨hproper, hplain p.1 (he ▸ (h.normal.get?_iff.mp (NameMap.mem_entries.mp hp)).2)⟩

include hfinite

theorem unbroken_textParts {part : String} (hpart : part ∈ textParts u) :
    Unbroken ' ' part.toList ∧ ∃ c cs, part.toList = c :: cs ∧ Text.isBlank c = false := by
  have hsign := h.isNegative hfinite
  unfold textParts at hpart
  rcases List.mem_append.mp hpart with hpart | hpart
  · split at hpart
    · cases hpart
    · rcases List.mem_singleton.mp hpart with rfl
      obtain ⟨hne, hplaces, -⟩ := Decimal.literal_plain hfinite hsign
      obtain ⟨c, cs, hcs⟩ := List.exists_cons_of_ne_nil hne
      refine ⟨unbroken_places (Decimal.places_plain hfinite hsign) ' ', c, cs, hcs, ?_⟩
      rcases hplaces c (hcs ▸ List.mem_cons_self) with hdigit | rfl
      · exact isBlank_of_isDigit hdigit
      · decide
  · obtain ⟨p, hp, rfl⟩ := List.mem_map.mp hpart
    obtain ⟨hproper, hp'⟩ := h.plain_entry hplain hp
    obtain ⟨c, cs, hcs, -, -⟩ := termText_head (e := p.2) hproper hp'
    refine ⟨unbroken_of_not_point (fun c hc => ?_) ' ', c, cs, hcs, ?_⟩
    · obtain ⟨hblank, hstar, -⟩ := termText_chars hproper hc
      exact ⟨hblank, hstar, fun heq => termText_not_point hproper hp' (heq ▸ hc)⟩
    · exact (termText_chars (e := p.2) hproper (hcs ▸ List.mem_cons_self)).1

/-- Reading the text of a unit is reading its parts, one after the other. -/
theorem read_text_eq : read (text u) = (((textParts u).map String.toList).foldlM (applyFactor 1) unity).map
    fun w => ⟨normalize w.terms, w.scale⟩ := by
  rw [text_eq]
  split
  · rename_i hempty
    rw [List.isEmpty_iff.mp hempty]
    decide +kernel
  · rename_i hne
    have hparts : (textParts u).map String.toList ≠ [] := by simpa using hne
    have htext : (" ".intercalate (textParts u)).toList = [' '].intercalate ((textParts u).map String.toList) :=
      String.toList_intercalate
    have hchars : ∀ c ∈ (" ".intercalate (textParts u)).toList, c ≠ '*' ∧ c ≠ '/' := by
      intro c hc
      have hmem : c ∈ (text u).toList := by rwa [text_eq, if_neg hne]
      exact ⟨(h.text_chars hfinite hmem).1, (h.text_chars hfinite hmem).2.1⟩
    have htrim : (Text.trim (" ".intercalate (textParts u)).toList).isEmpty = false := by
      obtain ⟨part, parts, hcons⟩ := List.exists_cons_of_ne_nil fun hnil => hne (List.isEmpty_iff.mpr hnil)
      obtain ⟨-, c, cs, hcs, hblank⟩ := unbroken_textParts h hplain hfinite (hcons ▸ List.mem_cons_self)
      rw [htext, hcons, List.map_cons, hcs, List.intercalate_cons_cons_left]
      exact Text.trim_of_mem List.mem_cons_self hblank
    have hfactors : factors ' ' (caretForStars (" ".intercalate (textParts u)).toList) =
        (textParts u).map String.toList := by
      rw [caretForStars_of_not_mem fun hc => (hchars _ hc).1 rfl, htext]
      refine factors_intercalate hparts fun part hpart => ?_
      obtain ⟨p, hp, rfl⟩ := List.mem_map.mp hpart
      exact (unbroken_textParts h hplain hfinite hp).1
    have hsplit : Text.split (· == '/') (" ".intercalate (textParts u)).toList =
        [(" ".intercalate (textParts u)).toList] :=
      Text.split_of_none fun c hc => by simpa using (hchars c hc).2
    rw [read, htrim, if_neg Bool.false_ne_true, hsplit, applyParts, applyProduct, hfactors]

variable (hzero : u.scale ≠ 0)
include hzero

/-- A unit with plain symbols is read as it was printed. -/
theorem read_text (hfits : ∀ symbol, Fits (exponentOf u.terms symbol)) : read (text u) = .ok u := by
  -- The printed terms are those of the map, so raising them one by one puts it together again.
  have hnormal : normalize (u.terms.entries.foldl (fun t p => raise t p.1 p.2) .empty) = u.terms := h.normal.foldl_raise
  have hfold := foldlM_termText (u := ⟨.empty, u.scale⟩) (fun p hp => h.plain_entry hplain hp)
    fun p hp => (h.entry hp).1 ▸ hfits p.1
  rw [read_text_eq h hplain hfinite, foldlM_textParts h hfinite hzero, hfold]
  exact congrArg Except.ok (Measure.ext hnormal rfl)

/-- The text of such a unit is read as nothing else. -/
theorem eq_of_read_text (hread : read (text u) = .ok v) : v = u := by
  -- An exponent of more than 32 bits would have been refused.
  have hfits : ∀ symbol, Fits (exponentOf u.terms symbol) := by
    rw [read_text_eq h hplain hfinite, foldlM_textParts h hfinite hzero] at hread
    obtain ⟨w, hw, -⟩ := map_eq_ok.mp hread
    have hentries := fits_of_foldlM_termText (fun p hp => h.plain_entry hplain hp) hw
    intro symbol
    cases hget : u.terms.get? symbol with
    | none =>
      rw [exponentOf, hget]
      decide
    | some e =>
      rw [exponentOf_of_get? hget]
      exact hentries (symbol, e) (NameMap.mem_entries.mpr hget)
  exact Except.ok.inj (hread.symm.trans (read_text h hplain hfinite hzero hfits))

end

/-- A unit is read as it was printed if, and only if, nothing behind the first character of a symbol can start an
    exponent. -/
theorem read_text_iff (h : Sound u) (hfits : ∀ symbol, Fits (exponentOf u.terms symbol))
    (hfinite : u.scale.isFinite = true) (hzero : u.scale ≠ 0) :
    read (text u) = .ok u ↔ Symbols (fun symbol => Plain symbol.toList) u.terms := by
  constructor
  · intro hread
    -- The text has no caret, and without one a symbol that is read ends before its exponent starts.
    have hchars := fun c hc => h.text_chars hfinite (c := c) hc
    exact (sound_read hread).2 (fun hc => (hchars _ hc).2.2 rfl) fun hc => (hchars _ hc).1 rfl
  · intro hplain
    exact read_text h hplain hfinite hzero hfits

end Measure
end Concord
