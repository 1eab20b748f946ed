import Mathlib.Data.List.Chain
import Mathlib.Data.List.Sort
import Mathlib.Data.List.TakeWhile
import Concord.Measure.Convert
import Concord.Proofs.NameMap
import Concord.Proofs.Outcome
import Concord.Proofs.Text.Parts

/-! The exponents of units. A product adds them and a power multiplies them, symbol by symbol; maps without zeros
    are told apart by the exponents of their symbols. -/

namespace Concord

namespace Measure

variable {t u other : NameMap Int} {symbol key : String} {k e : Int}

/-- No exponent is zero. -/
def Normal (t : NameMap Int) : Prop := ∀ key, t.get? key ≠ some 0

/-- All symbols have a property. -/
def Symbols (P : String → Prop) (t : NameMap Int) : Prop := ∀ key, exponentOf t key ≠ 0 → P key

theorem exponentOf_of_get? (h : t.get? key = some e) : exponentOf t key = e := by rw [exponentOf, h]; rfl

theorem Normal.get?_iff (h : Normal t) : t.get? key = some e ↔ exponentOf t key = e ∧ e ≠ 0 := by
  constructor
  · intro hget
    exact ⟨exponentOf_of_get? hget, fun he => h key (he ▸ hget)⟩
  · rintro ⟨he, hne⟩
    cases hget : t.get? key with
    | none =>
      rw [exponentOf, hget] at he
      exact absurd he.symm hne
    | some v => rw [← he, exponentOf_of_get? hget]

theorem Normal.ext (ht : Normal t) (hu : Normal u) (h : ∀ key, exponentOf t key = exponentOf u key) : t = u :=
  NameMap.ext_get? fun key => Option.ext fun e => by rw [ht.get?_iff, hu.get?_iff, h]

/-! ### Operations on exponents -/

theorem normal_empty : Normal .empty := fun _ h => by cases h

theorem normal_normalize (t : NameMap Int) : Normal (normalize t) := by
  intro key h
  rw [normalize, NameMap.get?_filter, Option.filter_eq_some_iff] at h
  simp at h

theorem exponentOf_normalize : exponentOf (normalize t) key = exponentOf t key := by
  rw [exponentOf, exponentOf, normalize, NameMap.get?_filter]
  cases t.get? key with
  | none => rfl
  | some e => by_cases he : e = 0 <;> simp [Option.filter, he]

theorem exponentOf_raise : exponentOf (raise t symbol e) key = exponentOf t key + if key = symbol then e else 0 := by
  rw [exponentOf, exponentOf, raise, NameMap.get?_alter]
  split
  · rename_i heq
    subst heq
    rfl
  · exact (Int.add_zero _).symm

/-- Raising by the entries of a map adds its exponents. -/
theorem exponentOf_foldl_raise : ∀ {l : List (String × Int)} {t : NameMap Int}, (l.Pairwise fun a b => a.1 < b.1) →
    exponentOf (l.foldl (fun t p => raise t p.1 (k * p.2)) t) key = exponentOf t key + k * (NameMap.find key l).getD 0
  | [], _, _ => by simp [NameMap.find]
  | (symbol, e) :: l, t, h => by
    rw [List.pairwise_cons] at h
    rw [List.foldl_cons, exponentOf_foldl_raise h.2, exponentOf_raise, NameMap.find]
    by_cases heq : symbol = key
    · subst heq
      have hnone : NameMap.find symbol l = none := by
        cases hv : NameMap.find symbol l with
        | none => rfl
        | some v => exact absurd (h.1 _ ((NameMap.mem_iff_find (p := (symbol, v)) h.2).mpr hv)) (String.lt_irrefl _)
      simp [hnone]
    · simp [heq, Ne.symm heq]

theorem exponentOf_combine : exponentOf (combine k t other) key = exponentOf t key + k * exponentOf other key := by
  rw [combine, exponentOf_normalize]
  exact exponentOf_foldl_raise other.sorted

theorem normal_combine : Normal (combine k t other) := normal_normalize _

theorem exponentOf_multiplied : exponentOf (multiplied k t) key = exponentOf t key * k := by
  rw [multiplied, exponentOf_normalize, exponentOf, exponentOf, NameMap.get?_map]
  cases t.get? key with
  | none => exact (Int.zero_mul k).symm
  | some e => rfl

theorem normal_multiplied : Normal (multiplied k t) := normal_normalize _

/-- A map without zeros is put together from its entries. -/
theorem Normal.foldl_raise (h : Normal t) : normalize (t.entries.foldl (fun u p => raise u p.1 p.2) .empty) = t := by
  refine (normal_normalize _).ext h fun key => ?_
  have hfold : exponentOf (t.entries.foldl (fun u p => raise u p.1 (1 * p.2)) .empty) key = _ :=
    exponentOf_foldl_raise t.sorted
  simp only [Int.one_mul] at hfold
  rw [exponentOf_normalize, hfold]
  exact Int.zero_add _

theorem divided_eq_some (h : divided? k t = some u) :
    k ≠ 0 ∧ (∀ key, exponentOf u key * k = exponentOf t key) ∧ (Normal t → Normal u) := by
  rw [divided?] at h
  split at h
  · cases h
  · rename_i hcond
    cases h
    rw [not_or] at hcond
    have hwhole : ∀ key e, t.get? key = some e → e.tdiv k * k = e := by
      intro key e he
      have hmod : e.tmod k = 0 := by
        by_contra hne
        refine hcond.2 (List.any_eq_true.mpr ⟨e, ?_, by simpa using hne⟩)
        exact List.mem_map_of_mem (NameMap.mem_entries (p := (key, e)) |>.mpr he)
      rw [Int.mul_comm]
      exact Int.mul_tdiv_cancel' (Int.dvd_of_tmod_eq_zero hmod)
    refine ⟨hcond.1, fun key => ?_, fun ht key hzero => ?_⟩
    · rw [exponentOf, exponentOf, NameMap.get?_map]
      cases hget : t.get? key with
      | none => exact Int.zero_mul k
      | some e => exact hwhole key e hget
    · rw [NameMap.get?_map, Option.map_eq_some_iff] at hzero
      obtain ⟨e, he, hdiv⟩ := hzero
      refine ht key (he.trans (congrArg some ?_))
      rw [← hwhole key e he, hdiv, Int.zero_mul]

/-! ### Symbols -/

section
variable {P : String → Prop}

theorem Symbols.combine (ht : Symbols P t) (hu : Symbols P other) : Symbols P (combine k t other) := by
  intro key h
  rw [exponentOf_combine] at h
  by_cases hkey : exponentOf t key = 0
  · refine hu key fun hother => h ?_
    rw [hkey, hother]
    simp
  · exact ht key hkey

theorem Symbols.multiplied (ht : Symbols P t) : Symbols P (multiplied k t) := by
  intro key h
  rw [exponentOf_multiplied] at h
  exact ht key fun hkey => h (by rw [hkey, Int.zero_mul])

theorem Symbols.divided (ht : Symbols P t) (h : divided? k t = some u) : Symbols P u := by
  obtain ⟨hk, hexponent, -⟩ := divided_eq_some h
  intro key hkey
  exact ht key (hexponent key ▸ Int.mul_ne_zero hkey hk)

theorem Symbols.raise (ht : Symbols P t) (h : P symbol) : Symbols P (raise t symbol e) := by
  intro key hkey
  rw [exponentOf_raise] at hkey
  by_cases heq : key = symbol
  · exact heq ▸ h
  · exact ht key (by simpa [heq] using hkey)

theorem Symbols.normalize (ht : Symbols P t) : Symbols P (normalize t) := by
  intro key h
  rw [exponentOf_normalize] at h
  exact ht key h

end
end Measure
end Concord

/-! How the text of a unit is cut into factors, and what the symbols are that can be read: they hold no
    separator, no slash and no caret, and start with no digit. Only a caret lets a symbol have digits or signs
    behind its first character. -/

namespace Concord

namespace Measure

/-! ### Factors -/

theorem mem_caretForStars {cs : List Char} {c : Char} (h : c ∈ caretForStars cs) : c = '^' ∨ c ∈ cs := by
  induction cs using caretForStars.induct with
  | case1 rest ih =>
    rw [caretForStars] at h
    rcases List.mem_cons.mp h with h | h
    · exact .inl h
    · exact (ih h).imp_right fun h => List.mem_cons_of_mem _ (List.mem_cons_of_mem _ h)
  | case2 d rest hne ih =>
    rw [caretForStars.eq_2 _ _ hne] at h
    rcases List.mem_cons.mp h with rfl | h
    · exact .inr List.mem_cons_self
    · exact (ih h).imp_right (List.mem_cons_of_mem _)
  | case3 => cases h

theorem caretForStars_of_not_mem {cs : List Char} (h : '*' ∉ cs) : caretForStars cs = cs := by
  induction cs using caretForStars.induct with
  | case1 rest ih => exact absurd List.mem_cons_self h
  | case2 d rest hne ih =>
    rw [caretForStars.eq_2 _ _ hne, ih fun hmem => h (List.mem_cons_of_mem _ hmem)]
  | case3 => rfl

theorem isBlank_of_isDigit {c : Char} (h : c.isDigit = true) : Text.isBlank c = false := by
  obtain ⟨hlow, hhigh⟩ : 48 ≤ c.toNat ∧ c.toNat ≤ 57 := by simpa [Char.isDigit, UInt32.le_iff_toNat_le] using h
  unfold Text.isBlank
  rw [if_pos (by omega)]
  simp
  omega

theorem separates_digit {previous c : Char} {rest : List Char} (h : separates previous c rest = true) :
    c.isDigit = false := by
  rw [separates, Bool.or_eq_true, Bool.or_eq_true, Bool.and_eq_true, beq_iff_eq, beq_iff_eq] at h
  rcases h with (h | rfl) | ⟨rfl, -⟩
  · by_contra hdigit
    rw [isBlank_of_isDigit (by simpa using hdigit)] at h
    cases h
  · rfl
  · rfl

theorem separates_eq_false {previous c : Char} {rest : List Char} (h : separates previous c rest = false) :
    Text.isBlank c = false ∧ c ≠ '*' ∧ (c = '.' → previous.isDigit = true) := by
  rw [separates, Bool.or_eq_false_iff, Bool.or_eq_false_iff] at h
  obtain ⟨⟨hblank, hstar⟩, hpoint⟩ := h
  refine ⟨hblank, by simpa using hstar, ?_⟩
  rintro rfl
  simp [isDecimalPoint] at hpoint
  exact hpoint.1

/-- Factors have no separators, but for points. -/
theorem mem_factors : ∀ {cs factor : List Char} {previous : Char}, factor ∈ factors previous cs →
    ∀ c ∈ factor, c ∈ cs ∧ Text.isBlank c = false ∧ c ≠ '*'
  | [], factor, _, h, c, hc => by
    rw [factors, List.mem_singleton] at h
    subst h
    cases hc
  | d :: cs, factor, previous, h, c, hc => by
    have hrest : ∀ factor ∈ factors d cs, c ∈ factor → c ∈ d :: cs ∧ Text.isBlank c = false ∧ c ≠ '*' :=
      fun factor h hc => (mem_factors h c hc).imp_left (List.mem_cons_of_mem _)
    rw [factors] at h
    split at h
    · rcases List.mem_cons.mp h with rfl | h
      · cases hc
      · exact hrest factor h hc
    · rename_i hd
      rcases Text.mem_pushFront h with hfactor | ⟨rest, hfactors, rfl⟩
      · exact hrest factor hfactor hc
      · rcases List.mem_cons.mp hc with rfl | hc
        · obtain ⟨hblank, hstar, -⟩ := separates_eq_false (Bool.eq_false_iff.mpr hd)
          exact ⟨List.mem_cons_self, hblank, hstar⟩
        · rcases hfactors with rfl | hfactors
          · cases hc
          · exact hrest rest hfactors hc

/-- What stands behind a character has points behind digits only. -/
def Pointed (previous : Char) (cs : List Char) : Prop :=
  (previous :: cs).IsChain fun a b => b = '.' → a.isDigit = true

theorem pointed_nil (previous : Char) : Pointed previous [] := List.IsChain.singleton _

theorem pointed_cons {previous c : Char} {cs : List Char} :
    Pointed previous (c :: cs) ↔ (c = '.' → previous.isDigit = true) ∧ Pointed c cs := List.isChain_cons_cons

/-- What precedes matters only if it is a digit. -/
theorem Pointed.of_not_digit {previous : Char} {cs : List Char} (h : Pointed previous cs)
    (hprevious : previous.isDigit = false) (c : Char) : Pointed c cs := by
  cases cs with
  | nil => exact pointed_nil c
  | cons d cs =>
    obtain ⟨hd, h⟩ := pointed_cons.mp h
    exact pointed_cons.mpr ⟨fun heq => absurd (hd heq) (by simp [hprevious]), h⟩

/-- In a factor a point stands behind a digit only. -/
theorem factors_pointed : ∀ (cs : List Char) (previous : Char), ∃ first rest, factors previous cs = first :: rest ∧
    Pointed previous first ∧ ∀ factor ∈ rest, Pointed ' ' factor
  | [], previous => ⟨[], [], rfl, pointed_nil previous, fun _ h => absurd h List.not_mem_nil⟩
  | c :: cs, previous => by
    obtain ⟨first, rest, heq, hfirst, hrest⟩ := factors_pointed cs c
    rw [factors, heq]
    split
    · rename_i hc
      refine ⟨[], first :: rest, rfl, pointed_nil previous, fun factor h => ?_⟩
      rcases List.mem_cons.mp h with rfl | h
      · exact hfirst.of_not_digit (separates_digit hc) ' '
      · exact hrest factor h
    · rename_i hc
      obtain ⟨-, -, hpoint⟩ := separates_eq_false (Bool.eq_false_iff.mpr hc)
      exact ⟨c :: first, rest, rfl, pointed_cons.mpr ⟨hpoint, hfirst⟩, hrest⟩

/-- A factor of the text of a unit. -/
def IsFactor (s : String) (factor : List Char) : Prop :=
  ∃ part ∈ Text.split (· == '/') s.toList, factor ∈ factors ' ' (caretForStars part)

theorem IsFactor.pointed {s : String} {factor : List Char} (h : IsFactor s factor) : Pointed ' ' factor := by
  obtain ⟨part, -, hfactor⟩ := h
  obtain ⟨first, rest, heq, hfirst, hrest⟩ := factors_pointed (caretForStars part) ' '
  rw [heq] at hfactor
  exact (List.mem_cons.mp hfactor).elim (fun h => h ▸ hfirst) (hrest factor)

theorem IsFactor.chars {s : String} {factor : List Char} (h : IsFactor s factor) {c : Char} (hc : c ∈ factor) :
    Text.isBlank c = false ∧ c ≠ '*' ∧ c ≠ '/' := by
  obtain ⟨part, hpart, hfactor⟩ := h
  obtain ⟨hmem, hblank, hstar⟩ := mem_factors hfactor c hc
  refine ⟨hblank, hstar, ?_⟩
  rcases mem_caretForStars hmem with rfl | hmem
  · decide
  · simpa using (Text.mem_split hpart c hmem).2

theorem IsFactor.not_mem_caret {s : String} {factor : List Char} (h : IsFactor s factor) (hcaret : '^' ∉ s.toList)
    (hstar : '*' ∉ s.toList) : '^' ∉ factor := by
  obtain ⟨part, hpart, hfactor⟩ := h
  have hmem : ∀ c ∈ part, c ∈ s.toList := fun c hc => (Text.mem_split hpart c hc).1
  rw [caretForStars_of_not_mem fun hc => hstar (hmem _ hc)] at hfactor
  exact fun hc => hcaret (hmem _ (mem_factors hfactor _ hc).1)

/-! ### Symbols -/

/-- The characters of a symbol that the text of a unit can have. -/
structure Proper (cs : List Char) : Prop where
  nonempty : cs ≠ []
  first : ∀ c ∈ cs.head?, c.isDigit = false
  chars : ∀ c ∈ cs, Text.isBlank c = false ∧ c ≠ '*' ∧ c ≠ '/' ∧ c ≠ '^'
  pointed : Pointed ' ' cs

/-- Nothing behind the first character can start an exponent. -/
def Plain (cs : List Char) : Prop := ∀ c ∈ cs.tail, startsExponent c = false

instance (cs : List Char) : Decidable (Plain cs) := List.decidableBAll _ cs.tail

/-- The symbol of a factor stands at its start and holds no caret. Without a caret in the factor, it ends where an
    exponent can start. -/
theorem splitSymbol_base (factor : List Char) :
    (splitSymbol factor).1 <+: factor ∧ '^' ∉ (splitSymbol factor).1 ∧
      ('^' ∉ factor → Plain (splitSymbol factor).1) := by
  unfold splitSymbol
  split
  · rename_i parts h
    obtain ⟨heq, hnot⟩ := Text.splitFirst_eq_some (show Text.splitFirst '^' factor = some (parts.1, parts.2) from h)
    exact ⟨heq ▸ List.prefix_append .., hnot, fun hcaret => absurd (heq ▸ by simp) hcaret⟩
  · rename_i h
    have hcaret := Text.splitFirst_eq_none h
    split
    · exact ⟨List.prefix_rfl, List.not_mem_nil, fun _ _ h => absurd h List.not_mem_nil⟩
    · rename_i c rest
      have hsub : c :: rest.takeWhile (fun c => !startsExponent c) <+: c :: rest :=
        List.cons_prefix_cons.mpr ⟨rfl, List.takeWhile_prefix _⟩
      refine ⟨hsub, fun hmem => hcaret (hsub.subset hmem), fun _ d hd => ?_⟩
      simpa using List.mem_takeWhile_imp hd

theorem readSymbol_eq_ok {factor : List Char} {symbol : String} {e : Int} (h : readSymbol factor = .ok (symbol, e)) :
    (splitSymbol factor).1 ≠ [] ∧ (∀ c ∈ (splitSymbol factor).1.head?, c.isDigit = false) ∧
      symbol = String.ofList (splitSymbol factor).1 ∧ readExponent (splitSymbol factor).2 = some e := by
  unfold readSymbol at h
  dsimp only at h
  split at h
  · cases h
  · rename_i hcond
    split at h
    · rename_i n hn
      cases h
      rw [Bool.or_eq_true, not_or] at hcond
      refine ⟨by simpa using hcond.1, fun c hc => ?_, rfl, hn⟩
      rw [Option.mem_def] at hc
      simpa [hc] using hcond.2
    · cases h

/-- A symbol that is read is proper, and plain if no caret stands behind it. -/
theorem IsFactor.symbol {s : String} {factor : List Char} (h : IsFactor s factor) {symbol : String} {e : Int}
    (hread : readSymbol factor = .ok (symbol, e)) :
    Proper symbol.toList ∧ ('^' ∉ s.toList → '*' ∉ s.toList → Plain symbol.toList) := by
  obtain ⟨hne, hfirst, rfl, -⟩ := readSymbol_eq_ok hread
  obtain ⟨hfront, hcaret, hplain⟩ := splitSymbol_base factor
  rw [String.toList_ofList]
  refine ⟨⟨hne, hfirst, fun c hc => ?_, ?_⟩, fun hs hstar => hplain (h.not_mem_caret hs hstar)⟩
  · obtain ⟨hblank, hstar, hslash⟩ := h.chars (hfront.subset hc)
    exact ⟨hblank, hstar, hslash, fun heq => hcaret (heq ▸ hc)⟩
  · exact List.IsChain.prefix h.pointed (List.cons_prefix_cons.mpr ⟨rfl, hfront⟩)

end Measure
end Concord
