import Mathlib.Algebra.BigOperators.Group.Finset.Basic
import Mathlib.Algebra.BigOperators.Ring.List
import Mathlib.Algebra.Field.Rat
import Mathlib.Tactic.FieldSimp
import Concord.Proofs.Measure.Printed

/-! Units in exact arithmetic. The table of symbols and the maps between units are the same definitions in rational
    numbers, where the factor of a unit to base units is the product of those of its symbols. -/

namespace Concord

/-- Rational numbers. -/
instance : Scalar ℚ where
  ofDecimal m e := m * (10 : ℚ) ^ e

namespace Scalar

theorem one_rat : (one : ℚ) = 1 := by
  change ((1 : Nat) : ℚ) * (10 : ℚ) ^ (0 : Int) = 1
  norm_num

theorem zero_rat : (zero : ℚ) = 0 := by
  change ((0 : Nat) : ℚ) * (10 : ℚ) ^ (0 : Int) = 0
  norm_num

theorem powerLoop_rat : ∀ {fuel n : Nat} (x r : ℚ), n < fuel → powerLoop fuel n x r = r * x ^ n
  | fuel + 1, n, x, r, h => by
    have hsplit : x ^ n = x ^ (n % 2) * (x * x) ^ (n / 2) := by
      rw [← pow_two, ← pow_mul, ← pow_add, Nat.mod_add_div]
    have hstep : (if n % 2 = 1 then r * x else r) = r * x ^ (n % 2) := by
      rcases Nat.mod_two_eq_zero_or_one n with h | h <;> simp [h]
    rw [powerLoop, hstep, hsplit]
    split
    · rename_i hzero
      rw [hzero, pow_zero, mul_one]
    · rw [powerLoop_rat (x * x) _ (by omega), mul_assoc]

/-- Powers by repeated squaring are powers. -/
theorem power_rat (x : ℚ) (n : Int) : power x n = x ^ n := by
  have hloop := powerLoop_rat (n := n.natAbs) x one (Nat.lt_succ_self _)
  rw [one_rat, one_mul] at hloop
  unfold power
  rw [one_rat, hloop]
  split
  · rename_i hneg
    have hn : n = -(n.natAbs : Int) := by omega
    conv_rhs => rw [hn, zpow_neg, zpow_natCast]
    exact one_div _
  · rename_i hpos
    have hn : n = (n.natAbs : Int) := by omega
    conv_rhs => rw [hn, zpow_natCast]

end Scalar

/-- The rational number that a finite number is. -/
def Double.toRat (x : Double) : ℚ := (if x.isNegative then -1 else 1) * x.significand * (2 : ℚ) ^ x.exponent

theorem Double.toRat_one : Double.toRat 1 = 1 := by decide +kernel

namespace Measure

variable {t other : NameMap Int} {symbol : String} {u v : Measure Double}

/-! ### Factors of symbols -/

theorem scale_ne_zero : ∀ e ∈ symbols (α := ℚ), e.scale ≠ 0 := by decide +kernel

/-- How many base units a symbol stands for. -/
def symbolScale (symbol : String) : ℚ := ((entryOf (α := ℚ) symbol).map (·.scale)).getD 1

theorem symbolScale_ne_zero (symbol : String) : symbolScale symbol ≠ 0 := by
  unfold symbolScale
  cases h : entryOf (α := ℚ) symbol with
  | none => exact one_ne_zero
  | some e => exact scale_ne_zero e (List.mem_of_find?_eq_some h)

/-- How many base units a product of symbols stands for. -/
def siScale (t : NameMap Int) : ℚ := (t.entries.map fun p => symbolScale p.1 ^ p.2).prod

/-- Symbols that do not occur are factors of one. -/
theorem siScale_eq_prod {names : Finset String} (h : ∀ name ∈ t.keys, name ∈ names) :
    siScale t = ∏ name ∈ names, symbolScale name ^ exponentOf t name := by
  have hentries : t.entries.map (fun p => symbolScale p.1 ^ p.2) =
      t.keys.map fun name => symbolScale name ^ exponentOf t name := by
    rw [NameMap.keys, List.map_map]
    refine List.map_congr_left fun p hp => ?_
    rw [Function.comp_apply, exponentOf_of_get? (NameMap.mem_entries.mp hp)]
  rw [siScale, hentries, ← List.prod_toFinset _ t.nodup_keys]
  refine Finset.prod_subset (fun name hname => h name (List.mem_toFinset.mp hname)) fun name _ hname => ?_
  have hnone : t.get? name = none := by
    cases hget : t.get? name with
    | none => rfl
    | some e => exact absurd (List.mem_toFinset.mpr (NameMap.mem_keys.mpr (NameMap.contains_iff.mpr ⟨e, hget⟩))) hname
  rw [exponentOf, hnone]
  exact zpow_zero _

theorem siScale_combine (k : Int) (t other : NameMap Int) :
    siScale (combine k t other) = siScale t * siScale other ^ k := by
  let names := (t.keys ++ (other.keys ++ (combine k t other).keys)).toFinset
  have ht : ∀ name ∈ t.keys, name ∈ names := fun name h => by simp [names, h]
  have hother : ∀ name ∈ other.keys, name ∈ names := fun name h => by simp [names, h]
  have hboth : ∀ name ∈ (combine k t other).keys, name ∈ names := fun name h => by simp [names, h]
  rw [siScale_eq_prod ht, siScale_eq_prod hother, siScale_eq_prod hboth, ← Finset.prod_zpow, ← Finset.prod_mul_distrib]
  refine Finset.prod_congr rfl fun name _ => ?_
  rw [exponentOf_combine, zpow_add₀ (symbolScale_ne_zero name), mul_comm k, zpow_mul]

theorem siScale_ne_zero (t : NameMap Int) : siScale t ≠ 0 := by
  refine List.prod_ne_zero fun hzero => ?_
  obtain ⟨p, -, hp⟩ := List.mem_map.mp hzero
  exact zpow_ne_zero _ (symbolScale_ne_zero p.1) hp

theorem siScale_multiply (u v : Measure Double) : siScale (u.multiply v).terms = siScale u.terms * siScale v.terms := by
  rw [multiply, siScale_combine, zpow_one]

theorem siScale_divide (u v : Measure Double) : siScale (u.divide v).terms = siScale u.terms / siScale v.terms := by
  rw [divide, siScale_combine, zpow_neg_one, div_eq_mul_inv]

/-! ### Base units -/

theorem symbols_base {α β : Type} [Scalar α] [Scalar β] :
    (symbols (α := α)).map (fun e => (e.symbol, e.base)) = (symbols (α := β)).map fun e => (e.symbol, e.base) := rfl

theorem entryOf_base {α β : Type} [Scalar α] [Scalar β] (symbol : String) :
    (entryOf (α := α) symbol).map (·.base) = (entryOf (α := β) symbol).map (·.base) := by
  have hfind : ∀ {α : Type} [Scalar α], (entryOf (α := α) symbol).map (·.base) =
      (((symbols (α := α)).map fun e => (e.symbol, e.base)).find? fun p => p.1 == symbol).map (·.2) := by
    intro α _
    rw [List.find?_map, Option.map_map]
    rfl
  rw [hfind, hfind, symbols_base (α := α) (β := β)]

theorem reduceTerm_fst {α β : Type} [Scalar α] [Scalar β] (base : NameMap Int) (x : α) (y : β) (p : String × Int) :
    (reduceTerm (base, x) p).1 = (reduceTerm (base, y) p).1 := by
  have hbase := entryOf_base (α := α) (β := β) p.1
  unfold reduceTerm
  cases hα : entryOf (α := α) p.1 with
  | none =>
    rw [hα] at hbase
    rw [Option.map_eq_none_iff.mp hbase.symm]
  | some e =>
    rw [hα] at hbase
    obtain ⟨e', he', hsame⟩ := Option.map_eq_some_iff.mp hbase.symm
    rw [he']
    exact congrArg (fun base' => combine 1 base (multiplied p.2 (NameMap.ofList base'))) hsame.symm

theorem foldl_reduceTerm_fst {α β : Type} [Scalar α] [Scalar β] :
    ∀ (l : List (String × Int)) (base : NameMap Int) (x : α) (y : β),
      (l.foldl reduceTerm (base, x)).1 = (l.foldl reduceTerm (base, y)).1
  | [], _, _, _ => rfl
  | p :: l, base, x, y => by
    have hstep := reduceTerm_fst base x y p
    rw [List.foldl_cons, List.foldl_cons]
    generalize reduceTerm (base, x) p = a at hstep ⊢
    generalize reduceTerm (base, y) p = b at hstep ⊢
    obtain ⟨base', x'⟩ := a
    obtain ⟨base'', y'⟩ := b
    cases hstep
    exact foldl_reduceTerm_fst l base' x' y'

theorem foldl_reduceTerm_snd : ∀ (l : List (String × Int)) (acc : NameMap Int × ℚ),
    (l.foldl reduceTerm acc).2 = acc.2 * (l.map fun p => symbolScale p.1 ^ p.2).prod
  | [], acc => (mul_one _).symm
  | p :: l, acc => by
    have hstep : (reduceTerm acc p).2 = acc.2 * symbolScale p.1 ^ p.2 := by
      unfold reduceTerm symbolScale
      cases entryOf (α := ℚ) p.1 with
      | none => simp
      | some e => exact congrArg (acc.2 * ·) (Scalar.power_rat e.scale p.2)
    rw [List.foldl_cons, foldl_reduceTerm_snd l, hstep, List.map_cons, List.prod_cons, mul_assoc]

/-! ### Units without offsets -/

/-- The symbols whose values have an offset. -/
def temperatures : List String := ["degC", "celsius", "degF"]

theorem offset_eq_zero : ∀ e ∈ symbols (α := ℚ), e.symbol ∉ temperatures → e.offset = 0 := by decide +kernel

/-- A product of symbols to whole powers: no numeric factor, no digits or signs inside a symbol, and no symbol with
    an offset. -/
structure Symbolic (u : Measure Double) : Prop where
  scale : u.scale = 1
  symbols : ∀ p ∈ u.terms.entries, Plain p.1.toList ∧ p.1 ∉ temperatures

instance (u : Measure Double) : Decidable (Symbolic u) :=
  decidable_of_iff (u.scale = 1 ∧ ∀ p ∈ u.terms.entries, Plain p.1.toList ∧ p.1 ∉ temperatures)
    ⟨fun h => ⟨h.1, h.2⟩, fun h => ⟨h.scale, h.symbols⟩⟩

theorem symbolic_iff (h : Sound u) :
    Symbolic u ↔ u.scale = 1 ∧ Symbols (fun symbol => Plain symbol.toList ∧ symbol ∉ temperatures) u.terms := by
  have hentries : (∀ p ∈ u.terms.entries, Plain p.1.toList ∧ p.1 ∉ temperatures) ↔
      Symbols (fun symbol => Plain symbol.toList ∧ symbol ∉ temperatures) u.terms := by
    constructor
    · intro hall symbol hsymbol
      exact hall (symbol, _) (NameMap.mem_entries.mpr (h.normal.get?_iff.mpr ⟨rfl, hsymbol⟩))
    · intro hall p hp
      obtain ⟨he, hne⟩ := h.normal.get?_iff.mp (NameMap.mem_entries.mp hp)
      exact hall p.1 (he ▸ hne)
  rw [← hentries]
  exact ⟨fun h => ⟨h.scale, h.symbols⟩, fun h => ⟨h.1, h.2⟩⟩

/-- The text of such a unit is read as the unit, or not at all. -/
theorem Symbolic.eq_of_read_text (h : Symbolic u) (hs : Sound u) (hread : read (text u) = .ok v) : v = u := by
  obtain ⟨hscale, hsymbols⟩ := (symbolic_iff hs).mp h
  exact Measure.eq_of_read_text hs (fun symbol hsymbol => (hsymbols symbol hsymbol).1) (by rw [hscale]; decide +kernel)
    (by rw [hscale]; decide +kernel) hread

theorem symbolic_unity : Symbolic unity := ⟨one_eq_scale.symm, fun _ h => absurd h List.not_mem_nil⟩

theorem Symbolic.multiply (hu : Symbolic u) (hv : Symbolic v) (hus : Sound u) (hvs : Sound v) :
    Symbolic (u.multiply v) := by
  rw [symbolic_iff hus] at hu
  rw [symbolic_iff hvs] at hv
  refine (symbolic_iff (hus.multiply hvs)).mpr ⟨?_, hu.2.combine hv.2⟩
  change u.scale * v.scale = 1
  rw [hu.1, hv.1]
  decide +kernel

theorem Symbolic.divide (hu : Symbolic u) (hv : Symbolic v) (hus : Sound u) (hvs : Sound v) :
    Symbolic (u.divide v) := by
  rw [symbolic_iff hus] at hu
  rw [symbolic_iff hvs] at hv
  refine (symbolic_iff (hus.divide hvs)).mpr ⟨?_, hu.2.combine hv.2⟩
  change u.scale / v.scale = 1
  rw [hu.1, hv.1]
  decide +kernel

theorem Symbolic.offsetOf (h : Symbolic u) (plain : ℚ → Bool) (x : ℚ) : offsetOf plain ⟨u.terms, x⟩ = 0 := by
  have hsymbols := h.symbols
  unfold Measure.offsetOf
  dsimp only
  split
  · rename_i symbol hentries
    have hsymbol := (hsymbols (symbol, 1) (hentries ▸ List.mem_singleton_self _)).2
    split
    · cases hentry : entryOf (α := ℚ) symbol with
      | none => exact Scalar.zero_rat
      | some e =>
        have hname : e.symbol = symbol := by simpa using List.find?_some hentry
        exact offset_eq_zero e (List.mem_of_find?_eq_some hentry) (hname ▸ hsymbol)
    · exact Scalar.zero_rat
  · exact Scalar.zero_rat

/-! ### Maps between units in any numbers -/

section
variable {α : Type} [Scalar α] [DecidableEq α]

/-- The base form of a unit in text, its factor taken into other numbers. -/
def reduceIn (cast : Double → α) (s : String) : Option (Reduced α) :=
  (read s).toOption.map fun u => reduce (fun x => x = Scalar.one) ⟨u.terms, cast u.scale⟩

def affineIn (cast : Double → α) (source target : String) : Option (Affine α) := do
  between (← reduceIn cast source) (← reduceIn cast target)

/-- The map of single values between two units. -/
def conversionIn (cast : Double → α) (source target : String) : Option (α → α) :=
  if sameUnit source target then some id else (affineIn cast source target).map (·.apply)

end

/-- In numbers of 64 bits these are the maps of evaluation. -/
theorem conversionIn_id : conversionIn id = conversion := by
  have hreduce : reduceIn id = reduceText := by
    funext s
    unfold reduceIn reduceText
    rw [one_eq_scale]
    rfl
  funext source target
  unfold conversionIn conversion affineIn affineBetween
  rw [hreduce]

theorem affineBetween_isSome {source target : String} (h : (affineBetween source target).isSome = true) :
    ∃ u v, read source = .ok u ∧ read target = .ok v ∧
      (u.terms.entries.foldl reduceTerm (.empty, u.scale)).1 =
        (v.terms.entries.foldl reduceTerm (.empty, v.scale)).1 := by
  obtain ⟨f, hf⟩ := Option.isSome_iff_exists.mp h
  obtain ⟨a, ha, hf⟩ := Option.bind_eq_some_iff.mp hf
  obtain ⟨b, hb, hf⟩ := Option.bind_eq_some_iff.mp hf
  obtain ⟨u, hu, rfl⟩ := Option.map_eq_some_iff.mp ha
  obtain ⟨v, hv, rfl⟩ := Option.map_eq_some_iff.mp hb
  refine ⟨u, v, toOption_eq_some.mp hu, toOption_eq_some.mp hv, ?_⟩
  unfold between at hf
  split at hf
  · assumption
  · cases hf

/-- In exact arithmetic the base form of a unit has the product of the factors of its symbols, and no offset. -/
theorem Symbolic.reduce_rat (h : Symbolic u) (plain : ℚ → Bool) :
    reduce plain ⟨u.terms, u.scale.toRat⟩ =
      ⟨(u.terms.entries.foldl reduceTerm (.empty, u.scale)).1, ⟨siScale u.terms, 0⟩⟩ := by
  have hbase := foldl_reduceTerm_fst u.terms.entries .empty u.scale.toRat u.scale
  have hscale := foldl_reduceTerm_snd u.terms.entries (.empty, u.scale.toRat)
  have hoffset := h.offsetOf plain u.scale.toRat
  rw [h.scale, Double.toRat_one, one_mul] at hscale
  unfold reduce
  rw [← hbase, hoffset]
  rw [h.scale, Double.toRat_one]
  exact congrArg (fun scale => (⟨_, ⟨scale, 0⟩⟩ : Reduced ℚ)) hscale

theorem sameUnit_iff_of_read {source target : String} (hu : read source = .ok u) (hv : read target = .ok v) :
    sameUnit source target = true ↔ u = v := by
  unfold sameUnit
  rw [hu, hv]
  exact decide_eq_true_iff

/-- In exact arithmetic a map between units keeps the number of base units. -/
theorem conversionIn_rat {source target : String} (haccepts : linear.accepts source target = true)
    (hu : read source = .ok u) (hv : read target = .ok v) (hsu : Symbolic u) (hsv : Symbolic v) :
    ∃ f, conversionIn Double.toRat source target = some f ∧
      ∀ y, f y * siScale v.terms = y * siScale u.terms := by
  unfold conversionIn
  cases hsame : sameUnit source target with
  | true =>
    refine ⟨id, rfl, fun y => ?_⟩
    rw [(sameUnit_iff_of_read hu hv).mp hsame]
    rfl
  | false =>
    have hsome : (affineBetween source target).isSome = true := by
      simpa [linear, hsame] using haccepts
    obtain ⟨u', v', hu', hv', hbase⟩ := affineBetween_isSome hsome
    cases hu.symm.trans hu'
    cases hv.symm.trans hv'
    have haffine : affineIn Double.toRat source target =
        some ⟨siScale u.terms / siScale v.terms, (0 - 0) / siScale v.terms⟩ := by
      unfold affineIn reduceIn
      rw [hu, hv]
      dsimp only [Except.toOption, Option.map, bind, Option.bind]
      rw [hsu.reduce_rat, hsv.reduce_rat, between, if_pos hbase]
    rw [haffine]
    refine ⟨_, rfl, fun y => ?_⟩
    have hne := siScale_ne_zero v.terms
    change (y * (siScale u.terms / siScale v.terms) + (0 - 0) / siScale v.terms) * siScale v.terms = _
    field_simp
    ring

end Measure
end Concord
