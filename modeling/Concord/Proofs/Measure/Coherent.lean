import Concord.Proofs.Measure.Written

/-! Conversion between units is coherent: which units are accepted is an equivalence on all texts, and in exact
    arithmetic the maps between them compose. Both come from one normal form. A unit has its product of base symbols
    and an invertible map of its values into it, and a conversion is the one map followed by the other's inverse. -/

namespace Concord.Measure

section
variable (α : Type) [Scalar α] [DecidableEq α]

/-- The base form of a unit, an offset counting where the factor is one. -/
def reduceAs (u : Measure α) : Reduced α := reduce (fun x => x = Scalar.one) u

/-- The map of single values between two units in text, whose factors are multiplied out in `α`. -/
def conversionAs (source target : String) : Option (α → α) :=
  match readAs α source, readAs α target with
  | .ok u, .ok v => if u = v then some id else (between (reduceAs α u) (reduceAs α v)).map (·.apply)
  | _, _ => if source = target then some id else none

end

/-- In numbers of 64 bits these are the maps of evaluation. -/
theorem conversionAs_double : conversionAs Double = conversion := by
  funext source target
  unfold conversionAs conversion affineBetween reduceText sameUnit reduceAs
  rw [readAs_double, one_eq_scale]
  cases read source with
  | error e => simp [Except.toOption]
  | ok u =>
    cases read target with
    | error e => simp [Except.toOption]
    | ok v => simp [Except.toOption]

/-! ### Which units are accepted -/

/-- The product of base symbols that a product of symbols is. -/
def baseOf (terms : NameMap Int) : NameMap Int := (terms.entries.foldl reduceTerm (.empty, (Scalar.one : ℚ))).1

theorem reduce_base {α : Type} [Scalar α] (plain : α → Bool) (u : Measure α) :
    (reduce plain u).base = baseOf u.terms :=
  foldl_reduceTerm_fst u.terms.entries .empty u.scale Scalar.one

/-- What a text measures: a product of base symbols, or itself if it is no unit. -/
def quantity (s : String) : NameMap Int ⊕ String :=
  match Written.read s with
  | .ok w => .inl (baseOf w.terms)
  | .error _ => .inr s

theorem between_isSome {α : Type} [Scalar α] {a b : Reduced α} : (between a b).isSome = true ↔ a.base = b.base := by
  unfold between
  split <;> simp_all

theorem conversionAs_isSome (α : Type) [Scalar α] [DecidableEq α] (source target : String) :
    (conversionAs α source target).isSome = true ↔ quantity source = quantity target := by
  unfold conversionAs quantity readAs
  cases hu : Written.read source with
  | error e =>
    cases hv : Written.read target with
    | error e' => simp [Except.map]
    | ok w =>
      have hne : source ≠ target := by
        rintro rfl
        cases hu.symm.trans hv
      simp [Except.map, hne]
  | ok w =>
    cases hv : Written.read target with
    | error e =>
      have hne : source ≠ target := by
        rintro rfl
        cases hu.symm.trans hv
      simp [Except.map, hne]
    | ok w' =>
      dsimp only [Except.map]
      rw [Sum.inl.injEq]
      split
      · rename_i heq
        have hterms : w.terms = w'.terms := congrArg Measure.terms heq
        exact iff_of_true rfl (congrArg baseOf hterms)
      · rw [Option.isSome_map, between_isSome]
        unfold reduceAs
        rw [reduce_base, reduce_base]
        rfl

theorem accepts_iff (source target : String) :
    linear.accepts source target = true ↔ quantity source = quantity target := by
  have haccepts : linear.accepts source target = (conversion source target).isSome := by
    cases hsame : sameUnit source target <;> simp [linear, conversion, hsame]
  rw [haccepts, ← conversionAs_double, conversionAs_isSome]

/-! ### Exact conversions -/

/-- An affine map that is not constant has an inverse. -/
def Affine.equiv (f : Affine ℚ) (h : f.scale ≠ 0) : ℚ ≃ ℚ where
  toFun := f.apply
  invFun y := (y - f.offset) / f.scale
  left_inv x := by
    unfold Affine.apply
    field_simp
    ring
  right_inv y := by
    unfold Affine.apply
    field_simp
    ring

theorem reduce_scale_ne_zero (plain : ℚ → Bool) {u : Measure ℚ} (h : u.scale ≠ 0) :
    (reduce plain u).toBase.scale ≠ 0 := by
  have hscale : (reduce plain u).toBase.scale = u.scale * siScale u.terms :=
    foldl_reduceTerm_snd u.terms.entries (.empty, u.scale)
  rw [hscale]
  exact mul_ne_zero h (siScale_ne_zero u.terms)

/-- The map of the values of a unit into base symbols; the values of a text that is no unit stay. -/
def toBase (s : String) : Affine ℚ :=
  match readAs ℚ s with
  | .ok u => (reduceAs ℚ u).toBase
  | .error _ => ⟨1, 0⟩

theorem toBase_scale_ne_zero (s : String) : (toBase s).scale ≠ 0 := by
  unfold toBase
  cases h : readAs ℚ s with
  | error e => exact one_ne_zero
  | ok u => exact reduce_scale_ne_zero _ (scale_ne_zero_of_readAs h)

def inBase (s : String) : ℚ ≃ ℚ := (toBase s).equiv (toBase_scale_ne_zero s)

theorem some_id_eq {u v : String} (h : toBase u = toBase v) : some id = some ⇑((inBase u).trans (inBase v).symm) := by
  have hsame : inBase u = inBase v := by
    unfold inBase
    congr 1
  rw [hsame, Equiv.self_trans_symm]
  rfl

/-- An exact conversion goes through the base form: into it, and back by the inverse of the other map. -/
theorem conversionAs_rat {u v : String} (h : quantity u = quantity v) :
    conversionAs ℚ u v = some ⇑((inBase u).trans (inBase v).symm) := by
  have hsome := (conversionAs_isSome ℚ u v).mpr h
  revert hsome
  unfold conversionAs
  cases hu : readAs ℚ u with
  | error e =>
    dsimp only
    split
    · rename_i heq
      exact fun _ => some_id_eq (congrArg toBase heq)
    · exact fun hsome => by cases hsome
  | ok a =>
    have htoBase : toBase u = (reduceAs ℚ a).toBase := by rw [toBase, hu]
    cases hv : readAs ℚ v with
    | error e =>
      dsimp only
      split
      · rename_i heq
        exact fun _ => some_id_eq (congrArg toBase heq)
      · exact fun hsome => by cases hsome
    | ok b =>
      have htoBase' : toBase v = (reduceAs ℚ b).toBase := by rw [toBase, hv]
      dsimp only
      split
      · rename_i heq
        exact fun _ => some_id_eq (by rw [htoBase, htoBase', heq])
      · intro hsome
        rw [Option.isSome_map, between_isSome] at hsome
        rw [between, if_pos hsome, ← htoBase, ← htoBase', Option.map_some]
        refine congrArg some (funext fun x => ?_)
        have hne := toBase_scale_ne_zero v
        change x * ((toBase u).scale / (toBase v).scale) + ((toBase u).offset - (toBase v).offset) / (toBase v).scale =
          (x * (toBase u).scale + (toBase u).offset - (toBase v).offset) / (toBase v).scale
        field_simp
        ring

/-- Which units are accepted is an equivalence on all texts. In exact arithmetic the conversions that it tells are
    there, that of a unit to itself changes nothing, two in a row are the direct one, and there and back is nothing. -/
theorem conversion_coherent :
    Equivalence (fun u v => linear.accepts u v = true) ∧
    conversionAs Double = linear.conversion ∧
    (∀ u v, linear.accepts u v = true ↔ (conversionAs ℚ u v).isSome = true) ∧
    (∀ u, conversionAs ℚ u u = some id) ∧
    (∀ u v w, linear.accepts u v = true → linear.accepts v w = true →
      ∃ f g, conversionAs ℚ u v = some f ∧ conversionAs ℚ v w = some g ∧ conversionAs ℚ u w = some (g ∘ f)) ∧
    ∀ u v, linear.accepts u v = true →
      ∃ f g, conversionAs ℚ u v = some f ∧ conversionAs ℚ v u = some g ∧ g ∘ f = id ∧ f ∘ g = id := by
  refine ⟨⟨fun u => (accepts_iff u u).mpr rfl, fun h => ?_, fun huv hvw => ?_⟩, conversionAs_double, fun u v => ?_,
    fun u => ?_, fun u v w huv hvw => ?_, fun u v huv => ?_⟩
  · exact (accepts_iff _ _).mpr ((accepts_iff _ _).mp h).symm
  · exact (accepts_iff _ _).mpr (((accepts_iff _ _).mp huv).trans ((accepts_iff _ _).mp hvw))
  · rw [accepts_iff, conversionAs_isSome]
  · rw [conversionAs_rat rfl, Equiv.self_trans_symm]
    rfl
  · rw [accepts_iff] at huv hvw
    refine ⟨_, _, conversionAs_rat huv, conversionAs_rat hvw, ?_⟩
    rw [conversionAs_rat (huv.trans hvw)]
    refine congrArg some (funext fun x => ?_)
    exact congrArg (inBase w).symm ((inBase v).apply_symm_apply _).symm
  · rw [accepts_iff] at huv
    refine ⟨_, _, conversionAs_rat huv, conversionAs_rat huv.symm, funext fun x => ?_, funext fun x => ?_⟩
    · simp
    · simp

/-- From degrees Fahrenheit through degrees Celsius to steps of half a kelvin: water boils at 212, 100 and 746.3. -/
theorem conversion_coherent_boiling :
    linear.accepts "degF" "degC" = true ∧ linear.accepts "degC" "0.5 K" = true ∧
    (∃ f g, conversionAs ℚ "degF" "degC" = some f ∧ conversionAs ℚ "degC" "0.5 K" = some g ∧
      conversionAs ℚ "degF" "0.5 K" = some (g ∘ f)) ∧
    (conversionAs ℚ "degF" "degC").map (· 212) = some 100 ∧
    (conversionAs ℚ "degC" "0.5 K").map (· 100) = some (7463 / 10) ∧
    (conversionAs ℚ "degF" "0.5 K").map (· 212) = some (7463 / 10) := by
  have hfirst : linear.accepts "degF" "degC" = true := by decide +kernel
  have hsecond : linear.accepts "degC" "0.5 K" = true := by decide +kernel
  obtain ⟨-, -, -, -, hcompose, -⟩ := conversion_coherent
  refine ⟨hfirst, hsecond, hcompose _ _ _ hfirst hsecond, ?_, ?_, ?_⟩ <;> decide +kernel

end Concord.Measure
