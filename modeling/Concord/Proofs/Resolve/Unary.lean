import Concord.Proofs.Measure.RoundTrip
import Concord.Resolve.Typing

/-! What calls make of the unit of one array. Units between nodes are texts, so a power has the unit that its text is
    read as. Units without symbols go their own way: whether there are symbols is asked, and the factor is not. -/

namespace Concord

namespace Measure

variable {u : Measure Double} {k : Int}

/-! ### Units without symbols -/

theorem terms_of_isDimensionless (h : u.isDimensionless = true) : u.terms = .empty :=
  NameMap.ext (List.isEmpty_iff.mp h)

theorem eq_unity_iff : u = unity ↔ u.isDimensionless = true ∧ u.scale = 1 :=
  ⟨fun h => h ▸ ⟨rfl, one_eq_scale⟩, fun h => Measure.ext (terms_of_isDimensionless h.1) (h.2.trans one_eq_scale.symm)⟩

theorem pow_of_isDimensionless (h : u.isDimensionless = true) : (u.pow k).isDimensionless = true := by
  unfold pow
  rw [terms_of_isDimensionless h]
  rfl

theorem read_one : read "1" = .ok unity := by decide +kernel

end Measure

namespace Typing

open Concord.Measure

variable {accepts : String → String → Bool} {function : String} {o : Operand} {operands rest : List Operand}
  {options : CallOptions} {u : Measure Double} {e : Double} {k : Int}

/-! ### Powers -/

theorem measure_of_read (hl : o.isLiteral = false) (hu : read o.unit = .ok u) : measure function o = .ok u := by
  unfold measure
  rw [hl, hu]
  rfl

theorem clampExponent_of_fits (hk : Fits k) : clampExponent k = k := by
  unfold clampExponent
  have := hk.1
  have := hk.2
  omega

theorem powerOf_toInt (he : e.toInt? = some k) (hk : Fits k) :
    powerOf function u e = .ok (if u.isDimensionless then "1" else (u.pow k).text) := by
  unfold powerOf
  rw [he]
  dsimp only
  rw [clampExponent_of_fits hk]
  split <;> rfl

/-- The text of a power is read as the power: without symbols, if that is 1, since the factor is gone; with symbols,
    if these can stand in front of an exponent without a caret. -/
structure PowerRead (u : Measure Double) (k : Int) (t : String) : Prop where
  number : u.isDimensionless = true → (read t = .ok (u.pow k) ↔ Scalar.power u.scale k = 1)
  symbols : u.isDimensionless = false → (∀ symbol, Fits (exponentOf (u.pow k).terms symbol)) →
    (u.pow k).scale.isFinite = true → (u.pow k).scale ≠ 0 →
      (read t = .ok (u.pow k) ↔ ∀ symbol, exponentOf (u.pow k).terms symbol ≠ 0 → Plain symbol.toList)

theorem powerRead (hu : Sound u) : PowerRead u k (if u.isDimensionless then "1" else (u.pow k).text) where
  number h := by
    rw [if_pos h, read_one, Except.ok.injEq, eq_comm, eq_unity_iff]
    exact and_iff_right (pow_of_isDimensionless h)
  symbols h hfits hfinite hzero := by
    rw [if_neg (Bool.eq_false_iff.mp h)]
    exact read_text_iff (hu.pow k) hfits hfinite hzero

/-! ### Arrays without symbols -/

/-- What a call asks for whose arrays have no symbols in their units. Literals have no unit. -/
def Symbolless (o : Operand) : Prop :=
  o.isLiteral = true ∨ ∃ u, read o.unit = .ok u ∧ u.isDimensionless = true

theorem requireDimensionless_cons : requireDimensionless function (o :: rest) = .ok () ↔
    Symbolless o ∧ requireDimensionless function rest = .ok () := by
  have hcons : requireDimensionless function (o :: rest) = .ok () ↔
      ∃ u, measure function o = .ok u ∧ u.isDimensionless = true ∧ requireDimensionless function rest = .ok () := by
    rw [requireDimensionless, bind_eq_ok]
    refine exists_congr fun u => and_congr_right fun _ => ?_
    cases u.isDimensionless <;> simp
  rw [hcons]
  unfold Symbolless measure
  cases hl : o.isLiteral with
  | true =>
    exact ⟨fun ⟨_, _, _, hrest⟩ => ⟨.inl rfl, hrest⟩, fun ⟨_, hrest⟩ => ⟨unity, rfl, rfl, hrest⟩⟩
  | false =>
    rw [if_neg Bool.false_ne_true]
    cases hread : read o.unit with
    | error f => simp
    | ok u => simp

theorem requireDimensionless_eq_ok : ∀ {operands : List Operand},
    requireDimensionless function operands = .ok () ↔ ∀ o ∈ operands, Symbolless o
  | [] => ⟨fun _ _ h => absurd h List.not_mem_nil, fun _ => rfl⟩
  | o :: rest => by rw [requireDimensionless_cons, requireDimensionless_eq_ok, List.forall_mem_cons]

/-! ### Calls -/

/-- The unit of a power of an array that has a unit, for a whole exponent, and which arrays a call takes that wants
    none with symbols. -/
theorem unit_unary (hl : o.isLiteral = false) (hu : read o.unit = .ok u) :
    (options.number? "exponent" = some e → e.toInt? = some k → Fits k →
      ∃ t, unit accepts .power function (o :: rest) options = .ok ⟨t, []⟩ ∧ PowerRead u k t) ∧
      (∀ r, unit accepts .dimensionless function operands options = .ok r ↔
        r = ⟨"1", []⟩ ∧ ∀ o ∈ operands, Symbolless o) ∧
      (Symbolless o ↔ u.isDimensionless = true) ∧ (u = unity ↔ u.isDimensionless = true ∧ u.scale = 1) := by
  refine ⟨fun hoption he hk => ?_, fun r => ?_, ?_, eq_unity_iff⟩
  · refine ⟨_, ?_, powerRead (sound_read hu).1⟩
    unfold unit firstMeasure
    rw [hoption]
    dsimp only
    rw [measure_of_read hl hu]
    show (powerOf function u e >>= fun t => pure (⟨t, []⟩ : UnitOutcome)) = _
    rw [powerOf_toInt he hk]
    rfl
  · rw [← @requireDimensionless_eq_ok function]
    unfold unit
    cases requireDimensionless function operands with
    | error f => exact ⟨fun h => (by cases h), fun h => (by cases h.2)⟩
    | ok u => exact ⟨fun h => ⟨(Except.ok.inj h).symm, rfl⟩, fun h => congrArg Except.ok h.1.symm⟩
  · unfold Symbolless
    rw [hl, hu]
    simp

/-- Metres per second. -/
def speed : Measure Double := ⟨.ofList [("m", 1), ("s", -1)], 1⟩

theorem exponentOf_speed_pow (symbol : String) :
    exponentOf (speed.pow 2).terms symbol = if symbol = "s" then -2 else if symbol = "m" then 2 else 0 := by
  have hterms : (speed.pow 2).terms = .ofList [("m", 2), ("s", -2)] := by decide +kernel
  rw [hterms]
  unfold exponentOf NameMap.ofList
  rw [List.foldl_cons, List.foldl_cons, List.foldl_nil, NameMap.get?_insert, NameMap.get?_insert]
  split
  · rfl
  · split <;> rfl

/-- A thousand: its square is a million, but has the unit 1, and its exponential is taken as if it had the unit 1. The
    square of a speed is read as what it is. -/
theorem unit_unary_thousand :
    let accepts : String → String → Bool := fun _ _ => false
    let thousand : Measure Double := ⟨.empty, 1000⟩
    let squared : CallOptions := [("exponent", .number 2)]
    (read "1000" = .ok thousand ∧ unit accepts .power "^" [⟨[], "1000", false⟩] squared = .ok ⟨"1", []⟩ ∧
      read "1" ≠ .ok (thousand.pow 2) ∧ unit accepts .dimensionless "exp" [⟨[], "1000", false⟩] [] = .ok ⟨"1", []⟩ ∧
      thousand ≠ unity) ∧
      ∃ t, unit accepts .power "^" [⟨[], "m s-1", false⟩] squared = .ok ⟨t, []⟩ ∧ read t = .ok (speed.pow 2) := by
  intro accepts thousand squared
  have hthousand : read "1000" = .ok thousand := by decide +kernel
  have hspeed : read "m s-1" = .ok speed := by decide +kernel
  have htwo : Double.toInt? 2 = some 2 := by decide +kernel
  have hpower := fun {o : Operand} {u : Measure Double} (hl : o.isLiteral = false) (hu : read o.unit = .ok u) =>
    (@unit_unary accepts "^" o [o] [] squared u 2 2 hl hu).1
      rfl htwo (by decide)
  obtain ⟨-, hcall, hsymbolless, hunity⟩ := @unit_unary accepts "exp" ⟨[], "1000", false⟩ [⟨[], "1000", false⟩] []
    [] thousand 2 2 rfl hthousand
  refine ⟨⟨hthousand, ?_⟩, ?_⟩
  · obtain ⟨t, ht, hread⟩ := hpower (o := ⟨[], "1000", false⟩) rfl hthousand
    have hone : unit accepts .power "^" [⟨[], "1000", false⟩] squared = .ok ⟨"1", []⟩ := by decide +kernel
    have htext : t = "1" := congrArg UnitOutcome.unit (Except.ok.inj (ht.symm.trans hone))
    have hlost : Scalar.power (1000 : Double) 2 ≠ 1 := by decide +kernel
    have hscale : (1000 : Double) ≠ 1 := by decide +kernel
    refine ⟨hone, fun h => hlost ((hread.number rfl).mp (htext ▸ h)), (hcall _).mpr ⟨rfl, ?_⟩,
      fun h => hscale (hunity.mp h).2⟩
    rw [List.forall_mem_singleton]
    exact hsymbolless.mpr rfl
  · obtain ⟨t, ht, hread⟩ := hpower (o := ⟨[], "m s-1", false⟩) rfl hspeed
    refine ⟨t, ht, (hread.symbols (by decide +kernel) (fun symbol => ?_) (by decide +kernel) (by decide +kernel)).mpr
      fun symbol h => ?_⟩
    · rw [exponentOf_speed_pow]
      split
      · decide
      · split <;> decide
    · rw [exponentOf_speed_pow] at h
      split at h
      · rename_i hs
        exact hs ▸ by decide
      · split at h
        · rename_i hm
          exact hm ▸ by decide
        · exact absurd rfl h

end Typing
end Concord
