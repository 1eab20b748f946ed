import Concord.Proofs.Outcome
import Concord.Resolve.Typing

/-! What becomes of the arguments of a call once those that differ in unit are converted: they have the
    same axes, and the unit that is inferred from them is the same and asks for nothing more. -/

namespace Concord.Typing

variable {accepts : String → String → Bool} {function reference : String} {o : Operand}

/-- An argument converted to a unit, unless it has it. What is converted is no literal any more. -/
def converted (target : String) (o : Operand) : Operand :=
  if Measure.sameUnit o.unit target then o else ⟨o.dims, target, false⟩

theorem modify_append_cons {α : Type} (f : α → α) (x : α) (l : List α) :
    ∀ done : List α, (done ++ x :: l).modify done.length f = done ++ f x :: l
  | [] => rfl
  | y :: done => congrArg (y :: ·) (modify_append_cons f x l done)

/-- Some of the arguments converted. -/
def convertedAll (operands : List Operand) (conversions : List (Nat × String)) : List Operand :=
  conversions.foldl (fun operands p => operands.modify p.1 (converted p.2)) operands

theorem sameUnit_refl (u : String) : Measure.sameUnit u u = true := by
  unfold Measure.sameUnit
  cases Measure.read u with
  | error f => exact beq_self_eq_true u
  | ok m => exact decide_eq_true rfl

theorem sameUnit_converted (target : String) (o : Operand) :
    Measure.sameUnit (converted target o).unit target = true := by
  unfold converted
  split
  · assumption
  · exact sameUnit_refl target

@[simp] theorem dims_converted (target : String) (o : Operand) : (converted target o).dims = o.dims := by
  unfold converted
  split <;> rfl

theorem dims_convertedAll (conversions : List (Nat × String)) (operands : List Operand) :
    (convertedAll operands conversions).map (·.dims) = operands.map (·.dims) := by
  unfold convertedAll
  induction conversions generalizing operands with
  | nil => rfl
  | cons p rest ih =>
    rw [List.foldl_cons, ih]
    refine List.ext_getElem? fun i => ?_
    rw [List.getElem?_map, List.getElem?_map, List.getElem?_modify]
    cases operands[i]? with
    | none => rfl
    | some o =>
      simp only [Option.map_eq_map, Option.map_some]
      split
      · rw [dims_converted]
      · rfl

/-! ### One unit for all -/

/-- What an argument is once all have the unit of the reference: a literal stays as it is. -/
def aligned (reference : String) (o : Operand) : Operand := if o.isLiteral then o else converted reference o

theorem aligned_of_literal (h : o.isLiteral = true) : aligned reference o = o := if_pos h

theorem aligned_of_sameUnit (h : Measure.sameUnit o.unit reference = true) : aligned reference o = o := by
  unfold aligned converted
  rw [if_pos h, ite_self]

theorem aligned_or_sameUnit (reference : String) (o : Operand) :
    ((aligned reference o).isLiteral || Measure.sameUnit (aligned reference o).unit reference) = true := by
  unfold aligned
  split
  · rename_i h
    rw [h, Bool.true_or]
  · rw [sameUnit_converted, Bool.or_true]

@[simp] theorem isLiteral_aligned (reference : String) (o : Operand) :
    (aligned reference o).isLiteral = o.isLiteral := by
  unfold aligned converted
  cases ho : o.isLiteral with
  | true => rw [if_pos rfl, ho]
  | false =>
    rw [if_neg Bool.false_ne_true]
    split
    · exact ho
    · rfl

/-- The conversions asked for are those that align all arguments. -/
theorem convertedAll_conversionsTo :
    ∀ {l done : List Operand} {conversions : List (Nat × String)},
      conversionsTo accepts function reference (l.zipIdx done.length) = .ok conversions →
      convertedAll (done ++ l) conversions = done ++ l.map (aligned reference)
  | [], done, conversions, h => by
    cases h
    rfl
  | o :: l, done, conversions, h => by
    have hsnoc : done ++ o :: l = (done ++ [o]) ++ l := by rw [List.append_assoc]; rfl
    have hlen : (done ++ [o]).length = done.length + 1 := List.length_append
    rw [List.zipIdx_cons, conversionsTo] at h
    split at h
    · rename_i hskip
      have hself : aligned reference o = o := by
        rcases Bool.or_eq_true_iff.mp hskip with ho | ho
        · exact aligned_of_literal ho
        · exact aligned_of_sameUnit ho
      rw [hsnoc, convertedAll_conversionsTo (hlen ▸ h), List.map_cons, hself, List.append_assoc]
      rfl
    · rename_i hskip
      split at h
      · obtain ⟨rest, hrest, rfl⟩ := map_eq_ok.mp h
        have hself : aligned reference o = converted reference o := by
          unfold aligned
          rw [if_neg fun ho => hskip (Bool.or_eq_true_iff.mpr (.inl ho))]
        have hmodify : (done ++ o :: l).modify done.length (converted reference) =
            (done ++ [converted reference o]) ++ l := by
          rw [modify_append_cons, List.append_assoc]
          rfl
        have hlen' : (done ++ [converted reference o]).length = done.length + 1 := List.length_append
        unfold convertedAll
        rw [List.foldl_cons, hmodify]
        refine (convertedAll_conversionsTo (hlen' ▸ hrest)).trans ?_
        rw [List.map_cons, hself, List.append_assoc]
        rfl
      · cases h

/-- Aligned arguments need no conversion. -/
theorem conversionsTo_aligned (l : List Operand) (k : Nat) :
    conversionsTo accepts function reference ((l.map (aligned reference)).zipIdx k) = .ok [] := by
  induction l generalizing k with
  | nil => rfl
  | cons o l ih =>
    rw [List.map_cons, List.zipIdx_cons, conversionsTo, if_pos (aligned_or_sameUnit reference o)]
    exact ih (k + 1)

theorem find?_aligned {l : List Operand} (h : l.find? (!·.isLiteral) = some o) :
    (l.map (aligned o.unit)).find? (!·.isLiteral) = some o := by
  have hcomp : ((fun x : Operand => !x.isLiteral) ∘ aligned o.unit) = fun x => !x.isLiteral := by
    funext x
    rw [Function.comp_apply, isLiteral_aligned]
  rw [List.find?_map, hcomp, h, Option.map_some, aligned_of_sameUnit (sameUnit_refl o.unit)]

/-- The unit of a call is a fixed point: inferred again from the converted arguments it is the same, and no
    conversion is left to be asked for. -/
theorem unit_convertedAll {rule : UnitRule} {operands : List Operand} {options : CallOptions} {u : UnitOutcome}
    (h : unit accepts rule function operands options = .ok u) :
    unit accepts rule function (convertedAll operands u.conversions) options = .ok ⟨u.unit, []⟩ := by
  have hplain : u.conversions = [] →
      unit accepts rule function (convertedAll operands u.conversions) options = .ok ⟨u.unit, []⟩ := by
    intro hnil
    rw [hnil]
    refine h.trans (congrArg Except.ok ?_)
    rw [← hnil]
  cases rule with
  | same =>
    unfold unit at h
    dsimp only at h
    split at h
    · cases h
      exact hplain rfl
    · rename_i o ho
      obtain ⟨conversions, hconv, rfl⟩ := map_eq_ok.mp h
      have hall : convertedAll ([] ++ operands) conversions = [] ++ operands.map (aligned o.unit) :=
        convertedAll_conversionsTo hconv
      rw [List.nil_append, List.nil_append] at hall
      unfold unit
      dsimp only
      rw [hall, find?_aligned ho]
      dsimp only
      rw [conversionsTo_aligned]
      rfl
  | preserve =>
    cases h
    exact hplain rfl
  | product | quotient | dimensionless =>
    obtain ⟨_, -, rfl⟩ := map_eq_ok.mp h
    exact hplain rfl
  | power =>
    unfold unit at h
    dsimp only at h
    split at h
    · cases h
    · obtain ⟨_, -, h⟩ := bind_eq_ok.mp h
      obtain ⟨_, -, h⟩ := bind_eq_ok.mp h
      cases h
      exact hplain rfl
  | root n =>
    unfold unit at h
    obtain ⟨_, -, h⟩ := bind_eq_ok.mp h
    split at h
    · cases h
      exact hplain rfl
    · cases h
  | convert =>
    unfold unit at h
    dsimp only at h
    split at h
    · cases h
    · cases h
      exact hplain rfl

end Concord.Typing
