import Concord.Double.Basic
import Concord.Evaluate.Fault

/-! Bringing arrays to common axes. Axes are matched by name; an axis that an array lacks, or has
    with length 1, is stretched. -/

namespace Concord.Align

/-- The array with an axis of length 1 for each dimension that it lacks. The dimensions are those from
    place `i` on and are visited in order, so the axes in front of each are there already. -/
def insertMissing (source : Signature) : Nat → List Dimension → Grid Double → Grid Double
  | _, [], v => v
  | i, d :: out, v =>
    insertMissing source (i + 1) out (if Signature.named source d.name then v else v.insertAxis i)

/-- The array with its axes in the order of `out`, those that it lacks of length 1. -/
def arrange (v : Grid Double) (source out : Signature) (order : List Nat) : Grid Double :=
  insertMissing source 0 out (v.permute order)

/-- The array with the axes of `out` and a given shape. -/
def align (v : Grid Double) (source out : Signature) (shape : List Nat) :
    Except EvaluationFault (Grid Double) :=
  if v.axes ≠ source.length then .error (.operandAxes v.axes source)
  else
    let order := out.filterMap fun d => Signature.position source d.name
    if order.length ≠ source.length then .error (.operandDimensions source out)
    else
      let view := arrange v source out order
      if view.shape = shape then .ok view
      else
        match view.broadcast? shape with
        | some g => .ok g
        | none => .error (.stretch view.shape shape)

/-- The length of a dimension: that of the first array that has it. -/
def lengthOf (operands : List (Signature × Grid Double)) (d : Dimension) : Option Nat :=
  operands.findSome? fun p => (Signature.position p.1 d.name).bind fun i => p.2.shape[i]?

/-- The lengths of the axes of a result. -/
def shapeOf (operands : List (Signature × Grid Double)) (out : Signature) :
    Except EvaluationFault (List Nat) :=
  out.mapM fun d =>
    match lengthOf operands d with
    | some n => .ok n
    | none => .error (.noProvider d.name)

/-- All arrays with the axes of the result. -/
def alignAll (operands : List (Signature × Grid Double)) (out : Signature) :
    Except EvaluationFault (List (Grid Double)) := do
  let shape ← shapeOf operands out
  operands.mapM fun p => align p.2 p.1 out shape

end Concord.Align
