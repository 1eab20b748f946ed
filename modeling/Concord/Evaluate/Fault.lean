import Concord.Failure
import Concord.Grid
import Concord.Signature

/-! What can go wrong while a chunk is evaluated. -/

namespace Concord

inductive EvaluationFault where
  /-- An input could not be read. -/
  | unreadable (e : SourceError)
  /-- An input has another number of axes than it says. -/
  | inputAxes (name : String) (found expected : Nat)
  | inputDimension (name dimension : String)
  /-- An array has another number of axes than its node. -/
  | operandAxes (found : Nat) (dims : Signature)
  | operandDimensions (dims out : Signature)
  | stretch (found wanted : List Nat)
  | noProvider (dimension : String)
  /-- What a function has to say. -/
  | kernel (reason : String)
  | conversion (source target : String)
  | noKernel (function : String)
  | noDimension (dimension : String)
  | noDimOption
  | noOperand (what : String)
  | nodeOperand (id : Nat)
  | noLayout (id : Nat)
  | notAvailable (id : Nat)
  | noValue (id : Nat)
  | notFinalized (id : Nat)
  | notScan (id : Nat)
  | notReduction (id : Nat)
  | notCarried
  | notFed
  | noOutput
  | dependent
  | noChunk (count : Nat)

/-- The fault in words. -/
def EvaluationFault.message : EvaluationFault → String
  | unreadable e => e.text
  | inputAxes name found expected =>
    "'" ++ name ++ "' has " ++ toString found ++ " axes, expected " ++ toString expected
  | inputDimension name dimension => "'" ++ name ++ "' has no dimension '" ++ dimension ++ "'"
  | operandAxes found dims =>
    "operand has " ++ toString found ++ " axes but dimensions " ++ Signature.text dims
  | operandDimensions dims out =>
    "operand dimensions " ++ Signature.text dims ++ " are not contained in " ++ Signature.text out
  | stretch found wanted =>
    "cannot broadcast " ++ Text.numbers found ++ " to " ++ Text.numbers wanted
  | noProvider dimension => "no operand provides dimension '" ++ dimension ++ "'"
  | kernel reason => reason
  | conversion source target => (Failure.unconvertibleUnit source target).message
  | noKernel function => "'" ++ function ++ "' has no executable kernel"
  | noDimension dimension => "no dimension '" ++ dimension ++ "'"
  | noDimOption => "missing 'dim' option"
  | noOperand what => what
  | nodeOperand id => "node " ++ toString id ++ " has no operand"
  | noLayout id => "node " ++ toString id ++ " is not annotated"
  | notAvailable id => "value of node " ++ toString id ++ " is not available"
  | noValue id => "node " ++ toString id ++ " has no value"
  | notFinalized id => "reduction at node " ++ toString id ++ " was not finalized"
  | notScan id => "node " ++ toString id ++ " carries state but is not a scan"
  | notReduction id => "node " ++ toString id ++ " is not a reduction"
  | notCarried => "reduction without a carried axis"
  | notFed => "reduction input was not computed"
  | noOutput => "output value was not computed"
  | dependent => "chunks of this variable depend on each other"
  | noChunk count => "only " ++ toString count ++ " chunks"

end Concord
