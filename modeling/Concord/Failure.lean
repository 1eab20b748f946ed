import Concord.Text.Quoted

/-! What can go wrong with one output variable. Every failure belongs to exactly one variable; its
    kind is the stable name that reports use, its message is for people. -/

namespace Concord

/-- A malformed definition: what is wrong, the offending token, and its byte offset. -/
structure SyntaxError where
  message : String
  token : String
  position : Nat
  deriving DecidableEq

/-- A failure of the destination. -/
structure WriterError where
  name : String
  message : String
  deriving DecidableEq

/-- A failure to read an input. -/
structure SourceError where
  name : String
  message : String
  deriving DecidableEq

def SyntaxError.text (e : SyntaxError) : String :=
  "syntax error at position " ++ toString e.position ++ ": " ++ e.message ++
    " (found '" ++ e.token ++ "')"

def WriterError.text (e : WriterError) : String :=
  "writer failed for '" ++ e.name ++ "': " ++ e.message

def SourceError.text (e : SourceError) : String :=
  "cannot read '" ++ e.name ++ "': " ++ e.message

/-- Why an output variable could not be produced. -/
inductive Failure where
  /-- The definition is not an expression. -/
  | malformed (e : SyntaxError)
  /-- A name that is neither an input nor a definition. -/
  | unresolvedReference (name : String)
  /-- No function of the name takes these arguments. -/
  | unknownFunction (name : String) (arity : Nat)
  /-- The definition refers to itself, through the definitions on the path. -/
  | cycle (path : List String)
  /-- A definition that this one refers to failed. -/
  | upstreamFailed (dependency : String)
  | incompatibleOperands (function reason : String)
  | dimensionMismatch (found required : List String)
  | unconvertibleUnit (source target : String)
  /-- A reduction that needs all values at once would be cut along its dimension. -/
  | nonAssociativeReduction (function dimension : String)
  | chunkEvaluation (chunk : Nat) (reason : String)
  | writer (e : WriterError)
  | outputExists (name : String)
  | cancelled
  deriving DecidableEq

namespace Failure

/-- The stable name of the kind of failure. -/
def kind : Failure → String
  | malformed _ => "SyntaxError"
  | unresolvedReference _ => "UnresolvedReferenceError"
  | unknownFunction _ _ => "UnknownFunctionError"
  | cycle _ => "CycleError"
  | upstreamFailed _ => "UpstreamFailedError"
  | incompatibleOperands _ _ => "IncompatibleOperandsError"
  | dimensionMismatch _ _ => "DimensionMismatchError"
  | unconvertibleUnit _ _ => "UnconvertibleUnitError"
  | nonAssociativeReduction _ _ => "NonAssociativeReductionError"
  | chunkEvaluation _ _ => "ChunkEvaluationError"
  | writer _ => "WriterError"
  | outputExists _ => "OutputExistsError"
  | cancelled => "Cancelled"

/-- The failure in words. -/
def message : Failure → String
  | malformed e => e.text
  | unresolvedReference name =>
    "unresolved reference '" ++ name ++ "': not an input variable nor a definition"
  | unknownFunction name arity =>
    "no function '" ++ name ++ "' accepting " ++ toString arity ++ " argument(s)"
  | cycle path => "cycle detected: " ++ " -> ".intercalate path
  | upstreamFailed dependency => "depends on definition '" ++ dependency ++ "', which failed"
  | incompatibleOperands function reason =>
    "incompatible operands in '" ++ function ++ "': " ++ reason
  | dimensionMismatch found required =>
    "dimensions " ++ Text.quotedNames found ++ " cannot be mapped onto required dimensions " ++
      Text.quotedNames required
  | unconvertibleUnit source target =>
    "no conversion path from '" ++ source ++ "' to '" ++ target ++ "'"
  | nonAssociativeReduction function dimension =>
    "'" ++ function ++ "' is not chunk-associative and cannot be chunked along '" ++
      dimension ++ "'"
  | chunkEvaluation chunk reason =>
    "evaluation of chunk " ++ toString chunk ++ " failed: " ++ reason
  | writer e => e.text
  | outputExists name => "output for '" ++ name ++ "' already exists"
  | cancelled => "run cancelled before the output was complete"

/-- The failure is a definition cycle. -/
def isCycle : Failure → Bool
  | cycle _ => true
  | _ => false

end Failure
end Concord
