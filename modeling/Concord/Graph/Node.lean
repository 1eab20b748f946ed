import Concord.Decimal.Shortest
import Concord.Signature

/-! The nodes of operation graphs. -/

namespace Concord

/-- An argument of a call that is no array. -/
inductive OptionValue where
  | text (s : String)
  | number (x : Double)
  deriving DecidableEq

/-- The arguments of a call that are no arrays, by parameter. -/
abbrev CallOptions := List (String × OptionValue)

namespace CallOptions

def find (options : CallOptions) (key : String) : Option OptionValue :=
  (options.find? fun p => p.1 == key).map (·.2)

/-- The text under a key. -/
def text? (options : CallOptions) (key : String) : Option String :=
  match options.find key with
  | some (.text s) => some s
  | _ => none

/-- The number under a key. -/
def number? (options : CallOptions) (key : String) : Option Double :=
  match options.find key with
  | some (.number x) => some x
  | _ => none

end CallOptions

def OptionValue.display : OptionValue → String
  | text s => "'" ++ s ++ "'"
  | number x => Decimal.plain x

/-- What a node does. -/
inductive NodeKind where
  | literal (x : Double)
  /-- Reads an input. -/
  | operand (name : String)
  /-- Calls a function on the values of its parents. -/
  | call (function : String) (options : CallOptions)
  | convert (source target : String)
  | transpose (p : Permutation)
  deriving DecidableEq

namespace NodeKind

def isLiteral : NodeKind → Bool
  | literal _ => true
  | _ => false

/-- The input that a node reads. -/
def input? : NodeKind → Option String
  | operand name => some name
  | _ => none

end NodeKind

/-- What is known of the value of a node: its axes and its unit. -/
structure Layout where
  dims : Signature
  unit : String
  deriving DecidableEq

/-- A node: what it does, to the values of which nodes. -/
structure Node where
  kind : NodeKind
  parents : List Nat
  layout : Option Layout
  deriving DecidableEq

end Concord
