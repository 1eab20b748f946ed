import Concord.Function.Spec
import Concord.Measure.Convert

/-! What a call makes of the axes and units of its arguments. -/

namespace Concord

/-- What is known of an array that is passed to a function. A literal has no unit and takes that of
    its fellows. -/
structure Operand where
  dims : Signature
  unit : String
  isLiteral : Bool

/-- The unit of a call, and the arguments, by place, that have to be converted first. -/
structure UnitOutcome where
  unit : String
  conversions : List (Nat × String)
  deriving DecidableEq

namespace Typing

/-! ### Axes -/

/-- Two lengths of one axis that disagree. -/
structure LengthClash where
  name : String
  found : Nat
  other : Nat

/-- A known length, of two that may be. -/
def joinLength (name : String) : Option Nat → Option Nat → Except LengthClash (Option Nat)
  | some a, some b => if a = b then .ok (some a) else .error ⟨name, a, b⟩
  | some a, none => .ok (some a)
  | none, b => .ok b

/-- Adds an axis behind the others, unless there is one of its name; then the lengths are joined. -/
def joinDimension (d : Dimension) : Signature → Except LengthClash Signature
  | [] => .ok [d]
  | e :: rest =>
    if e.name = d.name then (joinLength d.name e.length d.length).map fun l => ⟨e.name, l⟩ :: rest
    else (joinDimension d rest).map (e :: ·)

/-- All axes of some arrays, in the order in which they first occur. -/
def union (signatures : List Signature) : Except LengthClash Signature :=
  signatures.flatten.foldlM (fun out d => joinDimension d out) []

/-- The axes of the first array. -/
def firstDims (operands : List Operand) : Signature := (operands.head?.map (·.dims)).getD []

/-- The axes of a call. -/
def dims (rule : ShapeRule) (function : String) (operands : List Operand) (options : CallOptions) :
    Except Failure Signature :=
  match rule with
  | .passThrough => .ok (firstDims operands)
  | .broadcast =>
    match union (operands.map (·.dims)) with
    | .ok s => .ok s
    | .error c =>
      .error (.incompatibleOperands function ("dimension '" ++ c.name ++ "' has lengths " ++
        toString c.found ++ " and " ++ toString c.other))
  | .reduce | .scan =>
    match options.text? "dim" with
    | none => .error (.incompatibleOperands function "missing 'dim' option")
    | some d =>
      let input := firstDims operands
      if !input.named d then
        .error (.incompatibleOperands function
          ("operand has no dimension '" ++ d ++ "' (dimensions " ++ input.text ++ ")"))
      else .ok (if rule = .reduce then input.without d else input)

/-! ### Units -/

/-- The unit of an argument. -/
def measure (function : String) (o : Operand) : Except Failure (Measure Double) :=
  if o.isLiteral then .ok Measure.unity
  else
    match Measure.read o.unit with
    | .ok u => .ok u
    | .error f => .error (.incompatibleOperands function ("unit '" ++ o.unit ++ "': " ++ f.message))

/-- The unit of the first argument. -/
def firstMeasure (function : String) (operands : List Operand) : Except Failure (Measure Double) :=
  match operands with
  | o :: _ => measure function o
  | [] => .ok Measure.unity

/-- The arguments, by place, that differ in unit from the reference and have to be converted. -/
def conversionsTo (accepts : String → String → Bool) (function reference : String) :
    List (Operand × Nat) → Except Failure (List (Nat × String))
  | [] => .ok []
  | (o, i) :: rest =>
    if o.isLiteral || Measure.sameUnit o.unit reference then
      conversionsTo accepts function reference rest
    else if accepts o.unit reference then
      (conversionsTo accepts function reference rest).map ((i, reference) :: ·)
    else
      .error (.incompatibleOperands function
        ("units '" ++ reference ++ "' and '" ++ o.unit ++ "' are not convertible"))

/-- All units multiplied. -/
def product (function : String) (acc : Measure Double) :
    List Operand → Except Failure (Measure Double)
  | [] => .ok acc
  | o :: rest => do product function (acc.multiply (← measure function o)) rest

/-- Divided by all units. -/
def quotient (function : String) (acc : Measure Double) :
    List Operand → Except Failure (Measure Double)
  | [] => .ok acc
  | o :: rest => do quotient function (acc.divide (← measure function o)) rest

/-- The unit of a quotient: the first one divided by the others. -/
def quotientOf (function : String) : List Operand → Except Failure (Measure Double)
  | [] => .ok Measure.unity
  | o :: rest => do quotient function (Measure.unity.multiply (← measure function o)) rest

/-- Exponents are whole numbers of 32 bits; those beyond are taken as the outermost ones. -/
def clampExponent (n : Int) : Int := max (-2 ^ 31) (min n (2 ^ 31 - 1))

/-- The root that a power is, if its reciprocal is a whole number. -/
def rootOf (u : Measure Double) (exponent : Double) : Option (Measure Double) :=
  ((1 / exponent).toInt?).bind fun n => u.root? (clampExponent n)

/-- The unit of a power. A unit without symbols gives the unit 1. -/
def powerOf (function : String) (u : Measure Double) (exponent : Double) : Except Failure String :=
  if u.isDimensionless then .ok "1"
  else
    match exponent.toInt? with
    | some n => .ok (u.pow (clampExponent n)).text
    | none =>
      match rootOf u exponent with
      | some r => .ok r.text
      | none =>
        .error (.incompatibleOperands function ("cannot raise unit '" ++ u.text ++
          "' to non-integer power " ++ Decimal.plain exponent))

/-- All arguments are without symbols. -/
def requireDimensionless (function : String) : List Operand → Except Failure Unit
  | [] => .ok ()
  | o :: rest => do
    if (← measure function o).isDimensionless then requireDimensionless function rest
    else
      .error (.incompatibleOperands function
        ("operand must be dimensionless, found '" ++ o.unit ++ "'"))

/-- The unit of a call; `accepts` tells which units can be converted into which. -/
def unit (accepts : String → String → Bool) (rule : UnitRule) (function : String)
    (operands : List Operand) (options : CallOptions) : Except Failure UnitOutcome :=
  match rule with
  | .preserve => .ok ⟨(operands.head?.map (·.unit)).getD "1", []⟩
  | .same =>
    match operands.find? (!·.isLiteral) with
    | none => .ok ⟨"1", []⟩
    | some o =>
      (conversionsTo accepts function o.unit operands.zipIdx).map fun c => ⟨o.unit, c⟩
  | .product => (product function Measure.unity operands).map fun u => ⟨u.text, []⟩
  | .quotient => (quotientOf function operands).map fun u => ⟨u.text, []⟩
  | .power =>
    match options.number? "exponent" with
    | none => .error (.incompatibleOperands function "missing exponent")
    | some e => do .ok ⟨← powerOf function (← firstMeasure function operands) e, []⟩
  | .root n => do
    let u ← firstMeasure function operands
    match u.root? n with
    | some r => .ok ⟨r.text, []⟩
    | none =>
      .error (.incompatibleOperands function
        ("unit '" ++ u.text ++ "' has no integer root of order " ++ toString n))
  | .dimensionless => (requireDimensionless function operands).map fun _ => ⟨"1", []⟩
  | .convert =>
    match options.text? "units" with
    | none => .error (.incompatibleOperands function "missing 'units' option")
    | some u => .ok ⟨u, []⟩

end Typing
end Concord
