import Concord.Expr.Basic
import Concord.Failure
import Concord.Function.Kernel

/-! Functions as definitions call them: their parameters, and how axes and unit of the result follow
    from those of the arguments. One name may have several functions; a call takes the first one
    that its arguments fit. -/

namespace Concord

inductive ParamKind where
  /-- An array. -/
  | array
  /-- A text in quotes. -/
  | text
  /-- A numeric literal. -/
  | number
  deriving DecidableEq

structure Param where
  name : String
  kind : ParamKind
  required : Bool
  deriving DecidableEq

/-- How the axes of the result follow. -/
inductive ShapeRule where
  /-- Those of the only array. -/
  | passThrough
  /-- The union of those of all arrays. -/
  | broadcast
  /-- Those of the array without the one named by the option `dim`. -/
  | reduce
  /-- Those of the array, which has to have the one named by the option `dim`. -/
  | scan
  deriving DecidableEq

/-- How the unit of the result follows. -/
inductive UnitRule where
  /-- That of the first array; the others are converted to it. -/
  | same
  | product
  | quotient
  /-- That of the array to the power of the option `exponent`. -/
  | power
  | root (n : Int)
  /-- None, and the arrays must have none. -/
  | dimensionless
  /-- That of the array. -/
  | preserve
  /-- The option `units`. -/
  | convert
  deriving DecidableEq

structure FunctionSpec where
  name : String
  params : List Param
  shape : ShapeRule
  unit : UnitRule
  kernel : Kernel
  /-- Parts of the axis can be taken one after the other. -/
  chunkAssociative : Bool
  deriving DecidableEq

/-- The number of arrays that a function takes. -/
def FunctionSpec.arity (f : FunctionSpec) : Nat := (f.params.filter (·.kind = .array)).length

/-- The functions, in the order in which calls try them. -/
structure Functions where
  specs : List FunctionSpec

/-- A call that fits a function: its arrays and its options, in the order of the parameters. -/
structure BoundCall where
  spec : FunctionSpec
  arrays : List Expr
  options : CallOptions

/-- Why a call does not fit a function. -/
inductive BindFault where
  | arity
  | kind (p : Param)
  deriving DecidableEq

/-- What has to be said of a parameter that was given something else. -/
def Param.demand (p : Param) : String :=
  "argument '" ++ p.name ++ "' must be " ++
    match p.kind with
    | .array => "an array expression"
    | .text => "a string literal"
    | .number => "a numeric literal"

namespace Functions

/-! ### Finding -/

def overloads (fs : Functions) (name : String) : List FunctionSpec :=
  fs.specs.filter (·.name == name)

def contains (fs : Functions) (name : String) : Bool := fs.specs.any (·.name == name)

/-- The function of a name that takes this many arrays. -/
def get? (fs : Functions) (name : String) (arity : Nat) : Option FunctionSpec :=
  (fs.overloads name).find? (·.arity = arity)

/-- Adds a function behind the others. -/
def register (fs : Functions) (f : FunctionSpec) : Functions := ⟨fs.specs ++ [f]⟩

/-! ### Binding -/

/-- Puts a keyword argument into the place of its parameter, which must be free. -/
def place (params : List Param) (slots : List (Option Expr)) (arg : String × Expr) :
    Option (List (Option Expr)) := do
  let i ← params.findIdx? (·.name == arg.1)
  match slots[i]? with
  | some none => some (slots.set i (some arg.2))
  | _ => none

/-- The argument of each parameter. -/
def slots (params : List Param) (args : List Expr) (kwargs : List (String × Expr)) :
    Option (List (Option Expr)) :=
  if params.length < args.length then none
  else
    kwargs.foldlM (place params)
      (args.map some ++ List.replicate (params.length - args.length) none)

/-- The arrays and options among the arguments of some parameters. -/
def collect : List (Param × Option Expr) → Except BindFault (List Expr × CallOptions)
  | [] => .ok ([], [])
  | (p, none) :: rest => if p.required then .error .arity else collect rest
  | (p, some e) :: rest =>
    match p.kind, e with
    | .array, .text _ => .error (.kind p)
    | .array, e => (collect rest).map fun c => (e :: c.1, c.2)
    | .text, .text s => (collect rest).map fun c => (c.1, (p.name, .text s) :: c.2)
    | .number, .number x =>
      (collect rest).map fun c => (c.1, (p.name, .number x) :: c.2)
    | _, _ => .error (.kind p)

/-- Fits a call to one function. -/
def bindOne (f : FunctionSpec) (args : List Expr) (kwargs : List (String × Expr)) :
    Except BindFault BoundCall :=
  match slots f.params args kwargs with
  | none => .error .arity
  | some slots => (collect (f.params.zip slots)).map fun c => ⟨f, c.1, c.2⟩

/-- Fits a call to the first function that it fits; `demand` is the first wrong argument so far. -/
def bindFirst (name : String) (args : List Expr) (kwargs : List (String × Expr)) :
    Option Param → List FunctionSpec → Except Failure BoundCall
  | some p, [] => .error (.incompatibleOperands name p.demand)
  | none, [] => .error (.unknownFunction name (args.length + kwargs.length))
  | demand, f :: fs =>
    match bindOne f args kwargs with
    | .ok call => .ok call
    | .error (.kind p) => bindFirst name args kwargs (demand <|> some p) fs
    | .error .arity => bindFirst name args kwargs demand fs

/-- Fits a call to a function of its name. -/
def bind (fs : Functions) (name : String) (args : List Expr) (kwargs : List (String × Expr)) :
    Except Failure BoundCall :=
  bindFirst name args kwargs none (fs.overloads name)

end Functions
end Concord
