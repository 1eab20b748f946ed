import Concord.Function.Spec

/-! The functions that every definition can use. -/

namespace Concord.Functions

def arrayParam (name : String) : Param := ⟨name, .array, true⟩

def textParam (name : String) : Param := ⟨name, .text, true⟩

def numberParam (name : String) : Param := ⟨name, .number, true⟩

/-- A function of one array, element by element. -/
def unaryMap (name : String) (unit : UnitRule) (f : Elementwise) : FunctionSpec :=
  ⟨name, [arrayParam "x"], .passThrough, unit, .map f, true⟩

/-- A function of two arrays, element by element. -/
def binaryMap (name : String) (unit : UnitRule) (f : Elementwise) : FunctionSpec :=
  ⟨name, [arrayParam "x", arrayParam "y"], .broadcast, unit, .map f, true⟩

/-- A reduction along the axis named by its argument `dim`. -/
def reduction (name : String) (r : Reduction) (chunkAssociative : Bool) : FunctionSpec :=
  ⟨name, [arrayParam "x", textParam "dim"], .reduce, .preserve, .reduce r, chunkAssociative⟩

/-- The builtin functions. -/
def builtins : Functions :=
  ⟨[ binaryMap "+" .same .add,
     binaryMap "-" .same .sub,
     binaryMap "*" .product .mul,
     binaryMap "/" .quotient .div,
     unaryMap "+" .preserve .keep,
     unaryMap "-" .preserve .negate,
     ⟨"^", [arrayParam "x", numberParam "exponent"], .passThrough, .power, .map .power, true⟩,
     unaryMap "sqrt" (.root 2) .sqrt,
     unaryMap "abs" .preserve .abs,
     unaryMap "exp" .dimensionless .exp,
     unaryMap "log" .dimensionless .log,
     ⟨"convert", [arrayParam "x", textParam "units"], .passThrough, .convert, .convert, true⟩,
     reduction "mean" .mean true,
     reduction "average" .mean true,
     reduction "sum" .sum true,
     reduction "min" .min true,
     reduction "max" .max true,
     reduction "median" .median false,
     ⟨"cumsum", [arrayParam "x", textParam "dim"], .scan, .preserve, .scan .cumulativeSum, true⟩ ]⟩

end Concord.Functions
