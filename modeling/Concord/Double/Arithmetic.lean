import Concord.Decimal.Rounding

/-! The operations on numbers. Each gives the number nearest to the exact result. Where a result is a
    NaN, its sign is that of the first NaN among the operands, and negative if none of them is one:
    an order that tells NaNs apart by their signs sees where they came from. -/

namespace Concord.Double

/-! ### Whole numbers -/

def ofNat (n : Nat) : Double := Decimal.ofFraction n 1

def ofInt (n : Int) : Double := if n < 0 then -ofNat n.natAbs else ofNat n.natAbs

instance (n : Nat) : OfNat Double n := ⟨ofNat n⟩

/-- The whole number that a finite number is, if it is one. -/
def toInt? (x : Double) : Option Int :=
  if !x.isFinite then none
  else
    let q := x.exponent
    let num := x.significand * 2 ^ q.toNat
    let den := 2 ^ (-q).toNat
    if num % den = 0 then
      let n : Int := (num / den : Nat)
      some (if x.isNegative then -n else n)
    else none

/-- The number is whole and odd. -/
def isOdd (x : Double) : Bool := x.toInt?.any fun n => n % 2 = 1

/-! ### Operations -/

/-- The NaN of an operation that has no result, though none of its operands is a NaN. -/
def invalid : Double := ⟨0xfff8000000000000⟩

/-- The result `r` of an operation on some operands. -/
def resultOf (operands : List Double) (r : Float) : Double :=
  if r.isNaN then (operands.find? isNaN).getD invalid else ⟨r.toBits⟩

def toFloat (x : Double) : Float := Float.ofBits x.bits

/-- An operation on one number. -/
def operation (f : Float → Float) (x : Double) : Double := resultOf [x] (f x.toFloat)

/-- An operation on two numbers. -/
def operation₂ (f : Float → Float → Float) (x y : Double) : Double :=
  resultOf [x, y] (f x.toFloat y.toFloat)

instance : Add Double := ⟨operation₂ (· + ·)⟩

instance : Sub Double := ⟨operation₂ (· - ·)⟩

instance : Mul Double := ⟨operation₂ (· * ·)⟩

instance : Div Double := ⟨operation₂ (· / ·)⟩

def sqrt : Double → Double := operation Float.sqrt

def exp : Double → Double := operation Float.exp

def log : Double → Double := operation Float.log

/-- `x ^ y`. An odd power of a NaN is one of positive sign. -/
def pow (x y : Double) : Double :=
  operation₂ Float.pow (if x.isNaN && y.isOdd then x.abs else x) y

end Concord.Double
