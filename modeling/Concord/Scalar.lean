import Concord.Decimal.Reading

/-! Numbers that values and unit factors are made of. Unit conversion is written once for any such
    numbers, so what holds of it in exact arithmetic can be said of the same definitions. -/

namespace Concord

/-- Numbers with the four operations, written as decimals. -/
class Scalar (α : Type) extends Add α, Sub α, Mul α, Div α where
  /-- The number `m · 10 ^ e`. -/
  ofDecimal : Nat → Int → α

instance : Scalar Double where
  ofDecimal := Decimal.ofDecimal

namespace Scalar

variable {α : Type} [Scalar α]

def zero : α := ofDecimal 0 0

def one : α := ofDecimal 1 0

/-- `x ^ n` by repeated squaring, `r` being the product so far. -/
def powerLoop : Nat → Nat → α → α → α
  | 0, _, _, r => r
  | fuel + 1, n, x, r =>
    let r := if n % 2 = 1 then r * x else r
    if n / 2 = 0 then r else powerLoop fuel (n / 2) (x * x) r

/-- A whole power by repeated squaring; a negative one is the reciprocal of the positive one. -/
def power (x : α) (n : Int) : α :=
  let r := powerLoop (n.natAbs + 1) n.natAbs x one
  if n < 0 then one / r else r

end Scalar
end Concord
