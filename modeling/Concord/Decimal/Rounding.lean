import Concord.Double.Basic

/-! The number nearest to a fraction or to a decimal. -/

namespace Concord.Decimal

/-! ### Rounding a fraction -/

/-- The whole number next to a fraction; a half goes to the even neighbour. -/
def roundHalfEven (num den : Nat) : Nat :=
  let q := num / den
  let r := num % den
  if 2 * r < den then q else if den < 2 * r then q + 1 else q + q % 2

/-- The largest `e` with `2 ^ e ≤ num / den`. -/
def floorLog2 (num den : Nat) : Int :=
  let e : Int := (num.log2 : Int) - den.log2
  if den * 2 ^ e.toNat ≤ num * 2 ^ (-e).toNat then e else e - 1

/-- The exponent of the last bit that a number near the fraction can hold. -/
def quantum (num den : Nat) : Int := max (floorLog2 num den - 52) (-1074)

/-- The bits of the number nearest to a fraction; one above the finite range is infinity. -/
def nearestBits (num den : Nat) : Nat :=
  if num = 0 then 0
  else
    let q := quantum num den
    let k := roundHalfEven (num * 2 ^ (-q).toNat) (den * 2 ^ q.toNat)
    min ((q + 1074).toNat * 2 ^ 52 + k) Double.infinityBits

/-- The number nearest to a fraction. -/
def ofFraction (num den : Nat) : Double := ⟨(nearestBits num den).toUInt64⟩

/-! ### Decimal numbers -/

/-- The decimal digits of a number, the first one not zero unless it is the only one. -/
def digits (n : Nat) : List Char := Nat.toDigits 10 n

/-- The number nearest to `m · 10 ^ e`. Outside the decimal exponents that the format spans the
    answer is known without the power. -/
def ofDecimal (m : Nat) (e : Int) : Double :=
  if m = 0 then default
  else
    let top := (digits m).length + e
    if top > 310 then Double.infinity
    else if top < -330 then default
    else ofFraction (m * 10 ^ e.toNat) (10 ^ (-e).toNat)

end Concord.Decimal
