import Concord.Decimal.Reading

/-! The shortest decimal that reads back as a given number. For each count of digits the two
    decimals next to the number are tried; the first count at which one of them reads back wins, and
    of two that do the nearer one. -/

namespace Concord.Decimal

/-- Where two decimals of the same length are equally near: the even one, or the larger one. -/
inductive Ties where
  | even
  | up
  deriving DecidableEq, Repr

/-- The largest `e` with `10 ^ e ≤ num / den`. -/
def floorLog10 (num den : Nat) : Int :=
  if den ≤ num then ((digits (num / den)).length : Int) - 1
  else
    let j := (digits (den / num)).length
    if den ≤ num * 10 ^ (j - 1) then -((j - 1 : Nat) : Int) else -(j : Int)

/-- The decimal in units of `10 ^ e` that stands for `num / den`, if one of its two neighbours there
    reads back as `x`. -/
def atScale (ties : Ties) (x : Double) (num den : Nat) (e : Int) : Option (Nat × Int) :=
  let n := num * 10 ^ (-e).toNat
  let d := den * 10 ^ e.toNat
  let low := n / d
  let r := n % d
  match decide (ofDecimal low e = x), decide (ofDecimal (low + 1) e = x) with
  | false, false => none
  | true, false => some (low, e)
  | false, true => some (low + 1, e)
  | true, true =>
    if 2 * r < d then some (low, e)
    else if d < 2 * r then some (low + 1, e)
    else match ties with
      | .even => some (if low % 2 = 0 then low else low + 1, e)
      | .up => some (low + 1, e)

/-- A decimal without zeros at its end. -/
def dropZeros : Nat → Nat × Int → Nat × Int
  | 0, p => p
  | fuel + 1, (m, e) => if m ≠ 0 ∧ m % 10 = 0 then dropZeros fuel (m / 10, e + 1) else (m, e)

/-- The exact decimal of `k · 2 ^ q`. -/
def exactDecimal (k : Nat) (q : Int) : Nat × Int :=
  if 0 ≤ q then (k * 2 ^ q.toNat, 0) else (k * 5 ^ (-q).toNat, q)

/-- The shortest decimal `m · 10 ^ e` that reads back as a positive finite number, as `(m, e)`; the
    exact one if none of up to 17 digits did. -/
def shortest (ties : Ties) (x : Double) : Nat × Int :=
  let k := x.significand
  let q := x.exponent
  let num := k * 2 ^ q.toNat
  let den := 2 ^ (-q).toNat
  let top := floorLog10 num den
  match (List.range 17).findSome? fun (n : Nat) => atScale ties x num den (top - n) with
  | some p => dropZeros 20 p
  | none => exactDecimal k q

/-! ### Layouts -/

/-- How a number is laid out: which decimal exponents are written with all places, what is put
    behind a whole number then, and how ties among decimals go. -/
structure Layout where
  ties : Ties
  positional : Int → Bool
  wholeEnd : String

/-- All places, whatever the exponent, and nothing behind a whole number. -/
def plainLayout : Layout := ⟨.up, fun _ => true, ""⟩

/-- The layout of numbers in documents: all places from `1e-5` up to below `1e16`, and a point in
    every number. -/
def documentLayout : Layout := ⟨.even, fun e => -5 ≤ e && e < 16, ".0"⟩

/-- A decimal with all its places. -/
def positional (wholeEnd : String) (ds : List Char) (e : Int) : String :=
  if 0 ≤ e then String.ofList (ds ++ List.replicate e.toNat '0') ++ wholeEnd
  else
    let places := (-e).toNat
    if places < ds.length then
      String.ofList (ds.take (ds.length - places) ++ '.' :: ds.drop (ds.length - places))
    else String.ofList ('0' :: '.' :: List.replicate (places - ds.length) '0' ++ ds)

/-- A decimal with one digit before the point and a power of ten. -/
def scientific (ds : List Char) (e : Int) : String :=
  let top := e + ds.length - 1
  let body := match ds with
    | d :: (d' :: ds') => d :: '.' :: d' :: ds'
    | ds => ds
  String.ofList body ++ (if top < 0 then "e-" else "e+") ++ toString top.natAbs

/-- The text of a finite number in a layout. -/
def layOut (l : Layout) (x : Double) : String :=
  let sign := if x.isNegative then "-" else ""
  if x.magnitudeBits = 0 then sign ++ "0" ++ l.wholeEnd
  else
    let (m, e) := shortest l.ties x.abs
    let ds := digits m
    sign ++ if l.positional (e + ds.length - 1) then positional l.wholeEnd ds e else scientific ds e

/-- The text of a number in messages and expressions. -/
def plain (x : Double) : String :=
  if x.isNaN then "NaN"
  else if x.isInfinite then (if x.isNegative then "-inf" else "inf")
  else layOut plainLayout x

/-- The text of a number in a document, which has no word for NaN and the infinities. -/
def document? (x : Double) : Option String :=
  if x.isFinite then some (layOut documentLayout x) else none

end Concord.Decimal
