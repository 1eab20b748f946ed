import Concord.Decimal.Shortest

/-! Numbers of documents. A whole number that fits a 64-bit word stays whole. Any other number is a
    64-bit significand times a power of ten: digits that no longer fit are dropped, and the power is
    applied by one floating multiplication or division. -/

namespace Concord.Json

inductive Number where
  /-- A whole number below `2 ^ 64`. -/
  | natural (n : Nat)
  /-- The number `-n`, for `n` from 1 to `2 ^ 63`. -/
  | negative (n : Nat)
  | real (x : Double)
  deriving DecidableEq

namespace Number

/-- The nearest number of 64 bits. -/
def toDouble : Number → Double
  | natural n => .ofNat n
  | negative n => -.ofNat n
  | real x => x

/-- The text of a number. -/
def text : Number → String
  | natural n => toString n
  | negative n => "-" ++ toString n
  | real x => (Decimal.document? x).getD "null"

/-! ### The parts of a number in text -/

/-- The parts of a number: its sign, the digits in front of the point, those behind it, and the sign
    and digits of the exponent. -/
structure Parts where
  minus : Bool
  whole : List Char
  fraction : Option (List Char)
  exponent : Option (Bool × List Char)

/-- The digits in front of the point: a single zero, or digits that do not start with one. -/
def readWhole (cs : List Char) : Option (List Char × List Char) :=
  match cs with
  | '0' :: rest => if rest.head?.any Char.isDigit then none else some (['0'], rest)
  | cs =>
    let ds := cs.takeWhile Char.isDigit
    if ds.isEmpty then none else some (ds, cs.dropWhile Char.isDigit)

/-- The digits behind the point, if there is one; at least one is needed then. -/
def readFraction (cs : List Char) : Option (Option (List Char) × List Char) :=
  match cs with
  | '.' :: rest =>
    let ds := rest.takeWhile Char.isDigit
    if ds.isEmpty then none else some (some ds, rest.dropWhile Char.isDigit)
  | cs => some (none, cs)

/-- The exponent, if there is one; at least one digit is needed then. -/
def readExponent (cs : List Char) : Option (Option (Bool × List Char) × List Char) :=
  match cs with
  | c :: rest =>
    if c = 'e' ∨ c = 'E' then
      let (minus, rest) := Decimal.readSign rest
      let ds := rest.takeWhile Char.isDigit
      if ds.isEmpty then none else some (some (minus, ds), rest.dropWhile Char.isDigit)
    else some (none, c :: rest)
  | [] => some (none, [])

/-- The parts of the number at the front of a text, and what follows it. -/
def readParts (cs : List Char) : Option (Parts × List Char) := do
  let (minus, cs) := match cs with
    | '-' :: rest => (true, rest)
    | cs => (false, cs)
  let (whole, cs) ← readWhole cs
  let (fraction, cs) ← readFraction cs
  let (exponent, cs) ← readExponent cs
  some (⟨minus, whole, fraction, exponent⟩, cs)

/-! ### Their value -/

/-- The largest significand. -/
def largestWord : Nat := 2 ^ 64 - 1

/-- Appends digits to a significand as long as the word holds them; also gives the digits left. -/
def fillWord : Nat → List Char → Nat × List Char
  | s, [] => (s, [])
  | s, c :: cs =>
    let s' := 10 * s + (c.toNat - 48)
    if s' ≤ largestWord then fillWord s' cs else (s, c :: cs)

/-- Applies a power of ten in steps of at most 308 places; `none` if the number gets too large. -/
def applyPower : Nat → Double → Int → Option Double
  | 0, x, _ => some x
  | fuel + 1, x, e =>
    if e.natAbs ≤ 308 then
      let p := Decimal.ofDecimal 1 e.natAbs
      if 0 ≤ e then
        let y := x * p
        if y.isInfinite then none else some y
      else some (x / p)
    else if x = 0 then some x
    else if 0 ≤ e then none
    else applyPower fuel (x / Decimal.ofDecimal 1 308) (e + 308)

/-- Exponents beyond 32 bits stand for zero or for a number that is too large. -/
def largestExponent : Nat := 2 ^ 31 - 1

/-- The number that the parts stand for; `none` if it is too large. -/
def ofParts (p : Parts) : Option Number :=
  let (s, wholeLeft) := fillWord 0 p.whole
  if wholeLeft.isEmpty && p.fraction.isNone && p.exponent.isNone then
    if !p.minus then some (natural s)
    else if 1 ≤ s ∧ s ≤ 2 ^ 63 then some (negative s)
    else some (real (-.ofNat s))
  else
    let fraction := p.fraction.getD []
    let (s, fractionLeft) := fillWord s fraction
    let places : Int := (wholeLeft.length : Int) - (fraction.length - fractionLeft.length : Nat)
    let signed (x : Double) : Number := real (if p.minus then -x else x)
    match p.exponent with
    | none => (applyPower 8 (.ofNat s) places).map signed
    | some (minus, ds) =>
      let e := Decimal.ofDigits ds
      if e > largestExponent then
        if s ≠ 0 ∧ minus = false then none else some (signed 0)
      else
        (applyPower 8 (.ofNat s) (if minus then places - e else places + e)).map signed

end Number
end Concord.Json
