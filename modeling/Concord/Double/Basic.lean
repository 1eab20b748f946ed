/-! Numbers of 64 bits: a sign, eleven bits of exponent and 52 bits of fraction. A finite magnitude is
    `k · 2 ^ q` with `k < 2 ^ 53` and `-1074 ≤ q`; in that range its bits are
    `(q + 1074) · 2 ^ 52 + k`, and the next number up has the next bits, also where `k` reaches
    `2 ^ 53`. Behind infinity come the NaNs, which have a sign too. -/

namespace Concord

-- Powers are the built-in ones, also where the algebra of numbers is known.
attribute [instance (20000), default_instance (20000)] instPowNat

/-- A number, given by its bits: two numbers are the same if their bits are. So the two zeros differ,
    and so do NaNs of different signs. -/
structure Double where
  bits : UInt64
  deriving DecidableEq

namespace Double

instance : Inhabited Double := ⟨⟨0⟩⟩

/-! ### Fields -/

/-- The bits without the sign. -/
def magnitudeBits (x : Double) : Nat := x.bits.toNat % 2 ^ 63

def isNegative (x : Double) : Bool := 2 ^ 63 ≤ x.bits.toNat

/-- The `k` of a finite magnitude `k · 2 ^ q`. -/
def significand (x : Double) : Nat :=
  let b := x.magnitudeBits
  if b / 2 ^ 52 = 0 then b else 2 ^ 52 + b % 2 ^ 52

/-- The `q` of a finite magnitude `k · 2 ^ q`. -/
def exponent (x : Double) : Int :=
  let e : Nat := x.magnitudeBits / 2 ^ 52
  if e = 0 then -1074 else (e : Int) - 1075

/-! ### Kinds -/

/-- The bits of infinity. -/
def infinityBits : Nat := 0x7ff * 2 ^ 52

def infinity : Double := ⟨infinityBits.toUInt64⟩

/-- The NaN of positive sign. -/
def nan : Double := ⟨0x7ff8000000000000⟩

def isNaN (x : Double) : Bool := infinityBits < x.magnitudeBits

def isInfinite (x : Double) : Bool := x.magnitudeBits = infinityBits

def isFinite (x : Double) : Bool := x.magnitudeBits < infinityBits

/-! ### Signs -/

def negate (x : Double) : Double := ⟨x.bits ^^^ 0x8000000000000000⟩

def abs (x : Double) : Double := ⟨x.bits &&& 0x7fffffffffffffff⟩

instance : Neg Double := ⟨negate⟩

/-! ### Order -/

/-- The place of a number among all numbers: NaNs of negative sign, then the negative numbers by
    falling magnitude, then those of positive sign by rising magnitude, NaNs last. -/
def orderKey (x : Double) : Int :=
  let m : Int := x.magnitudeBits
  if x.isNegative then -m - 1 else m

/-- The magnitude with its sign, which is the same for both zeros. -/
def signedBits (x : Double) : Int :=
  let m : Int := x.magnitudeBits
  if x.isNegative then -m else m

/-- The one number is smaller than the other. The zeros are equal, and a NaN is neither smaller nor
    larger than anything. -/
def isLess (x y : Double) : Bool := !x.isNaN && !y.isNaN && x.signedBits < y.signedBits

instance : LT Double := ⟨fun x y => x.isLess y = true⟩

instance (x y : Double) : Decidable (x < y) := inferInstanceAs (Decidable (x.isLess y = true))

end Double
end Concord
