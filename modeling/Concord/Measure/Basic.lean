import Concord.NameMap
import Concord.Scalar

/-! Units of measurement: products of symbols with whole exponents, times a numeric factor. -/

namespace Concord

/-- A unit: exponents under symbols, none of them zero, and a factor. -/
@[ext] structure Measure (α : Type) where
  terms : NameMap Int
  scale : α
  deriving DecidableEq

namespace Measure

variable {α : Type} [Scalar α]

/-- The unit 1. -/
def unity : Measure α := ⟨.empty, Scalar.one⟩

/-- There are no symbols; the factor may be any. -/
def isDimensionless (u : Measure α) : Bool := u.terms.entries.isEmpty

/-! ### Exponents -/

/-- The exponent of a symbol. -/
def exponentOf (terms : NameMap Int) (symbol : String) : Int := (terms.get? symbol).getD 0

/-- Adds to the exponent of a symbol. The entry stays if the sum is zero. -/
def raise (terms : NameMap Int) (symbol : String) (e : Int) : NameMap Int :=
  terms.alter symbol fun old => some (old.getD 0 + e)

/-- Only the symbols whose exponent is not zero. -/
def normalize (terms : NameMap Int) : NameMap Int := terms.filter fun _ e => e ≠ 0

/-- The exponents of a product with `other` to the power `k`. -/
def combine (k : Int) (terms other : NameMap Int) : NameMap Int :=
  normalize (other.entries.foldl (fun t p => raise t p.1 (k * p.2)) terms)

/-- All exponents times `k`. -/
def multiplied (k : Int) (terms : NameMap Int) : NameMap Int :=
  normalize (terms.map fun _ e => e * k)

/-! ### Operations -/

def multiply (u v : Measure α) : Measure α := ⟨combine 1 u.terms v.terms, u.scale * v.scale⟩

def divide (u v : Measure α) : Measure α := ⟨combine (-1) u.terms v.terms, u.scale / v.scale⟩

def pow (u : Measure α) (k : Int) : Measure α := ⟨multiplied k u.terms, Scalar.power u.scale k⟩

/-- The exponents divided by `n`, if that leaves whole ones. -/
def divided? (n : Int) (terms : NameMap Int) : Option (NameMap Int) :=
  if n = 0 ∨ terms.values.any (fun e => e.tmod n ≠ 0) then none
  else some (terms.map fun _ e => e.tdiv n)

/-- The `n`-th root of a unit, if its exponents have one. -/
def root? (u : Measure Double) (n : Int) : Option (Measure Double) :=
  (divided? n u.terms).map fun terms => ⟨terms, u.scale.pow (1 / .ofInt n)⟩

end Measure
end Concord
