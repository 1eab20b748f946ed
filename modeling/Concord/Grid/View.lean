import Concord.Grid

/-! Arrays as they lie in memory. The elements of an array need not lie in order: reordered axes,
    repeated axes and parts of an array are seen in the memory of the array that they come from. -/

namespace Concord

/-- How far an element lies behind the first one, if `strides` says how far it is from one place of
    each axis to the next. -/
def distance : List Int → List Nat → Int
  | s :: ss, i :: is => s * i + distance ss is
  | _, _ => 0

/-- An array seen in memory: where its first element lies, the lengths of its axes, and how far it
    is from one place of each axis to the next. -/
structure View (α : Type) where
  memory : Array α
  start : Nat
  shape : List Nat
  strides : List Int
  length_eq : strides.length = shape.length
  inside : ∀ k < volume shape, 0 ≤ start + distance strides (coordinates shape k) ∧
    start + distance strides (coordinates shape k) < memory.size
  fits : Grid.fits shape = true

namespace View

variable {α : Type}

/-- The array of these lengths and strides in a memory, if all of its elements lie there. -/
def of? (memory : Array α) (start : Nat) (shape : List Nat) (strides : List Int) : Option (View α) :=
  if h : strides.length = shape.length ∧
      (∀ k < volume shape, 0 ≤ start + distance strides (coordinates shape k) ∧
        start + distance strides (coordinates shape k) < memory.size) ∧
      Grid.fits shape = true then
    some ⟨memory, start, shape, strides, h.1, h.2.1, h.2.2⟩
  else none

/-- The strides of an array whose elements lie in order. -/
def rowStrides : List Nat → List Int
  | [] => []
  | _ :: ns => volume ns :: rowStrides ns

/-- One step along an axis passes over the elements of all axes behind it. Of an axis of length 1
    no step is asked. -/
def rowMajor : List Nat → List Int → Bool
  | n :: ns, s :: ss => (n == 1 || s == volume ns) && rowMajor ns ss
  | _, _ => true

/-- The elements lie one behind the other in row-major order. -/
def isStandard (v : View α) : Bool := v.shape.contains 0 || rowMajor v.shape v.strides

/-- The elements in row-major order, if that is how they lie. -/
def slice? (v : View α) : Option (List α) :=
  if v.isStandard then some (v.memory.extract v.start (v.start + volume v.shape)).toList else none

section
variable [Inhabited α]

/-- The element at a position. -/
def get (v : View α) (index : List Nat) : α :=
  v.memory.getD (v.start + distance v.strides index).toNat default

/-- The array that is seen. -/
def toGrid (v : View α) : Grid α := Grid.ofFn v.shape v.get

end

end View
end Concord
