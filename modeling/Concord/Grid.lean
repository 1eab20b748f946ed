import Concord.Text.Quoted

/-! Arrays of any number of axes, their elements in row-major order. Positions are lists of
    coordinates, outermost first; an operation is given by the element that it puts at each
    position. -/

namespace Concord

-- Sums start at the built-in zero, also where the algebra of numbers is known.
attribute [local instance (10000)] Zero.ofOfNat0

/-- The number of elements of a shape. -/
def volume (shape : List Nat) : Nat := shape.foldr (· * ·) 1

/-- The number of the element at a position. -/
def offset : List Nat → List Nat → Nat
  | _ :: ns, i :: is => i * volume ns + offset ns is
  | _, _ => 0

/-- The position of the element of a number. -/
def coordinates : List Nat → Nat → List Nat
  | [], _ => []
  | _ :: ns, k => k / volume ns :: coordinates ns (k % volume ns)

/-- An array: the lengths of its axes, and as many elements as these ask for. -/
structure Grid (α : Type) where
  shape : List Nat
  data : Array α
  size_eq : data.size = volume shape

namespace Grid

variable {α β γ : Type}

/-- The array whose element at a position is given by a function. -/
def ofFn (shape : List Nat) (f : List Nat → α) : Grid α :=
  ⟨shape, Array.ofFn fun k : Fin (volume shape) => f (coordinates shape k), Array.size_ofFn⟩

/-- The array without axes. -/
def scalar (x : α) : Grid α := ⟨[], #[x], rfl⟩

instance : Inhabited (Grid α) := ⟨⟨[0], #[], by simp [volume]⟩⟩

def axes (g : Grid α) : Nat := g.shape.length

/-- The element at a position. -/
def get [Inhabited α] (g : Grid α) (index : List Nat) : α :=
  g.data.getD (offset g.shape index) default

/-- The length of an axis. -/
def length (g : Grid α) (axis : Nat) : Nat := g.shape.getD axis 0

/-! ### From lists of elements -/

/-- Why a shape and a list of elements do not make an array. -/
inductive ShapeFault where
  | outOfBounds
  | incompatible
  | overflow
  deriving DecidableEq

def ShapeFault.message : ShapeFault → String
  | outOfBounds => "ShapeError/OutOfBounds: out of bounds indexing"
  | incompatible => "ShapeError/IncompatibleShape: incompatible shapes"
  | overflow => "ShapeError/Overflow: arithmetic overflow"

/-- The number of elements can be counted, also if the axes of length zero are left out. -/
def fits (shape : List Nat) : Bool := volume (shape.filter (· ≠ 0)) < 2 ^ 63

/-- The array of a shape with the elements of a list. -/
def ofList (shape : List Nat) (values : List α) : Except ShapeFault (Grid α) :=
  if !fits shape then .error .overflow
  else if h : values.length = volume shape then .ok ⟨shape, values.toArray, by simpa using h⟩
  else if values.length < volume shape then .error .outOfBounds
  else .error .incompatible

/-! ### Element by element -/

def map (f : α → β) (g : Grid α) : Grid β :=
  ⟨g.shape, g.data.map f, by rw [Array.size_map]; exact g.size_eq⟩

/-- Two arrays of the same shape, element by element. -/
def zipWith (f : α → β → γ) (a : Grid α) (b : Grid β) (h : a.shape = b.shape) : Grid γ :=
  ⟨a.shape, a.data.zipWith f b.data, by
    rw [Array.size_zipWith, a.size_eq, b.size_eq, ← h, Nat.min_self]⟩

/-- Two arrays of the same shape, element by element; of different shapes, why not. -/
def zip? (f : α → β → γ) (a : Grid α) (b : Grid β) : Except String (Grid γ) :=
  if h : a.shape = b.shape then .ok (a.zipWith f b h)
  else .error ("shape mismatch " ++ Text.numbers a.shape ++ " vs " ++ Text.numbers b.shape)

/-! ### Axes -/

section
variable [Inhabited α]

/-- The part of an axis from a start on. -/
def slice (g : Grid α) (axis start count : Nat) : Grid α :=
  ofFn (g.shape.set axis count) fun index => g.get (index.modify axis (· + start))

/-- The array at one place of an axis, without this axis. -/
def lane (g : Grid α) (axis i : Nat) : Grid α :=
  ofFn (g.shape.eraseIdx axis) fun index => g.get (index.insertIdx axis i)

/-- The arrays along an axis. -/
def lanes (g : Grid α) (axis : Nat) : List (Grid α) :=
  (List.range (g.length axis)).map (g.lane axis)

/-- The position that a reordering of the axes brings to `index`. -/
def unpermuted (axes index : List Nat) : List Nat :=
  (List.range axes.length).map fun a => index.getD (axes.idxOf a) 0

/-- The array with axis `axes[i]` in place `i`. -/
def permute (axes : List Nat) (g : Grid α) : Grid α :=
  ofFn (axes.map g.length) fun index => g.get (unpermuted axes index)

/-- The array with a further axis of length 1 at a place. -/
def insertAxis (axis : Nat) (g : Grid α) : Grid α :=
  ofFn (g.shape.insertIdx axis 1) fun index => g.get (index.eraseIdx axis)

/-- The lengths of one shape are those of another, or 1, counted from the innermost axis. -/
def stretches : List Nat → List Nat → Bool
  | [], _ => true
  | n :: ns, m :: ms => (n == m || n == 1) && stretches ns ms
  | _ :: _, [] => false

/-- The array stretched to a shape: axes of length 1 are repeated, missing outer ones are added. -/
def broadcast? (shape : List Nat) (g : Grid α) : Option (Grid α) :=
  if fits shape && stretches g.shape.reverse shape.reverse then
    some (ofFn shape fun index =>
      let inner := index.drop (shape.length - g.axes)
      g.get (inner.zipWith (fun i n => if n = 1 then 0 else i) g.shape))
  else none

/-- The arrays of a list, all of one shape, put one behind the other along a new axis. -/
def stack (axis : Nat) (shape : List Nat) (parts : List (Grid α)) : Grid α :=
  let all := parts.toArray
  ofFn (shape.insertIdx axis parts.length) fun index =>
    (all.getD (index.getD axis 0) default).get (index.eraseIdx axis)

/-! ### Joining -/

/-- The part in which a place along the joined axis lies, and the place in it. -/
def locate (axis : Nat) : List (Grid α) → Nat → Grid α × Nat
  | [], i => (default, i)
  | g :: gs, i => if i < g.length axis then (g, i) else locate axis gs (i - g.length axis)

/-- The arrays of a list joined along an axis. -/
def concat (axis : Nat) : List (Grid α) → Except ShapeFault (Grid α)
  | [] => .error .incompatible
  | first :: rest =>
    let parts := first :: rest
    let base := first.shape.eraseIdx axis
    if first.axes ≤ axis then .error .outOfBounds
    else if rest.any fun g => g.axes ≠ first.axes ∨ g.shape.eraseIdx axis ≠ base then
      .error .incompatible
    else
      let shape := first.shape.set axis (parts.map fun g => g.length axis).sum
      if !fits shape then .error .overflow
      else
        .ok (ofFn shape fun index =>
          let (g, i) := locate axis parts (index.getD axis 0)
          g.get (index.set axis i))

end

end Grid
end Concord
