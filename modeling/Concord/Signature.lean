import Concord.NameMap

/-! Named axes of arrays. -/

namespace Concord

/-- An axis: its name, and its length where that is known. -/
structure Dimension where
  name : String
  length : Option Nat
  deriving DecidableEq

/-- The axes of an array, outermost first. -/
abbrev Signature := List Dimension

/-- A product in 64-bit words. -/
def wordProduct (ns : List Nat) : Nat := ns.foldl (fun p n => p * n % 2 ^ 64) 1

/-- A reordering of axes: axis `i` of the result is axis `axes[i]` of what is reordered. -/
structure Permutation where
  axes : List Nat
  deriving DecidableEq

namespace Signature

def names (s : Signature) : List String := s.map (·.name)

/-- The axis of a name: the first one that has it. -/
def position (s : Signature) (name : String) : Option Nat := s.findIdx? fun d => d.name == name

def named (s : Signature) (name : String) : Bool := (s.position name).isSome

def dimension? (s : Signature) (name : String) : Option Dimension := s.find? fun d => d.name == name

/-- The lengths of all axes, if they are known. -/
def shape? (s : Signature) : Option (List Nat) := s.mapM (·.length)

/-- The number of elements per step along an axis: the product of the lengths of all others, in
    64-bit words. A length that is not known counts as 1. -/
def elementsExcluding (s : Signature) (along : Option String) : Nat :=
  wordProduct ((s.filter fun d => some d.name ≠ along).map fun d => d.length.getD 1)

/-- The axes of other names. -/
def without (s : Signature) (name : String) : Signature := s.filter fun d => d.name ≠ name

/-- The positions of the target names, each axis once, behind those already taken. -/
def positionsOf (s : Signature) : List Nat → List String → Option (List Nat)
  | _, [] => some []
  | taken, name :: names => do
    let i ← s.position name
    if taken.contains i then none else some (i :: (← positionsOf s (i :: taken) names))

/-- The reordering that brings the axes into the order of the target names, if these are the same
    names. -/
def permutationTo (s : Signature) (target : List String) : Option Permutation :=
  if target.length = s.length then (positionsOf s [] target).map Permutation.mk else none

/-- One signature is a reordering of the other. -/
def isCompatible (s t : Signature) : Bool := (s.permutationTo t.names).isSome

/-- The axes under new names; a name that the map does not have stays. -/
def renamed (s : Signature) (map : NameMap String) : Signature :=
  s.map fun d => ⟨(map.get? d.name).getD d.name, d.length⟩

/-- An axis as messages show it. -/
def dimensionText (d : Dimension) : String :=
  match d.length with
  | some n => d.name ++ "=" ++ toString n
  | none => d.name

/-- The axes as messages show them: `(time=4, lat)`. -/
def text (s : Signature) : String := "(" ++ ", ".intercalate (s.map dimensionText) ++ ")"

end Signature

namespace Permutation

/-- The reordering that undoes this one: under each axis stands the place that it was brought to. -/
def inverse (p : Permutation) : Permutation :=
  ⟨p.axes.zipIdx.foldl (fun places a => places.set a.1 a.2) (List.replicate p.axes.length 0)⟩

/-- The axes in their new order. -/
def apply {α : Type} (p : Permutation) (l : List α) : List α := p.axes.filterMap fun a => l[a]?

end Permutation
end Concord
