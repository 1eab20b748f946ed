import Concord.Graph.Node
import Concord.Grid.View

/-! What functions compute: element by element, along an axis into one place, or along an axis step
    by step. -/

namespace Concord

/-- Functions of single elements. -/
inductive Elementwise where
  | add
  | sub
  | mul
  | div
  | keep
  | negate
  | sqrt
  | abs
  | exp
  | log
  /-- The power given by the option `exponent`. -/
  | power
  deriving DecidableEq

namespace Elementwise

/-- A function of two elements. -/
def binary? : Elementwise → Option (Double → Double → Double)
  | add => some (· + ·)
  | sub => some (· - ·)
  | mul => some (· * ·)
  | div => some (· / ·)
  | _ => none

/-- A function of one element. -/
def unary : Elementwise → Double → Double
  | negate => fun x => -x
  | sqrt => Double.sqrt
  | abs => Double.abs
  | exp => Double.exp
  | log => Double.log
  | _ => id

/-- The function of two elements on two arrays of the same shape. -/
def applyBinary (f : Double → Double → Double) : List (Grid Double) → Except String (Grid Double)
  | a :: b :: _ => a.zip? f b
  | _ => .error "missing operand"

def applyUnary (f : Double → Double) : List (Grid Double) → Except String (Grid Double)
  | a :: _ => .ok (a.map f)
  | [] => .error "missing operand"

/-- The function on arrays of the same shape. -/
def apply (f : Elementwise) (options : CallOptions) (xs : List (Grid Double)) :
    Except String (Grid Double) :=
  match f.binary?, f with
  | some op, _ => applyBinary op xs
  | none, power =>
    match options.number? "exponent" with
    | some e => applyUnary (fun x => x.pow e) xs
    | none => .error "missing exponent"
  | none, f => applyUnary f.unary xs

/-! ### Arrays as they lie in memory -/

/-- Four elements that are worked on at once. -/
structure Block where
  first : Double
  second : Double
  third : Double
  fourth : Double

namespace Block

def toList (b : Block) : List Double := [b.first, b.second, b.third, b.fourth]

/-- The function of two elements in each of the four places. -/
def zipWith (f : Double → Double → Double) (a b : Block) : Block :=
  ⟨f a.first b.first, f a.second b.second, f a.third b.third, f a.fourth b.fourth⟩

/-- The blocks at the front of a list, and the elements left behind them. -/
def cut : List Double → List Block × List Double
  | x₁ :: x₂ :: x₃ :: x₄ :: rest =>
    let (blocks, left) := cut rest
    (⟨x₁, x₂, x₃, x₄⟩ :: blocks, left)
  | left => ([], left)

end Block

/-- The function of two elements on two lists: block by block, as `onBlocks` works on these, and
    element by element on what is left. -/
def blockwise (f : Double → Double → Double) (onBlocks : Block → Block → Block)
    (xs ys : List Double) : List Double :=
  let (blocksOfX, leftOfX) := Block.cut xs
  let (blocksOfY, leftOfY) := Block.cut ys
  (blocksOfX.zipWith onBlocks blocksOfY).flatMap Block.toList ++ leftOfX.zipWith f leftOfY

/-- The function of two elements on two arrays of the same shape. If the elements of both lie one
    behind the other, they are taken in blocks, else position by position. -/
def applyViews (f : Double → Double → Double) (onBlocks : Block → Block → Block)
    (a b : View Double) : Except String (Grid Double) :=
  if a.shape ≠ b.shape then
    .error ("shape mismatch " ++ Text.numbers a.shape ++ " vs " ++ Text.numbers b.shape)
  else
    match a.slice?, b.slice? with
    | some xs, some ys =>
      (Grid.ofList a.shape (blockwise f onBlocks xs ys)).mapError Grid.ShapeFault.message
    | _, _ => .ok (Grid.ofFn a.shape fun index => f (a.get index) (b.get index))

end Elementwise

/-! ### Reductions -/

/-- Functions of all elements along an axis. -/
inductive Reduction where
  | sum
  | mean
  | min
  | max
  | median
  deriving DecidableEq

/-- A NaN wins, so that it shows in the result as it does in a sum. -/
def minNaN (a b : Double) : Double :=
  if a.isNaN || b.isNaN then .nan else if b < a then b else a

def maxNaN (a b : Double) : Double :=
  if a.isNaN || b.isNaN then .nan else if a < b then b else a

/-- The middle one of some numbers in order, or the mean of the two middle ones. NaNs lie at the ends
    of the order, on the side of their sign. -/
def medianOf (column : List Double) : Double :=
  let sorted := column.mergeSort fun a b => a.orderKey ≤ b.orderKey
  let middle := sorted.length / 2
  if sorted.length % 2 = 1 then sorted.getD middle 0
  else (sorted.getD (middle - 1) 0 + sorted.getD middle 0) / 2

/-- A reduction under way: what it knows of the lanes that it has seen. -/
inductive Accumulator where
  | folding (f : Double → Double → Double) (total : Option (Grid Double))
  | averaging (total : Option (Grid Double)) (count : Nat)
  | collecting (lanes : List (Grid Double))

/-- Combines the elements of an array with those of another, stretched to its shape. -/
def zipInto (f : Double → Double → Double) (a b : Grid Double) : Grid Double :=
  if h : a.shape = b.shape then a.zipWith f b h
  else
    match b.broadcast? a.shape with
    | some b => if h : a.shape = b.shape then a.zipWith f b h else a
    | none => a

/-- Takes a lane into what is known of the earlier ones. -/
def foldLane (f : Double → Double → Double) (total : Option (Grid Double)) (lane : Grid Double) :
    Option (Grid Double) :=
  match total with
  | none => some lane
  | some a => some (zipInto f a lane)

namespace Accumulator

def start : Reduction → Accumulator
  | .sum => folding (· + ·) none
  | .mean => averaging none 0
  | .min => folding minNaN none
  | .max => folding maxNaN none
  | .median => collecting []

/-- Takes the next lane. -/
def push (a : Accumulator) (lane : Grid Double) : Accumulator :=
  match a with
  | folding f total => folding f (foldLane f total lane)
  | averaging total count => averaging (foldLane (· + ·) total lane) (count + 1)
  | collecting lanes => collecting (lanes ++ [lane])

/-- Takes all lanes of an array along an axis. -/
def feed (a : Accumulator) (chunk : Grid Double) (axis : Nat) : Accumulator :=
  (chunk.lanes axis).foldl push a

/-- What is said of a reduction that has seen no lane. -/
def emptyMessage : String := "reduction over an empty dimension"

/-- The array of medians of the lanes, element by element. -/
def medians (lanes : List (Grid Double)) : Option (Grid Double) :=
  lanes.head?.map fun first =>
    Grid.ofFn first.shape fun index => medianOf (lanes.map fun l => l.get index)

/-- The result, if there was a lane. -/
def result? : Accumulator → Option (Grid Double)
  | folding _ total => total
  | averaging total count => total.map fun g => g.map (· / Double.ofNat count)
  | collecting lanes => medians lanes

def finish (a : Accumulator) : Except String (Grid Double) :=
  match a.result? with
  | some g => .ok g
  | none => .error emptyMessage

end Accumulator

/-! ### Running sums -/

/-- Functions of all elements up to a place along an axis. -/
inductive Scan where
  | cumulativeSum
  deriving DecidableEq

/-- A scan under way: the last lane that it gave. -/
abbrev ScanState := Option (Grid Double)

namespace ScanState

def start : Scan → ScanState
  | .cumulativeSum => none

/-- The outputs for some lanes, and the state behind them. -/
def overLanes (s : ScanState) : List (Grid Double) → List (Grid Double) × ScanState
  | [] => ([], s)
  | lane :: rest =>
    let next := match s with
      | none => lane
      | some r => zipInto (· + ·) r lane
    let (out, s) := overLanes (some next) rest
    (next :: out, s)

/-- The output for an array, lane by lane along an axis, and the state behind it. -/
def step (s : ScanState) (chunk : Grid Double) (axis : Nat) : Grid Double × ScanState :=
  let (out, s) := s.overLanes (chunk.lanes axis)
  (Grid.stack axis (chunk.shape.eraseIdx axis) out, s)

end ScanState

/-- What a function computes. -/
inductive Kernel where
  | map (f : Elementwise)
  | reduce (r : Reduction)
  | scan (s : Scan)
  /-- Conversion of units, which is put into the graph as a node of its own. -/
  | convert
  deriving DecidableEq

end Concord
