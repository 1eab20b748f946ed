import Concord.Graph.Store

/-! The operation graph in columns: one entry for each node, or for each use of a node by another. The parents of all
    nodes stand one behind the other. The uses of a node are a linked list through two of the columns, and a table
    tells which node does what to which parents. There is no bound on the number of nodes or uses. -/

namespace Concord

structure Columns where
  kinds : List NodeKind
  layouts : List (Option Layout)
  parentsFlat : List Nat
  /-- Where the parents of a node start, and how many there are. -/
  parentsRanges : List (Nat × Nat)
  /-- The latest use of a node. -/
  firstChild : List (Option Nat)
  /-- The node that uses. -/
  childTargets : List Nat
  /-- The use of the same node before a use. -/
  nextChild : List (Option Nat)
  interned : List ((NodeKind × List Nat) × Nat)
  deriving DecidableEq

namespace Columns

def empty : Columns := ⟨[], [], [], [], [], [], [], []⟩

def count (c : Columns) : Nat := c.kinds.length

def kind? (c : Columns) (id : Nat) : Option NodeKind := c.kinds[id]?

def parents (c : Columns) (id : Nat) : List Nat :=
  match c.parentsRanges[id]? with
  | some (start, n) => (c.parentsFlat.drop start).take n
  | none => []

def layout? (c : Columns) (id : Nat) : Option Layout := c.layouts[id]?.join

/-- The latest use of a node. -/
def head (c : Columns) (id : Nat) : Option Nat := c.firstChild[id]?.join

/-! ### Adding -/

/-- Puts the parents of one more node behind those of the others. -/
def pushParents (c : Columns) (parents : List Nat) : Columns :=
  { c with
    parentsFlat := c.parentsFlat ++ parents
    parentsRanges := c.parentsRanges ++ [(c.parentsFlat.length, parents.length)] }

/-- Puts a use by the node `id` in front of those of a parent. -/
def link (id : Nat) (c : Columns) (parent : Nat) : Columns :=
  { c with
    firstChild := c.firstChild.set parent (some c.childTargets.length)
    childTargets := c.childTargets ++ [id]
    nextChild := c.nextChild ++ [c.head parent] }

/-- Puts a node behind all others. -/
def append (c : Columns) (kind : NodeKind) (parents : List Nat) : Columns :=
  let linked := parents.foldl (link c.count) (c.pushParents parents)
  { linked with
    kinds := c.kinds ++ [kind]
    layouts := c.layouts ++ [none]
    firstChild := linked.firstChild ++ [none]
    interned := ((kind, parents), c.count) :: c.interned }

/-- Adds a node unless there is one that does the same, and gives its number. -/
def add (c : Columns) (kind : NodeKind) (parents : List Nat) : Columns × Nat :=
  match c.interned.lookup (kind, parents) with
  | some id => (c, id)
  | none => (c.append kind parents, c.count)

/-- Adds a node with what is known of it. -/
def addWithLayout (c : Columns) (kind : NodeKind) (parents : List Nat) (a : Layout) : Columns × Nat :=
  let (c, id) := c.add kind parents
  ({ c with layouts := c.layouts.set id (some a) }, id)

/-! ### Relatives -/

/-- The nodes of a linked list of uses, at most `fuel` of them. -/
def follow (c : Columns) : Nat → Option Nat → List Nat
  | 0, _ => []
  | _ + 1, none => []
  | fuel + 1, some use => c.childTargets.getD use 0 :: c.follow fuel (c.nextChild.getD use none)

/-- The nodes that use a node, once for each use, latest first. -/
def children (c : Columns) (id : Nat) : List Nat := c.follow c.childTargets.length (c.head id)

/-- Marks the nodes on a stack, and all that they depend on, in at most `fuel` steps. -/
def visit (c : Columns) : Nat → List Nat → List Bool → List Bool
  | 0, _, seen => seen
  | _ + 1, [], seen => seen
  | fuel + 1, id :: stack, seen =>
    if seen.getD id false then c.visit fuel stack seen
    else c.visit fuel ((c.parents id).reverse ++ stack) (seen.set id true)

/-- The nodes that a node depends on, and itself, in order. A step takes the node or one use off the stack. -/
def reachable (c : Columns) (root : Nat) : List Nat :=
  let seen := c.visit (c.parentsFlat.length + 1) [root] (List.replicate c.count false)
  (List.range c.count).filter fun id => seen.getD id false

/-- The names of the inputs that a node depends on, in order. -/
def operands (c : Columns) (root : Nat) : List String :=
  (NameMap.ofList ((c.reachable root).filterMap fun id =>
    ((c.kind? id).bind NodeKind.input?).map fun name => (name, ()))).keys

end Columns
end Concord
