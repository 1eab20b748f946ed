import Concord.Graph.Node

/-! The operation graph of one variable. Nodes are put behind their parents, so the order of the
    list is an order of evaluation, and nodes that do the same to the same parents are one node. -/

namespace Concord

structure NodeStore where
  nodes : List Node
  deriving DecidableEq

namespace NodeStore

def empty : NodeStore := ⟨[]⟩

def count (s : NodeStore) : Nat := s.nodes.length

def node? (s : NodeStore) (id : Nat) : Option Node := s.nodes[id]?

def kind? (s : NodeStore) (id : Nat) : Option NodeKind := (s.node? id).map (·.kind)

def parents (s : NodeStore) (id : Nat) : List Nat := ((s.node? id).map (·.parents)).getD []

def layout? (s : NodeStore) (id : Nat) : Option Layout := (s.node? id).bind (·.layout)

/-- The axes of a node; none if nothing is known of it. -/
def dims (s : NodeStore) (id : Nat) : Signature := ((s.layout? id).map (·.dims)).getD []

/-! ### Adding -/

/-- The node that does this to these parents. -/
def lookup (s : NodeStore) (kind : NodeKind) (parents : List Nat) : Option Nat :=
  s.nodes.findIdx? fun n => n.kind = kind ∧ n.parents = parents

/-- Adds a node unless there is one that does the same, and gives its number. -/
def add (s : NodeStore) (kind : NodeKind) (parents : List Nat) : NodeStore × Nat :=
  match s.lookup kind parents with
  | some id => (s, id)
  | none => (⟨s.nodes ++ [⟨kind, parents, none⟩]⟩, s.count)

/-- Says what is known of a node. -/
def setLayout (s : NodeStore) (id : Nat) (a : Layout) : NodeStore :=
  ⟨s.nodes.modify id fun n => { n with layout := some a }⟩

/-- Adds a node with what is known of it. -/
def addWithLayout (s : NodeStore) (kind : NodeKind) (parents : List Nat) (a : Layout) :
    NodeStore × Nat :=
  let (s, id) := s.add kind parents
  (s.setLayout id a, id)

/-! ### Relatives -/

/-- The nodes that use a node, once for each use, latest first. -/
def children (s : NodeStore) (id : Nat) : List Nat :=
  (s.nodes.zipIdx.flatMap fun p => List.replicate (p.1.parents.count id) p.2).reverse

/-- Adds to `wanted` the parents of all nodes below `bound` that are wanted and pass the test, later
    nodes first. -/
def close (s : NodeStore) (through : Nat → Bool) : Nat → List Nat → List Nat
  | 0, wanted => wanted
  | i + 1, wanted =>
    if wanted.contains i && through i then s.close through i (s.parents i ++ wanted)
    else s.close through i wanted

/-- The nodes that pass the test and are reached from some of those given through nodes that pass
    it, in order. -/
def reachedThrough (s : NodeStore) (through : Nat → Bool) (start : List Nat) : List Nat :=
  let wanted := s.close through s.count start
  (List.range s.count).filter fun i => wanted.contains i && through i

/-- The nodes that a node depends on, and itself, in order. -/
def reachable (s : NodeStore) (root : Nat) : List Nat := s.reachedThrough (fun _ => true) [root]

/-- The names of the inputs that a node depends on, in order. -/
def operands (s : NodeStore) (root : Nat) : List String :=
  (NameMap.ofList ((s.reachable root).filterMap fun id =>
    ((s.kind? id).bind NodeKind.input?).map fun name => (name, ()))).keys

end NodeStore
end Concord
