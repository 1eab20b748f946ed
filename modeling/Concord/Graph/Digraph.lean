/-! Directed graphs on the nodes `0 … count - 1`, parallel edges and loops allowed. An edge leads
    from a user to what it uses. The sort puts what is used first; where nodes use each other in a
    cycle, a walk shows it. -/

namespace Concord

structure Digraph where
  count : Nat
  edges : List (Nat × Nat)

/-- A depth-first sort: every node, what it uses before it, and the edges that closed a cycle. -/
structure Sorted where
  order : List Nat
  backEdges : List (Nat × Nat)

def Sorted.isAcyclic (s : Sorted) : Bool := s.backEdges.isEmpty

namespace Digraph

/-- The nodes that an edge leads to, each once, in order. -/
def successors (g : Digraph) (i : Nat) : List Nat :=
  let targets := g.edges.filterMap fun e => if e.1 = i then some e.2 else none
  (List.range g.count).filter fun j => targets.contains j

/-- The nodes that an edge comes from, each once, in order. -/
def predecessors (g : Digraph) (i : Nat) : List Nat :=
  let sources := g.edges.filterMap fun e => if e.2 = i then some e.1 else none
  (List.range g.count).filter fun j => sources.contains j

def hasEdge (g : Digraph) (i j : Nat) : Bool := g.edges.contains (i, j)

/-! ### Sorting -/

/-- Visits a node below the nodes of `path`: first all that it uses, then itself. A path has no node
    twice, so their number bounds the depth. -/
def visit (g : Digraph) : Nat → List Nat → Nat → Sorted → Sorted
  | 0, _, _, s => s
  | fuel + 1, path, i, s =>
    let s := (g.successors i).foldl (fun s j =>
      if s.order.contains j then s
      else if (i :: path).contains j then { s with backEdges := s.backEdges ++ [(i, j)] }
      else visit g fuel (i :: path) j s) s
    { s with order := s.order ++ [i] }

/-- All nodes, what is used before its users wherever there is no cycle. -/
def sort (g : Digraph) : Sorted :=
  (List.range g.count).foldl (fun s i =>
    if s.order.contains i then s else g.visit g.count [] i s) ⟨[], []⟩

/-! ### Cycles -/

/-- The nodes reached in further steps to what `next` gives, `frontier` being those that the last step
    added to `seen`. -/
def spread (next : Nat → List Nat) : Nat → List Nat → List Nat → List Nat
  | 0, seen, _ => seen
  | fuel + 1, seen, frontier =>
    let more := frontier.foldl (fun more i =>
      more ++ (next i).filter fun j => !seen.contains j && !more.contains j) []
    if more.isEmpty then seen else spread next fuel (seen ++ more) more

/-- The nodes reached from each node in one step or more. -/
def descendants (g : Digraph) : Array (List Nat) :=
  let below := Array.ofFn fun i : Fin g.count => g.successors i
  below.map fun direct => spread (below.getD · []) g.count direct direct

/-- The sets of nodes that reach each other, each in order, leaving out nodes on no cycle. -/
def cyclicComponents (g : Digraph) : List (List Nat) :=
  let below := g.descendants
  let reaches i j := (below.getD i []).contains j
  let together i j := reaches i j && reaches j i
  (List.range g.count).filterMap fun i =>
    if (List.range g.count).find? (together i) = some i then
      some ((List.range g.count).filter (together i))
    else none

/-! ### Walks -/

/-- A breadth-first search: the nodes that it has seen, latest first, each with the node that it was reached from; the
    nodes to go on from; and the node that it was after. -/
structure Search where
  origins : List (Nat × Nat)
  queue : List Nat
  found : Option Nat

/-- Goes on from a node to a next one, unless that has been seen or lies outside. -/
def Search.offer (members : List Nat) (goal : Nat → Bool) (i : Nat) (s : Search) (j : Nat) : Search :=
  if s.found.isSome || !members.contains j || (s.origins.lookup j).isSome then s
  else if goal j then { s with origins := (j, i) :: s.origins, found := some j }
  else { s with origins := (j, i) :: s.origins, queue := s.queue ++ [j] }

/-- Searches until the goal is found or nothing is left to go on from. -/
def Search.run (g : Digraph) (members : List Nat) (goal : Nat → Bool) : Nat → Search → Search
  | 0, s => s
  | fuel + 1, s =>
    match s.found, s.queue with
    | none, i :: queue =>
      Search.run g members goal fuel ((g.successors i).foldl (Search.offer members goal i) { s with queue })
    | _, _ => s

/-- The nodes from one that has been seen back to the start, each reached from the next. -/
def Search.retrace (s : Search) (start : Nat) : Nat → Nat → Option (List Nat)
  | 0, _ => none
  | fuel + 1, j =>
    if j = start then some [j]
    else (s.origins.lookup j).bind fun i => (s.retrace start fuel i).map (j :: ·)

/-- The path from the start to what was found. The start may itself be found, or be met again on the way; either ends a
    path that leads back to it, so the node in front of what was found is where to retrace from. -/
def Search.path (s : Search) (start : Nat) : Option (List Nat) :=
  s.found.bind fun j => (s.origins.lookup j).bind fun i =>
    (s.retrace start (s.origins.length + 1) i).map fun back => (j :: back).reverse

/-- The search from a node for one that passes the test, inside a set. It goes on from the start, and from each node once
    that it has seen, so the number of nodes bounds its steps. -/
def search (g : Digraph) (members : List Nat) (start : Nat) (goal : Nat → Bool) : Search :=
  Search.run g members goal (g.count + 2) ⟨[], [start], none⟩

/-- A shortest path of one step or more from a node to one that passes the test, inside a set. -/
def shortestPath (g : Digraph) (members : List Nat) (start : Nat) (goal : Nat → Bool) :
    Option (List Nat) :=
  (g.search members start goal).path start

/-- A walk as far as it has come: the nodes it has met, the one where it is, and those it has yet to meet. -/
structure Walk where
  met : List Nat
  current : Nat
  pending : List Nat

/-- Extends a walk until it has met all that are still pending, each time by a shortest path to one
    of them. -/
def walkThrough (g : Digraph) (members : List Nat) : Nat → Walk → Walk
  | 0, w => w
  | fuel + 1, w =>
    if w.pending.isEmpty then w
    else
      match g.shortestPath members w.current w.pending.contains with
      | none => w
      | some path =>
        walkThrough g members fuel ⟨w.met ++ path.tail, path.getLastD w.current,
          w.pending.filter fun i => !path.contains i⟩

/-- A closed walk through all members of a cyclic component, from its first member back to it. -/
def cycleWalk (g : Digraph) (component : List Nat) : List Nat :=
  match component with
  | [] => []
  | start :: others =>
    let w := g.walkThrough component others.length ⟨[start], start, others⟩
    let walk := match g.shortestPath component w.current (· == start) with
      | some path => if w.current ≠ start ∨ g.hasEdge start start then w.met ++ path.tail else w.met
      | none => w.met
    if walk.length = 1 then walk ++ [start] else walk

end Digraph
end Concord
