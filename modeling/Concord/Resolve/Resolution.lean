import Concord.Graph.Compile
import Concord.Resolve.Typing
import Concord.Standard

/-! Resolution: every node of a graph gets its axes and unit, conversions are put in where arguments
    differ in unit, and the result is brought into the layout that the standard demands. -/

namespace Concord

/-- A variable whose nodes all have their axes and units, and whose last node has the layout of the
    target. -/
structure ResolvedVariable where
  name : String
  expression : Expr
  store : NodeStore
  root : Nat
  /-- The axes of the inputs under the names that they have at the source. -/
  native : NameMap Signature
  target : Target

namespace Resolution

/-- What resolution needs to know. -/
structure Context where
  functions : Functions
  source : Source
  converter : Measure.Converter
  /-- New names of axes. -/
  dimensionMap : NameMap String

/-- What is known of a node. -/
def layoutOf (s : NodeStore) (id : Nat) : Except Failure Layout :=
  match s.layout? id with
  | some a => .ok a
  | none => .error (.incompatibleOperands "graph" ("node " ++ toString id ++ " has no annotation"))

/-- Converts a node to a unit, unless it has it. -/
def convertNode (c : Context) (s : NodeStore) (id : Nat) (target : String) :
    Except Failure (NodeStore × Nat) := do
  let a ← layoutOf s id
  if Measure.sameUnit a.unit target then .ok (s, id)
  else if c.converter.accepts a.unit target then
    .ok (s.addWithLayout (.convert a.unit target) [id] ⟨a.dims, target⟩)
  else .error (.unconvertibleUnit a.unit target)

/-- Converts some of the arguments. -/
def convertInputs (c : Context) (s : NodeStore) (inputs : List Nat) :
    List (Nat × String) → Except Failure (NodeStore × List Nat)
  | [] => .ok (s, inputs)
  | (i, target) :: rest => do
    let (s, id) ← convertNode c s (inputs.getD i 0) target
    convertInputs c s (inputs.set i id) rest

/-- What is known of the arguments of a call. -/
def operandsOf (s : NodeStore) (parents : List Nat) : Except Failure (List Operand) :=
  parents.mapM fun id => do
    let a ← layoutOf s id
    .ok ⟨a.dims, a.unit, (s.kind? id).any NodeKind.isLiteral⟩

/-- Adds a call. A call of a conversion becomes a node that converts. -/
def addCall (c : Context) (s : NodeStore) (function : String) (options : CallOptions)
    (parents : List Nat) : Except Failure (NodeStore × Nat) := do
  match c.functions.get? function parents.length with
  | none => .error (.unknownFunction function parents.length)
  | some f =>
    let operands ← operandsOf s parents
    if f.kernel = .convert then
      match options.text? "units" with
      | none => .error (.incompatibleOperands function "missing 'units' option")
      | some target => convertNode c s (parents.getD 0 0) target
    else
      let dims ← Typing.dims f.shape function operands options
      let outcome ← Typing.unit c.converter.accepts f.unit function operands options
      let (s, inputs) ← convertInputs c s parents outcome.conversions
      .ok (s.addWithLayout (.call function options) inputs ⟨dims, outcome.unit⟩)

/-- What is resolved so far: the new graph, the new number of each old node, and the axes of the
    inputs met. -/
structure Progress where
  store : NodeStore
  renumbered : List Nat
  native : NameMap Signature

/-- Resolves one node. -/
def addNode (c : Context) (p : Progress) (n : Node) :
    Except Failure (NodeStore × Nat × NameMap Signature) := do
  let parents := n.parents.map fun id => p.renumbered.getD id 0
  match n.kind with
  | .literal l =>
    let (s, id) := p.store.addWithLayout (.literal l) [] ⟨[], "1"⟩
    .ok (s, id, p.native)
  | .operand name =>
    match c.source.describe name with
    | none => .error (.unresolvedReference name)
    | some m =>
      let (s, id) :=
        p.store.addWithLayout (.operand name) [] ⟨Signature.renamed m.dims c.dimensionMap, m.unit⟩
      .ok (s, id, p.native.insert name m.dims)
  | .call function options =>
    let (s, id) ← addCall c p.store function options parents
    .ok (s, id, p.native)
  | kind =>
    match n.layout with
    | none => .error (.incompatibleOperands "graph" "unannotated structural node")
    | some a =>
      let (s, id) := p.store.addWithLayout kind parents a
      .ok (s, id, p.native)

def step (c : Context) (p : Progress) (n : Node) : Except Failure Progress := do
  let (s, id, native) ← addNode c p n
  .ok ⟨s, p.renumbered ++ [id], native⟩

/-- Brings the axes of a node into the order of the target. -/
def arrange (s : NodeStore) (id : Nat) (target : Target) : Except Failure (NodeStore × Nat) := do
  let a ← layoutOf s id
  let found := Signature.names a.dims
  if found = target.dimensions then .ok (s, id)
  else
    match Signature.permutationTo a.dims target.dimensions with
    | none => .error (.dimensionMismatch found target.dimensions)
    | some p => .ok (s.addWithLayout (.transpose p) [id] ⟨p.apply a.dims, a.unit⟩)

/-- Brings a node into the layout of the target. -/
def conformRoot (c : Context) (s : NodeStore) (id : Nat) (target : Target) :
    Except Failure (NodeStore × Nat) := do
  let (s, id) ← arrange s id target
  convertNode c s id target.units

/-- The nodes that a node depends on, and itself, renumbered in order. -/
def compact (s : NodeStore) (root : Nat) : NodeStore :=
  ((s.reachable root).foldl (fun (acc : NodeStore × List (Nat × Nat)) id =>
    let parents := (s.parents id).map fun p => (acc.2.lookup p).getD 0
    match s.node? id with
    | none => acc
    | some n =>
      let (out, new) := match n.layout with
        | some a => acc.1.addWithLayout n.kind parents a
        | none => acc.1.add n.kind parents
      (out, (id, new) :: acc.2)) (.empty, [])).1

/-- Resolves a variable towards a target. -/
def resolve (c : Context) (v : CompiledVariable) (target : Target) :
    Except Failure ResolvedVariable := do
  let p ← v.store.nodes.foldlM (step c) ⟨.empty, [], .empty⟩
  let (s, root) ← conformRoot c p.store (p.renumbered.getD v.root 0) target
  let store := compact s root
  .ok ⟨v.name, v.expression, store, store.count - 1, p.native, target⟩

end Resolution
end Concord
