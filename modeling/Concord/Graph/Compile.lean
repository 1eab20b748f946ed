import Concord.Dataset
import Concord.Definitions
import Concord.Expr.Parser
import Concord.Function.Spec
import Concord.Graph.Digraph
import Concord.Graph.Store

/-! From definitions to operation graphs. A name means an input if there is one of the name, else a
    definition, which is put in its place; a failure of a definition stays with it and with those
    that refer to it. -/

namespace Concord

-- Sums start at the built-in zero, also where the algebra of numbers is known.
attribute [local instance (10000)] Zero.ofOfNat0

/-- What a name in a definition refers to. -/
inductive Reference where
  | input (m : InputMetadata)
  | definition (name : String)

/-- A definition as a graph of its own. -/
structure CompiledVariable where
  name : String
  expression : Expr
  store : NodeStore
  root : Nat

/-- The inputs that the variable reads. -/
def CompiledVariable.inputs (v : CompiledVariable) : List String := v.store.operands v.root

/-- What has become of some definitions: a graph or a failure for each, and which refer to which. -/
structure Compilation where
  compiled : NameMap CompiledVariable
  failures : NameMap Failure
  /-- The definitions on no cycle, each behind those that it refers to. -/
  order : List String
  names : List String
  references : Digraph

namespace Compilation

/-- What a name refers to. -/
def resolve (source : Source) (definitions : Definitions) (name : String) :
    Except Failure Reference :=
  match source.describe name with
  | some m => .ok (.input m)
  | none =>
    if definitions.contains name then .ok (.definition name) else .error (.unresolvedReference name)

/-! ### Graphs -/

/-- What lowering needs to know. -/
structure Context where
  functions : Functions
  source : Source
  definitions : Definitions
  parsed : NameMap Expr

/-- Puts the nodes of an expression into a graph. Calls are bound before their arguments are
    lowered. The first number bounds the nesting, of expressions and of references together. -/
def lower (c : Context) : Nat → Expr → NodeStore → Except Failure (NodeStore × Nat)
  | 0, _, _ => .error (.cycle [])
  | _, .number x, s => .ok (s.add (.literal x) [])
  | _, .text t, _ =>
    .error (.incompatibleOperands "definition" ("string '" ++ t ++ "' is not an array expression"))
  | fuel + 1, .operand name, s => do
    match ← resolve c.source c.definitions name with
    | .input _ => .ok (s.add (.operand name) [])
    | .definition dependency =>
      match c.parsed.get? dependency with
      | none => .error (.upstreamFailed dependency)
      | some e => lower c fuel e s
  | fuel + 1, .call name args kwargs, s => do
    let call ← c.functions.bind name args kwargs
    let (s, parents) ← call.arrays.foldlM (fun (acc : NodeStore × List Nat) e => do
      let (s, id) ← lower c fuel e acc.1
      .ok (s, acc.2 ++ [id])) (s, [])
    .ok (s.add (.call name call.options) parents)

/-- A bound on the nesting: no path of references meets a definition twice. -/
def nesting (parsed : NameMap Expr) : Nat := (parsed.values.map fun e => e.height + 1).sum + 1

/-! ### References among definitions -/

/-- The parsed definitions, and the failures of the others. -/
def parseAll (definitions : Definitions) : NameMap Expr × NameMap Failure :=
  definitions.entries.foldl (fun (parsed, failures) p =>
    match Parser.parse p.2 with
    | .ok e => (parsed.insert p.1 e, failures)
    | .error e => (parsed, failures.insert p.1 (.malformed e))) (.empty, .empty)

/-- The edges of a definition to those that it refers to, and the failure of the first name that
    refers to nothing. -/
def referencesOf (source : Source) (definitions : Definitions) (names : List String) (name : String)
    (e : Expr) (failures : NameMap Failure) : List (Nat × Nat) × NameMap Failure :=
  e.operandNames.foldl (fun (edges, failures) operand =>
    match resolve source definitions operand with
    | .ok (.input _) => (edges, failures)
    | .ok (.definition dependency) =>
      (edges ++ [(names.idxOf name, names.idxOf dependency)], failures)
    | .error f => (edges, failures.insertNew name f)) ([], failures)

/-- All edges, and the failures with those of names that refer to nothing. -/
def linkAll (source : Source) (definitions : Definitions) (parsed : NameMap Expr)
    (failures : NameMap Failure) : Digraph × NameMap Failure :=
  let names := definitions.keys
  let (edges, failures) := parsed.entries.foldl (fun (edges, failures) p =>
    let (more, failures) := referencesOf source definitions names p.1 p.2 failures
    (edges ++ more, failures)) ([], failures)
  (⟨names.length, edges⟩, failures)

/-- The failures with those of all definitions on cycles. -/
def failCycles (names : List String) (g : Digraph) (failures : NameMap Failure) : NameMap Failure :=
  g.cyclicComponents.foldl (fun failures component =>
    let path := (g.cycleWalk component).map fun i => names.getD i ""
    component.foldl (fun failures i => failures.insert (names.getD i "") (.cycle path)) failures)
    failures

/-! ### All definitions -/

/-- What has become of the definitions so far. -/
structure Progress where
  compiled : NameMap CompiledVariable
  failures : NameMap Failure

/-- The first definition that this one refers to and that failed. -/
def failedDependency (names : List String) (g : Digraph) (failures : NameMap Failure)
    (name : String) : Option String :=
  ((g.successors (names.idxOf name)).map fun i => names.getD i "").find? failures.contains

/-- Compiles a definition behind those that it refers to. -/
def compileOne (c : Context) (names : List String) (g : Digraph) (p : Progress) (name : String) :
    Progress :=
  if p.failures.contains name then p
  else
    match failedDependency names g p.failures name with
    | some dependency => { p with failures := p.failures.insert name (.upstreamFailed dependency) }
    | none =>
      match c.parsed.get? name with
      | none => p
      | some e =>
        match lower c (nesting c.parsed + e.height) e .empty with
        | .ok (store, root) => { p with compiled := p.compiled.insert name ⟨name, e, store, root⟩ }
        | .error f => { p with failures := p.failures.insert name f }

/-- Compiles all definitions. -/
def compile (functions : Functions) (source : Source) (definitions : Definitions) : Compilation :=
  let names := definitions.keys
  let (parsed, failures) := parseAll definitions
  let (g, failures) := linkAll source definitions parsed failures
  let failures := failCycles names g failures
  let order := (g.sort.order.map fun i => names.getD i "").filter fun name =>
    !(failures.get? name).any Failure.isCycle
  let p :=
    order.foldl (compileOne ⟨functions, source, definitions, parsed⟩ names g) ⟨.empty, failures⟩
  ⟨p.compiled, p.failures, order, names, g⟩

/-- The definitions that a definition refers to. -/
def dependencies (c : Compilation) (name : String) : List String :=
  if c.names.contains name then
    (c.references.successors (c.names.idxOf name)).map fun i => c.names.getD i ""
  else []

/-- The definitions that refer to a definition. -/
def dependents (c : Compilation) (name : String) : List String :=
  if c.names.contains name then
    (c.references.predecessors (c.names.idxOf name)).map fun i => c.names.getD i ""
  else []

end Compilation
end Concord
