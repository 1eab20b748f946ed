import Concord.Config
import Concord.Resolve.Resolution

/-! How a variable is cut into chunks and how its nodes take part. A node is streamed if it has the
    dimension that is cut; it is then evaluated chunk by chunk, all others once. A reduction along
    that dimension needs a pass over all chunks; what depends on it comes in a later pass. -/

namespace Concord

/-- How a node takes part. -/
structure Role where
  streamed : Bool
  /-- The passes that have to be over before the node can be evaluated. -/
  level : Nat
  kernel : Option Kernel
  /-- The axis along which a reduction or scan carries state from chunk to chunk. -/
  carried : Option Nat

structure Plan where
  /-- The dimension that is cut, as the output names it. -/
  dimension : Option String
  domain : Nat
  chunkLength : Nat
  /-- Start and end of each chunk. -/
  chunks : List (Nat × Nat)
  roles : List Role
  passes : Nat
  root : Nat

namespace Plan

/-! ### Roles of nodes -/

def role (p : Plan) (id : Nat) : Role := p.roles.getD id ⟨false, 0, none, none⟩

def streamed (p : Plan) (id : Nat) : Bool := (p.role id).streamed

/-- A reduction along the dimension that is cut. -/
def accumulates (p : Plan) (id : Nat) : Bool := (p.role id).carried.isSome && !p.streamed id

def rootStreamed (p : Plan) : Bool := p.streamed p.root

/-- Chunks can be evaluated in any order: the output comes in the first pass, and nothing carries
    state. -/
def independent (p : Plan) : Bool :=
  p.rootStreamed && p.passes == 1 && p.roles.all fun r => r.carried.isNone

/-- The number of chunks of the output. -/
def outputChunks (p : Plan) : Nat := if p.rootStreamed then p.chunks.length else 1

/-! ### The dimension to cut -/

/-- The inputs of a graph, by their axes. -/
def inputDims (s : NodeStore) : List Signature :=
  s.nodes.filterMap fun n =>
    if n.kind.input?.isSome then some ((n.layout.map (·.dims)).getD []) else none

/-- The one with the most elements; of several the last. -/
def largest : List Signature → Option Signature
  | [] => none
  | s :: rest =>
    let size (s : Signature) := s.elementsExcluding none
    some (rest.foldl (fun best s => if size best ≤ size s then s else best) s)

/-- The first preferred dimension that an input has, else the outermost one of the largest input. -/
def chooseDimension (preferred : List String) (inputs : List Signature) : Option String :=
  (preferred.find? fun d => inputs.any fun s => Signature.named s d) <|>
    ((largest (inputs.filter (!·.isEmpty))).bind fun s => s.head?.map (·.name))

/-- The length of a dimension: that of the first input that has it. -/
def domainOf (inputs : List Signature) (d : String) : Option Nat :=
  inputs.findSome? fun s => (Signature.dimension? s d).bind (·.length)

/-! ### Building -/

/-- The axis along which a call of a reduction or scan carries state, given the roles of the nodes
    before it. -/
def carriedAxis (s : NodeStore) (dimension : Option String) (roles : List Role) (f : FunctionSpec)
    (options : CallOptions) (parents : List Nat) : Option Nat :=
  match options.text? "dim", parents with
  | some d, parent :: _ =>
    if (f.shape = .reduce ∨ f.shape = .scan) ∧ dimension = some d ∧
        (roles[parent]?).any (·.streamed) then Signature.position (s.dims parent) d
    else none
  | _, _ => none

/-- The level of a node: the largest of its parents, one more for a reduction that carries state. -/
def levelOf (roles : List Role) (parents : List Nat) (accumulating : Bool) : Nat :=
  let level id := ((roles[id]?).map (·.level)).getD 0
  if accumulating then level (parents.getD 0 0) + 1 else (parents.map level).foldl max 0

/-- The roles so far, and the first function met that needs all chunks at once. -/
structure Progress where
  roles : List Role
  blocking : Option String

/-- Gives a node its role. -/
def addRole (functions : Functions) (s : NodeStore) (dimension : Option String) (p : Progress)
    (n : Node) : Except Failure Progress :=
  let dims := (n.layout.map (·.dims)).getD []
  let streamed := dimension.any fun d => Signature.named dims d
  match n.kind with
  | .call function options =>
    match functions.get? function n.parents.length with
    | none => .error (.unknownFunction function n.parents.length)
    | some f =>
      let carried := carriedAxis s dimension p.roles f options n.parents
      let accumulating := carried.isSome && f.shape = .reduce
      .ok
        { roles := p.roles ++
            [⟨streamed, levelOf p.roles n.parents accumulating, some f.kernel, carried⟩]
          blocking := p.blocking <|>
            if accumulating && !f.chunkAssociative then some function else none }
  | _ =>
    .ok { p with roles := p.roles ++ [⟨streamed, levelOf p.roles n.parents false, none, none⟩] }

/-- The most elements that a streamed node has per step along the dimension. -/
def elementsPerStep (s : NodeStore) (dimension : Option String) (roles : List Role) : Nat :=
  max 1 (((s.nodes.zip roles).filterMap fun p =>
    if p.2.streamed then
      some (Signature.elementsExcluding ((p.1.layout.map (·.dims)).getD []) dimension)
    else none).foldl max 0)

/-- The length of chunks: the one that is set, or what the budget allows for numbers of eight bytes;
    at least one and not more than there is. -/
def chunkLengthFor (config : Config) (perStep domain : Nat) : Nat :=
  let wanted := match config.chunkLength with
    | some n => n
    | none => config.memoryBudget / (8 * perStep % 2 ^ 64)
  max 1 (min wanted (max domain 1))

/-- The pieces of a length, the last one possibly shorter; one empty piece of nothing. -/
def cut (domain length : Nat) : List (Nat × Nat) :=
  if domain = 0 then [(0, 0)]
  else
    (List.range ((domain + length - 1) / length)).map fun i =>
      (i * length, min (i * length + length) domain)

/-- Every node has its axes and unit. -/
def hasLayouts (s : NodeStore) : Bool := s.nodes.all (·.layout.isSome)

/-- The plan of a variable. -/
def build (v : ResolvedVariable) (functions : Functions) (config : Config) :
    Except Failure Plan := do
  if !hasLayouts v.store then .error (.incompatibleOperands v.name "graph is not resolved")
  else
    let inputs := inputDims v.store
    let chosen := chooseDimension config.chunkDimensions inputs
    let length := chosen.bind (domainOf inputs)
    let dimension := if length.isSome then chosen else none
    let domain := length.getD 1
    let p ← v.store.nodes.foldlM (addRole functions v.store dimension) ⟨[], none⟩
    let chunkLength := chunkLengthFor config (elementsPerStep v.store dimension p.roles) domain
    let chunks := cut domain chunkLength
    let root := (p.roles.getD v.root ⟨false, 0, none, none⟩)
    let plan : Plan :=
      ⟨dimension, domain, chunkLength, chunks, p.roles, root.level + if root.streamed then 1 else 0,
        v.root⟩
    match p.blocking, dimension with
    | some function, some d =>
      if chunks.length > 1 then .error (.nonAssociativeReduction function d) else .ok plan
    | _, _ => .ok plan

end Plan
end Concord
