import Concord.Evaluate.Align
import Concord.Evaluate.Ledger
import Concord.Evaluate.Plan
import Concord.Evaluate.Traced

/-! Evaluation of a resolved variable by its plan: pass by pass, and in each pass chunk by chunk.
    Values that do not depend on the chunk are settled once. Reductions along the cut dimension are
    fed in one pass and settled at its end. -/

namespace Concord

/-- What an evaluation needs to know. -/
structure Engine where
  store : NodeStore
  native : NameMap Signature
  plan : Plan
  source : Source
  converter : Measure.Converter

/-- What one pass does for each chunk. -/
structure Schedule where
  /-- The streamed nodes to evaluate, parents first. -/
  steps : List Nat
  /-- The reductions to feed. -/
  sinks : List Nat
  emitsRoot : Bool
  /-- How often the value of each node is read. -/
  uses : List Nat

/-- What stays from chunk to chunk. -/
structure RunState where
  /-- The values that do not depend on the chunk, as far as they are known. -/
  settled : List (Option (Grid Double))
  scans : List ScanState

namespace Engine

/-- The engine for a variable. -/
def ofVariable (v : ResolvedVariable) (plan : Plan) (source : Source)
    (converter : Measure.Converter) : Engine :=
  ⟨v.store, v.native, plan, source, converter⟩

def initial (e : Engine) : RunState :=
  ⟨List.replicate e.store.count none, List.replicate e.store.count none⟩

/-! ### Schedules -/

/-- The reductions that a pass feeds. -/
def sinks (e : Engine) (pass : Nat) : List Nat :=
  (List.range e.store.count).filter fun id =>
    e.plan.accumulates id && (e.plan.role id).level == pass + 1

def emitsRoot (e : Engine) (pass : Nat) : Bool :=
  e.plan.rootStreamed && (e.plan.role e.plan.root).level == pass

/-- What a pass does. -/
def schedule (e : Engine) (pass : Nat) : Schedule :=
  let sinks := e.sinks pass
  let emitsRoot := e.emitsRoot pass
  let wanted := sinks.flatMap e.store.parents ++ if emitsRoot then [e.plan.root] else []
  let steps := e.store.reachedThrough e.plan.streamed wanted
  let readings := (steps ++ sinks).flatMap e.store.parents ++ if emitsRoot then [e.plan.root] else []
  let uses := (List.range e.store.count).map fun id =>
    if e.plan.streamed id then readings.count id else 0
  ⟨steps, sinks, emitsRoot, uses⟩

/-! ### One node -/

def layout (e : Engine) (id : Nat) : Except EvaluationFault Layout :=
  match e.store.layout? id with
  | some a => .ok a
  | none => .error (.noLayout id)

def firstParent (e : Engine) (id : Nat) : Except EvaluationFault Nat :=
  match e.store.parents id with
  | p :: _ => .ok p
  | [] => .error (.nodeOperand id)

/-- The first of some values. -/
def firstInput (what : String) : List (Grid Double) → Except EvaluationFault (Grid Double)
  | g :: _ => .ok g
  | [] => .error (.noOperand what)

/-- The bounds within which a streamed input is read, by the name that its axis has at the
    source. -/
def boundsFor (e : Engine) (id : Nat) (name : String) (dims : Signature) (chunk : Option Nat) :
    Except EvaluationFault (Option Bounds) :=
  match chunk, e.plan.dimension with
  | some c, some d =>
    if e.plan.streamed id then
      match dims.position d with
      | none => .error (.inputDimension name d)
      | some axis =>
        let native := ((e.native.get? name).bind fun s => (s[axis]?).map (·.name)).getD d
        let (start, stop) := e.plan.chunks.getD c (0, 0)
        .ok (some ⟨native, start, stop⟩)
    else .ok none
  | _, _ => .ok none

/-- Reads an input, or its part for a chunk. -/
def readInput (e : Engine) (id : Nat) (name : String) (chunk : Option Nat) :
    Traced EvaluationFault (Grid Double) := do
  let a ← Traced.ofExcept (e.layout id)
  let bounds ← Traced.ofExcept (e.boundsFor id name a.dims chunk)
  let value ← (Traced.fetch e.source name bounds).mapError .unreadable
  if value.axes ≠ a.dims.length then Traced.fail (.inputAxes name value.axes a.dims.length)
  else pure value

/-- The array and the axis that a reduction or scan works on. -/
def along (e : Engine) (id : Nat) (inputs : List (Grid Double)) (options : CallOptions) :
    Except EvaluationFault (Grid Double × Nat) := do
  let input ← firstInput "missing operand" inputs
  match options.text? "dim" with
  | none => .error .noDimOption
  | some d =>
    let a ← e.layout (← e.firstParent id)
    match a.dims.position d with
    | none => .error (.noDimension d)
    | some axis => .ok (input, axis)

/-- The arrays of a call with the axes of its result. -/
def aligned (e : Engine) (id : Nat) (inputs : List (Grid Double)) :
    Except EvaluationFault (List (Grid Double)) := do
  let out ← e.layout id
  let dims ← (e.store.parents id).mapM fun p => (e.layout p).map (·.dims)
  Align.alignAll (dims.zip inputs) out.dims

/-- The value of a call whose arrays are there as a whole. -/
def call (e : Engine) (id : Nat) (function : String) (options : CallOptions)
    (inputs : List (Grid Double)) : Except EvaluationFault (Grid Double) :=
  match (e.plan.role id).kernel with
  | some (.map f) => do (f.apply options (← e.aligned id inputs)).mapError .kernel
  | some (.reduce r) => do
    let (input, axis) ← e.along id inputs options
    ((Accumulator.start r).feed input axis).finish.mapError .kernel
  | some (.scan s) => do
    let (input, axis) ← e.along id inputs options
    .ok ((ScanState.start s).step input axis).1
  | _ => .error (.noKernel function)

/-- The value of an array in another unit. -/
def convert (e : Engine) (source target : String) (inputs : List (Grid Double)) :
    Except EvaluationFault (Grid Double) := do
  let input ← firstInput "conversion without operand" inputs
  match e.converter.conversion source target with
  | some f => .ok (input.map f)
  | none => .error (.conversion source target)

/-- The value of a node, given those of its parents. -/
def evaluate (e : Engine) (id : Nat) (inputs : List (Grid Double)) (chunk : Option Nat) :
    Traced EvaluationFault (Grid Double) :=
  match e.store.kind? id with
  | some (.literal x) => pure (Grid.scalar x)
  | some (.operand name) => e.readInput id name chunk
  | some (.convert source target) => Traced.ofExcept (e.convert source target inputs)
  | some (.transpose p) =>
    Traced.ofExcept ((firstInput "transpose without operand" inputs).map fun g => g.permute p.axes)
  | some (.call function options) => Traced.ofExcept (e.call id function options inputs)
  | none => Traced.fail (.noLayout id)

/-! ### Values that do not depend on the chunk -/

/-- The settled values of some nodes. -/
def settledInputs (settled : List (Option (Grid Double))) (parents : List Nat) :
    Except EvaluationFault (List (Grid Double)) :=
  parents.mapM fun p =>
    match settled.getD p none with
    | some g => .ok g
    | none => .error (.noValue p)

/-- Settles a node after those that it depends on. Parents have smaller numbers, so the number of
    nodes bounds the depth. -/
def settle (e : Engine) : Nat → Nat → List (Option (Grid Double)) →
    Traced EvaluationFault (List (Option (Grid Double)))
  | 0, id, _ => Traced.fail (.notFinalized id)
  | fuel + 1, id, settled =>
    if (settled.getD id none).isSome then pure settled
    else if e.plan.accumulates id then Traced.fail (.notFinalized id)
    else do
      let settled ← (e.store.parents id).foldlM (fun settled p => settle e fuel p settled) settled
      let inputs ← Traced.ofExcept (settledInputs settled (e.store.parents id))
      let value ← e.evaluate id inputs none
      pure (settled.set id (some value))

/-- Settles those of some nodes that do not depend on the chunk. -/
def settleAll (e : Engine) (ids : List Nat) (settled : List (Option (Grid Double))) :
    Traced EvaluationFault (List (Option (Grid Double))) :=
  (ids.filter fun id => !e.plan.streamed id).foldlM
    (fun settled id => e.settle (e.store.count + 1) id settled) settled

/-! ### One chunk -/

/-- The values of the parents of a node. -/
def inputsOf (e : Engine) (ledger : Ledger (Grid Double)) (settled : List (Option (Grid Double)))
    (parents : List Nat) : Except EvaluationFault (List (Grid Double)) :=
  parents.mapM fun p =>
    match if e.plan.streamed p then ledger.get? p else settled.getD p none with
    | some g => .ok g
    | none => .error (.notAvailable p)

/-- The value of a streamed node for a chunk. -/
def stepValue (e : Engine) (chunk id : Nat) (inputs : List (Grid Double)) (scans : List ScanState) :
    Traced EvaluationFault (Grid Double × List ScanState) :=
  match (e.plan.role id).carried, (e.plan.role id).kernel with
  | some axis, some (.scan _) => do
    let input ← Traced.ofExcept (firstInput "scan without operand" inputs)
    let (value, state) := (scans.getD id none).step input axis
    pure (value, scans.set id state)
  | some _, _ => Traced.fail (.notScan id)
  | none, _ => do
    let value ← e.evaluate id inputs (some chunk)
    pure (value, scans)

/-- The ledger after the parents of a node were read. -/
def releaseParents (e : Engine) (parents : List Nat) (ledger : Ledger (Grid Double)) :
    Ledger (Grid Double) :=
  (parents.filter e.plan.streamed).foldl Ledger.release ledger

/-- Evaluates a streamed node for a chunk. -/
def stepNode (e : Engine) (chunk : Nat) (s : Ledger (Grid Double) × RunState) (id : Nat) :
    Traced EvaluationFault (Ledger (Grid Double) × RunState) := do
  let (ledger, state) := s
  let parents := e.store.parents id
  let settled ← e.settleAll parents state.settled
  let inputs ← Traced.ofExcept (e.inputsOf ledger settled parents)
  let (value, scans) ← e.stepValue chunk id inputs state.scans
  pure ((e.releaseParents parents ledger).insert id value, ⟨settled, scans⟩)

/-- Evaluates the steps of a pass for a chunk. -/
def stepChunk (e : Engine) (chunk : Nat) (schedule : Schedule) (state : RunState) :
    Traced EvaluationFault (Ledger (Grid Double) × RunState) :=
  schedule.steps.foldlM (e.stepNode chunk) (Ledger.ofUses schedule.uses, state)

/-- Feeds a reduction with its part of a chunk. -/
def feedOne (e : Engine) (s : Ledger (Grid Double) × List (Nat × Accumulator))
    (a : Nat × Accumulator) :
    Except EvaluationFault (Ledger (Grid Double) × List (Nat × Accumulator)) := do
  let parent ← e.firstParent a.1
  match (e.plan.role a.1).carried, s.1.get? parent with
  | none, _ => .error .notCarried
  | some _, none => .error .notFed
  | some axis, some value =>
    .ok (s.1.release parent, s.2 ++ [(a.1, a.2.feed value axis)])

/-- Feeds all reductions of a pass. -/
def feed (e : Engine) (ledger : Ledger (Grid Double)) (accumulators : List (Nat × Accumulator)) :
    Except EvaluationFault (Ledger (Grid Double) × List (Nat × Accumulator)) :=
  accumulators.foldlM (e.feedOne) (ledger, [])

/-! ### Passes -/

/-- A fault in a chunk as a failure of the variable. -/
def inChunk (chunk : Nat) (f : EvaluationFault) : Failure := .chunkEvaluation chunk f.message

/-- The value of the output in the ledger of a chunk. -/
def output (e : Engine) (chunk : Nat) (ledger : Ledger (Grid Double)) :
    Except Failure (Grid Double) :=
  match (ledger.take e.plan.root).1 with
  | some value => .ok value
  | none => .error (inChunk chunk .noOutput)

/-- A chunk of a pass: its steps, then the reductions, then the output. -/
def runChunkOfPass (e : Engine) (schedule : Schedule) (s : RunState × List (Nat × Accumulator))
    (chunk : Nat) : Traced Failure (RunState × List (Nat × Accumulator)) := do
  let (ledger, state) ← (e.stepChunk chunk schedule s.1).mapError (inChunk chunk)
  let (ledger, accumulators) ←
    Traced.ofExcept ((e.feed ledger s.2).mapError (inChunk chunk))
  if schedule.emitsRoot then
    Traced.emit chunk (← Traced.ofExcept (e.output chunk ledger))
  pure (state, accumulators)

/-- A reduction that has seen nothing yet. -/
def accumulator (e : Engine) (id : Nat) : Except EvaluationFault (Nat × Accumulator) :=
  match (e.plan.role id).kernel with
  | some (.reduce r) => .ok (id, Accumulator.start r)
  | _ => .error (.notReduction id)

/-- Scans start anew in each pass that has them. -/
def resetScans (e : Engine) (steps : List Nat) (scans : List ScanState) : List ScanState :=
  scans.zipIdx.map fun p =>
    if steps.contains p.2 && (e.plan.role p.2).carried.isSome then none else p.1

/-- Settles the results of reductions. -/
def finish (e : Engine) (settled : List (Option (Grid Double))) (a : Nat × Accumulator) :
    Except Failure (List (Option (Grid Double))) :=
  match a.2.finish with
  | .ok value => .ok (settled.set a.1 (some value))
  | .error reason => .error (.chunkEvaluation (e.plan.chunks.length - 1) reason)

/-- One pass over all chunks. -/
def runPass (e : Engine) (state : RunState) (pass : Nat) : Traced Failure RunState := do
  let schedule := e.schedule pass
  let accumulators ← Traced.ofExcept ((schedule.sinks.mapM e.accumulator).mapError (inChunk 0))
  let scans := e.resetScans schedule.steps state.scans
  let (state, accumulators) ← (List.range e.plan.chunks.length).foldlM (e.runChunkOfPass schedule)
    (⟨state.settled, scans⟩, accumulators)
  let settled ← Traced.ofExcept (accumulators.foldlM e.finish state.settled)
  pure ⟨settled, state.scans⟩

/-- Gives out an output that does not depend on the chunk. -/
def emitSettled (e : Engine) (state : RunState) : Traced Failure Unit := do
  let settled ← (e.settle (e.store.count + 1) e.plan.root state.settled).mapError (inChunk 0)
  match settled.getD e.plan.root none with
  | some value => Traced.emit 0 value
  | none => Traced.fail (inChunk 0 .noOutput)

/-- Evaluates the variable, giving out its chunks in order, and tells how many there were. -/
def run (e : Engine) : Traced Failure Nat := do
  let state ← (List.range e.plan.passes).foldlM e.runPass e.initial
  if e.plan.rootStreamed then pure e.plan.chunks.length
  else do
    e.emitSettled state
    pure 1

/-- Evaluates one chunk on its own, if chunks do not depend on each other. -/
def runChunk (e : Engine) (index : Nat) : Traced Failure (Grid Double) := do
  if !e.plan.independent then Traced.fail (inChunk index .dependent)
  else if e.plan.chunks.length ≤ index then
    Traced.fail (inChunk index (.noChunk e.plan.chunks.length))
  else do
    let (ledger, _) ← (e.stepChunk index (e.schedule 0) e.initial).mapError (inChunk index)
    Traced.ofExcept (e.output index ledger)

end Engine
end Concord
