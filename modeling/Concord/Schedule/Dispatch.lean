import Concord.Schedule.Coordinator

/-! A run over some jobs. One worker evaluates a piece of work while its chunks are written, and
    stops when the job has failed. Several workers evaluate their pieces to the end; what they give
    is written in the order of the pieces. -/

namespace Concord.Dispatch

variable {σ : Type}

/-- What a run needs to know. `cancelled` tells from the state of the destination whether the run is
    to end. -/
structure Context (σ : Type) where
  source : Source
  converter : Measure.Converter
  coordination : Coordinator.Context σ
  workers : Nat
  cancelled : σ → Bool

/-- The evaluation of a piece of work. -/
def evaluation (c : Context σ) (j : Job) (item : WorkItem) : Traced Failure Unit :=
  let e := Engine.ofVariable j.resolved j.plan c.source c.converter
  match item with
  | .whole _ => do discard e.run
  | .chunk _ index => do Traced.emit index (← e.runChunk index)

/-- A coordinator, and whether it has told the producer to stop. -/
structure Consumer (σ : Type) where
  coordinator : Coordinator σ
  stopped : Bool

/-- Hands a chunk to the coordinator. -/
def consume (c : Context σ) (job index : Nat) (data : Grid Double) (k : Consumer σ) :
    Consumer σ × Option Failure :=
  let next := k.coordinator.handle c.coordination (.chunk job index data)
  if c.workers ≤ 1 ∧ next.flow job = .stop then (⟨next, true⟩, some .cancelled)
  else (⟨next, k.stopped⟩, none)

/-- The coordinator and the readings after a piece of work. -/
def runItem (c : Context σ) (j : Job) (k : Coordinator σ) (item : WorkItem) :
    Coordinator σ × List Reading :=
  let d := (evaluation c j item).deliver (consume c item.job) ⟨k, false⟩
  match d.outcome with
  | .error f =>
    if d.state.stopped then (d.state.coordinator, d.reads)
    else (d.state.coordinator.handle c.coordination (.failed item.job f), d.reads)
  | .ok () => (d.state.coordinator, d.reads)

/-- Runs a piece of work, unless the run is cancelled. -/
def step (c : Context σ) (s : Coordinator σ × List Reading) (item : WorkItem) :
    Coordinator σ × List Reading :=
  if c.cancelled s.1.state then (s.1.handle c.coordination (.cancelled item.job), s.2)
  else
    match c.coordination.jobs[item.job]? with
    | none => s
    | some j =>
      let (k, reads) := runItem c j s.1 item
      (k, s.2 ++ reads)

/-- Runs all jobs, split into pieces by a threshold. -/
def run (c : Context σ) (threshold : Option Nat) (state : σ) (report : Report) :
    Coordinator σ × List Reading :=
  let items := WorkItem.ofJobs c.coordination.jobs threshold
  let (k, reads) := items.foldl (step c) (Coordinator.start c.coordination state report, [])
  (k.finish c.coordination, reads)

end Concord.Dispatch
