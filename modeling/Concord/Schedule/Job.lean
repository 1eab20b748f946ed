import Concord.Evaluate.Engine
import Concord.Schedule.Writer

/-! Variables that are ready to be evaluated, and the pieces of work that they are split into. -/

namespace Concord

/-- A variable with its plan and the header of its output. -/
structure Job where
  resolved : ResolvedVariable
  plan : Plan
  header : Header

/-- The attribute that holds the text of the definition. -/
def provenanceAttribute : String := "conform_provenance"

namespace Job

/-- The header of the output of a variable. -/
def headerOf (v : ResolvedVariable) (plan : Plan) (provenance : Bool) : Header where
  name := v.name
  dims := ((v.store.layout? v.root).map (·.dims)).getD v.target.signature
  unit := v.target.units
  attributes :=
    if provenance then v.target.attributes.insert provenanceAttribute (.text v.expression.canonical)
    else v.target.attributes
  chunkDimension := if plan.rootStreamed then plan.dimension else none

def ofPlan (v : ResolvedVariable) (plan : Plan) (provenance : Bool) : Job :=
  ⟨v, plan, headerOf v plan provenance⟩

def name (j : Job) : String := j.resolved.name

end Job

/-- A piece of work: a job as a whole, or one of its chunks. -/
inductive WorkItem where
  | whole (job : Nat)
  | chunk (job chunk : Nat)
  deriving DecidableEq

namespace WorkItem

def job : WorkItem → Nat
  | whole j => j
  | chunk j _ => j

/-- The pieces of a job: its chunks if they are independent and as many as the threshold. -/
def ofJob (threshold : Option Nat) (j : Job) (number : Nat) : List WorkItem :=
  let count := j.plan.chunks.length
  if j.plan.independent && threshold.any (· ≤ count) then
    (List.range count).map (chunk number)
  else [whole number]

/-- The pieces of all jobs. -/
def ofJobs (jobs : List Job) (threshold : Option Nat) : List WorkItem :=
  jobs.zipIdx.flatMap fun p => ofJob threshold p.1 p.2

end WorkItem
end Concord
