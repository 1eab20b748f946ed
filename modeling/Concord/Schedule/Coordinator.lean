import Concord.Schedule.Job
import Concord.Schedule.Report

/-! The one place that uses the writer. Chunks may arrive in any order; they are written in theirs,
    and each job gets one status. -/

namespace Concord

/-- What is heard of a piece of work. -/
inductive WorkEvent where
  | chunk (job index : Nat) (data : Grid Double)
  | failed (job : Nat) (f : Failure)
  /-- It was not started, because the run was cancelled. -/
  | cancelled (job : Nat)

def WorkEvent.job : WorkEvent → Nat
  | chunk j _ _ => j
  | failed j _ => j
  | cancelled j => j

/-- How far a job is. -/
structure JobState where
  opened : Bool
  /-- The number of chunks written. -/
  next : Nat
  /-- Chunks that came before their turn. -/
  buffer : List (Nat × Grid Double)
  terminal : Bool
  succeeded : Bool

/-- What a producer of chunks should do. -/
inductive Flow where
  | proceed
  /-- The job is complete. -/
  | complete
  /-- The job has failed; more chunks are of no use. -/
  | stop
  deriving DecidableEq

structure Coordinator (σ : Type) where
  state : σ
  report : Report
  states : List JobState

namespace Coordinator

variable {σ : Type}

/-- What stays the same during a run. -/
structure Context (σ : Type) where
  writer : Writer σ
  jobs : List Job
  retries : Nat

def idle : JobState := ⟨false, 0, [], false, false⟩

def start (c : Context σ) (state : σ) (report : Report) : Coordinator σ :=
  ⟨state, report, c.jobs.map fun _ => idle⟩

def jobState (k : Coordinator σ) (job : Nat) : JobState := k.states.getD job idle

def setJob (k : Coordinator σ) (job : Nat) (s : JobState) : Coordinator σ :=
  { k with states := k.states.set job s }

/-! ### Ends of jobs -/

/-- Ends a job whose output is not complete. A writer that cannot abandon it changes nothing in
    that. -/
def abandon (c : Context σ) (k : Coordinator σ) (job : Nat) (name : String) : Coordinator σ :=
  let s := k.jobState job
  let k := k.setJob job { s with terminal := true, buffer := [] }
  if s.opened then { k with state := (c.writer.abandon name k.state).1 } else k

/-- Ends a job with a failure, unless it has ended. -/
def fail (c : Context σ) (k : Coordinator σ) (job : Nat) (name : String) (f : Failure) :
    Coordinator σ :=
  if (k.jobState job).terminal then k
  else
    let k := abandon c k job name
    { k with report := k.report.record name (.ofFailure f) }

/-- Ends a job that was not evaluated to its end: it is skipped if nothing was opened for it. -/
def cancel (c : Context σ) (k : Coordinator σ) (job : Nat) (name : String) : Coordinator σ :=
  let s := k.jobState job
  if s.terminal then k
  else if s.opened then fail c k job name .cancelled
  else
    let k := abandon c k job name
    { k with report := k.report.record name (.skipped "cancelled") }

/-! ### Chunks -/

/-- Opens the output of a job, unless it is open. -/
def ensureOpen (c : Context σ) (k : Coordinator σ) (job : Nat) (j : Job) :
    Coordinator σ × Except WriterError Unit :=
  let s := k.jobState job
  if s.opened then (k, .ok ())
  else
    match persist (c.writer.openOutput j.header) c.retries k.state with
    | (w, .error e) => ({ k with state := w }, .error e)
    | (w, .ok ()) => (({ k with state := w }).setJob job { s with opened := true }, .ok ())

/-- Writes the next chunk of a job. -/
def writeNext (c : Context σ) (k : Coordinator σ) (job : Nat) (j : Job) (data : Grid Double) :
    Coordinator σ × Except WriterError Unit :=
  match ensureOpen c k job j with
  | (k, .error e) => (k, .error e)
  | (k, .ok ()) =>
    let s := k.jobState job
    match persist (c.writer.writeChunk j.name s.next data) c.retries k.state with
    | (w, .error e) => ({ k with state := w }, .error e)
    | (w, .ok ()) => (({ k with state := w }).setJob job { s with next := s.next + 1 }, .ok ())

/-- Writes the chunks whose turn it is; the first number bounds how many there are. -/
def writeReady (c : Context σ) (job : Nat) (j : Job) :
    Nat → Coordinator σ → Coordinator σ × Except WriterError Unit
  | 0, k => (k, .ok ())
  | fuel + 1, k =>
    let s := k.jobState job
    match s.buffer.lookup s.next with
    | none => (k, .ok ())
    | some data =>
      let rest := s.buffer.filter fun p => p.1 ≠ s.next
      match writeNext c (k.setJob job { s with buffer := rest }) job j data with
      | (k, .error e) => (k, .error e)
      | (k, .ok ()) => writeReady c job j fuel k

/-- Closes the output of a job if all its chunks are written. -/
def closeIfComplete (c : Context σ) (k : Coordinator σ) (job : Nat) (j : Job) :
    Coordinator σ × Except WriterError Unit :=
  let s := k.jobState job
  if s.next = j.plan.outputChunks then
    match persist (c.writer.close j.name) c.retries k.state with
    | (w, .error e) => ({ k with state := w }, .error e)
    | (w, .ok ()) =>
      let k := ({ k with state := w }).setJob job { s with terminal := true, succeeded := true }
      ({ k with report := k.report.record j.name (.succeeded j.plan.outputChunks) }, .ok ())
  else (k, .ok ())

/-- Writes what can be written, and closes the output behind the last chunk. -/
def flush (c : Context σ) (k : Coordinator σ) (job : Nat) (j : Job) :
    Coordinator σ × Except WriterError Unit :=
  match writeReady c job j (k.jobState job).buffer.length k with
  | (k, .error e) => (k, .error e)
  | (k, .ok ()) => closeIfComplete c k job j

/-- Takes a chunk of a job. -/
def takeChunk (c : Context σ) (k : Coordinator σ) (job : Nat) (j : Job) (index : Nat)
    (data : Grid Double) : Coordinator σ :=
  let s := k.jobState job
  if s.terminal then k
  else
    let buffer := (index, data) :: s.buffer.filter fun p => p.1 ≠ index
    match flush c (k.setJob job { s with buffer }) job j with
    | (k, .ok ()) => k
    | (k, .error e) => fail c k job j.name (.writer e)

/-! ### Events -/

/-- The state of affairs behind an event. -/
def handle (c : Context σ) (k : Coordinator σ) (e : WorkEvent) : Coordinator σ :=
  match c.jobs[e.job]? with
  | none => k
  | some j =>
    match e with
    | .chunk job index data => takeChunk c k job j index data
    | .failed job f => fail c k job j.name f
    | .cancelled job => cancel c k job j.name

/-- What the producer of a job's chunks should do. -/
def flow (k : Coordinator σ) (job : Nat) : Flow :=
  let s := k.jobState job
  if s.terminal then (if s.succeeded then .complete else .stop) else .proceed

/-- Ends all jobs that have not ended. -/
def finish (c : Context σ) (k : Coordinator σ) : Coordinator σ :=
  c.jobs.zipIdx.foldl (fun k p =>
    fail c k p.2 p.1.name (.chunkEvaluation (k.jobState p.2).next "output incomplete")) k

end Coordinator
end Concord
