import Concord.Proofs.Schedule.Confinement

/-! How far a job is, told by what was asked for its output. While it runs, the requests that were
    granted open the output and write the chunks in their order, and what came early waits; when it is
    over, its output is complete, or something was refused, or it was stopped. -/

namespace Concord.Coordinator

variable {σ : Type}

/-! ### What is asked for a job -/

/-- The requests that open an output and write data to it. -/
def opening (j : Job) (data : List (Grid Double)) : List Request :=
  .openOutput j.header :: data.mapIdx (Request.writeChunk j.name)

/-- The requests for a complete output. -/
def session (j : Job) (data : List (Grid Double)) : List Request := opening j data ++ [.close j.name]

/-- What has been granted of a job under way. -/
def begun (j : Job) (opened : Bool) (data : List (Grid Double)) : List Request :=
  if opened then opening j data else []

theorem opening_append (j : Job) (data : List (Grid Double)) (g : Grid Double) :
    opening j (data ++ [g]) = opening j data ++ [.writeChunk j.name data.length g] := by
  simp [opening]

theorem opening_mono {j : Job} {data more : List (Grid Double)} (h : data <+: more) :
    opening j data <+: opening j more := by
  obtain ⟨rest, rfl⟩ := h
  refine ⟨rest.mapIdx fun i => Request.writeChunk j.name (i + data.length), ?_⟩
  simp [opening, List.mapIdx_append]

theorem begun_le (j : Job) (opened : Bool) (data : List (Grid Double)) :
    begun j opened data <+: opening j data := by
  cases opened
  · exact List.nil_prefix
  · exact List.prefix_rfl

/-- The data are those of chunks that were heard of. -/
def Heard (job : Nat) (events : List WorkEvent) (data : List (Grid Double)) : Prop :=
  ∀ i g, data[i]? = some g → .chunk job i g ∈ events

theorem Heard.append {job : Nat} {events : List WorkEvent} {data : List (Grid Double)} {g : Grid Double}
    (h : Heard job events data) (hg : .chunk job data.length g ∈ events) : Heard job events (data ++ [g]) := by
  intro i x hx
  rcases Nat.lt_trichotomy i data.length with hi | hi | hi
  · exact h i x (by rwa [List.getElem?_append_left hi] at hx)
  · subst hi
    rw [List.getElem?_concat_length] at hx
    exact Option.some.inj hx ▸ hg
  · rw [List.getElem?_eq_none (by simpa using Nat.succ_le_of_lt hi)] at hx
    cases hx

theorem Heard.mono {job : Nat} {events more : List WorkEvent} {data : List (Grid Double)}
    (h : Heard job events data) (hm : events ⊆ more) : Heard job more data :=
  fun i g hi => hm (h i g hi)

/-- Requests for a job from its start on, as far as its data allow. -/
def Within (j : Job) (job : Nat) (events : List WorkEvent) (rs : List Request) : Prop :=
  ∃ data, Heard job events data ∧
    (data.length ≤ j.plan.outputChunks ∧ rs <+: opening j data ∨
      data.length = j.plan.outputChunks ∧ rs = session j data)

theorem Within.mono {j : Job} {job : Nat} {events more : List WorkEvent} {rs : List Request}
    (h : Within j job events rs) (hm : events ⊆ more) : Within j job more rs := by
  obtain ⟨data, hd, hrs⟩ := h
  exact ⟨data, hd.mono hm, hrs⟩

/-! ### A job under way -/

/-- The chunks written so far are `data`, and others may wait. -/
structure Running (c : Context σ) (job : Nat) (j : Job) (events : List WorkEvent)
    (data : List (Grid Double)) (k : Logged σ) : Prop where
  present : job < k.states.length
  live : (k.jobState job).terminal = false
  next : (k.jobState job).next = data.length
  unopened : (k.jobState job).opened = false → data = []
  within : data.length ≤ j.plan.outputChunks
  heard : Heard job events data
  early : ∀ p ∈ (k.jobState job).buffer, .chunk job p.1 p.2 ∈ events ∧ p.1 < j.plan.outputChunks
  silent : k.report.get? j.name = none
  granted : Granted c.retries (begun j (k.jobState job).opened data) (k.calls j.name)

/-- Every chunk that was heard of is written or waits. -/
def Arrived (job : Nat) (events : List WorkEvent) (data : List (Grid Double)) (k : Logged σ) : Prop :=
  ∀ i g, .chunk job i g ∈ events → i < data.length ∨ i ∈ (k.jobState job).buffer.map (·.1)

/-- Nothing can be written before another chunk comes. -/
structure Waiting (c : Context σ) (job : Nat) (j : Job) (events : List WorkEvent)
    (data : List (Grid Double)) (k : Logged σ) : Prop extends Running c job j events data k where
  arrived : Arrived job events data k
  turn : data.length ∉ (k.jobState job).buffer.map (·.1)
  unfinished : data.length = j.plan.outputChunks → j.plan.outputChunks = 0

/-- The destination has refused something; the job is about to fail. -/
structure Refusing (c : Context σ) (job : Nat) (j : Job) (events : List WorkEvent) (e : WriterError)
    (k : Logged σ) : Prop where
  present : job < k.states.length
  live : (k.jobState job).terminal = false
  silent : k.report.get? j.name = none
  refused : ∃ rs r, Within j job events (rs ++ [r]) ∧ Refused c.retries rs r e (k.calls j.name) ∧
    (k.jobState job).opened = !rs.isEmpty

/-- After a step that may be refused. -/
def Proceeds (c : Context σ) (job : Nat) (j : Job) (events : List WorkEvent) (Q : Logged σ → Prop) :
    Logged σ × Except WriterError Unit → Prop
  | (t, .ok ()) => Q t
  | (t, .error e) => Refusing c job j events e t

/-! ### A job that is over -/

/-- An output was given up if it was opened. -/
def Abandoned (j : Job) (opened : Bool) (before after : List Answer) : Prop :=
  if opened then ∃ outcome, after = before ++ [⟨.abandon j.name, outcome⟩] else after = before

/-- Why a job was ended by something other than its destination, and the status it has then.
    `missing` tells which chunk may have been waited for in vain. -/
inductive Stopped (job : Nat) (events : List WorkEvent) (missing : Nat → Prop) (next : Nat) :
    Bool → Status → Prop
  | failed {opened : Bool} {f : Failure} (h : .failed job f ∈ events) :
      Stopped job events missing next opened (.ofFailure f)
  | cancelled (h : .cancelled job ∈ events) : Stopped job events missing next true (.ofFailure .cancelled)
  | skipped (h : .cancelled job ∈ events) : Stopped job events missing next false (.skipped "cancelled")
  | incomplete {opened : Bool} (h : missing next) :
      Stopped job events missing next opened (.ofFailure (.chunkEvaluation next "output incomplete"))

/-- The calls about the output of a job that is over, and its status. -/
inductive Ended (n : Nat) (job : Nat) (j : Job) (events : List WorkEvent) (missing : Nat → Prop) :
    List Answer → Status → Prop
  | complete {data : List (Grid Double)} {log : List Answer} (hlen : data.length = j.plan.outputChunks)
      (hdata : Heard job events data) (hlog : Granted n (session j data) log) :
      Ended n job j events missing log (.succeeded j.plan.outputChunks)
  | refused {rs : List Request} {r : Request} {e : WriterError} {log after : List Answer}
      (hrs : Within j job events (rs ++ [r])) (hlog : Refused n rs r e log)
      (hafter : Abandoned j (!rs.isEmpty) log after) :
      Ended n job j events missing after (.ofFailure (.writer e))
  | stopped {data : List (Grid Double)} {opened : Bool} {log after : List Answer} {status : Status}
      (hlen : data.length ≤ j.plan.outputChunks) (hdata : Heard job events data)
      (hstop : Stopped job events missing data.length opened status)
      (hlog : Granted n (begun j opened data) log) (hafter : Abandoned j opened log after) :
      Ended n job j events missing after status

/-- A job has its status and takes no further part. -/
structure Over (c : Context σ) (job : Nat) (j : Job) (events : List WorkEvent) (missing : Nat → Prop)
    (k : Logged σ) : Prop where
  present : job < k.states.length
  terminal : (k.jobState job).terminal = true
  ended : ∃ status, k.report.get? j.name = some status ∧
    Ended c.retries job j events missing (k.calls j.name) status

/-- How far a job is between events. -/
def Stage (c : Context σ) (job : Nat) (j : Job) (events : List WorkEvent) (k : Logged σ) : Prop :=
  (∃ data, Waiting c job j events data k) ∨ Over c job j events (fun _ => False) k

/-! ### More is heard -/

section
variable {c : Context σ} {job : Nat} {j : Job} {events more : List WorkEvent} {k : Logged σ}
  {missing : Nat → Prop}

theorem Stopped.mono {missing' : Nat → Prop} {next : Nat} {opened : Bool} {status : Status}
    (h : Stopped job events missing next opened status) (hm : events ⊆ more)
    (hmiss : ∀ i, missing i → missing' i) : Stopped job more missing' next opened status := by
  cases h with
  | failed h => exact .failed (hm h)
  | cancelled h => exact .cancelled (hm h)
  | skipped h => exact .skipped (hm h)
  | incomplete h => exact .incomplete (hmiss _ h)

theorem Ended.mono {missing' : Nat → Prop} {n : Nat} {log : List Answer} {status : Status}
    (h : Ended n job j events missing log status) (hm : events ⊆ more)
    (hmiss : ∀ i, missing i → missing' i) : Ended n job j more missing' log status := by
  cases h with
  | complete hlen hdata hlog => exact .complete hlen (hdata.mono hm) hlog
  | refused hrs hlog hafter => exact .refused (hrs.mono hm) hlog hafter
  | stopped hlen hdata hstop hlog hafter =>
    exact .stopped hlen (hdata.mono hm) (hstop.mono hm hmiss) hlog hafter

theorem Over.mono {missing' : Nat → Prop} (h : Over c job j events missing k) (hm : events ⊆ more)
    (hmiss : ∀ i, missing i → missing' i) : Over c job j more missing' k := by
  obtain ⟨status, hstatus, hended⟩ := h.ended
  exact ⟨h.present, h.terminal, status, hstatus, hended.mono hm hmiss⟩

theorem Running.mono {data : List (Grid Double)} (h : Running c job j events data k) (hm : events ⊆ more) :
    Running c job j more data k :=
  { h with
    heard := h.heard.mono hm
    early := fun p hp => ⟨hm (h.early p hp).1, (h.early p hp).2⟩ }

end

end Concord.Coordinator
