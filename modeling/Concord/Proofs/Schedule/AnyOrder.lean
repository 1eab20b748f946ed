import Concord.Proofs.Schedule.Pieces
import Concord.Proofs.Schedule.Replies
import Concord.Proofs.Schedule.Safety

/-! Runs of the same jobs in any order. A job that evaluates is written the same way and gets the same
    status, however the jobs are split and the events of the pieces are mixed; one that does not fails. -/

namespace Concord.Coordinator

variable {σ : Type}

/-! ### What becomes of a job with some data -/

/-- The calls about the output of a job whose chunks are `data`, and its status, if outputs are answered as
    `f` says. -/
def reported (f : Replies) (n : Nat) (j : Job) (data : List (Grid Double)) : List Answer × Status :=
  match perform f n (session j data) [] with
  | (log, .ok ()) => (log, .succeeded j.plan.outputChunks)
  | (log, .error e) =>
    (if (grants log).isEmpty then log else log ++ [⟨.abandon j.name, f (asked log) (.abandon j.name)⟩],
      .ofFailure (.writer e))

section
variable {f : Replies} {n job : Nat} {j : Job} {events : List WorkEvent} {missing : Nat → Prop}
  {data heard : List (Grid Double)} {log : List Answer} {status : Status}

/-- All that is heard of a job are these data, each chunk in its place. -/
structure Hears (job : Nat) (j : Job) (events : List WorkEvent) (data : List (Grid Double)) : Prop where
  length : data.length = j.plan.outputChunks
  chunks : ∀ i g, .chunk job i g ∈ events ↔ data[i]? = some g
  failed : ∀ f, .failed job f ∉ events
  cancelled : .cancelled job ∉ events

theorem Hears.prefix_of_heard (h : Hears job j events data) (hd : Heard job events heard) : heard <+: data := by
  rw [List.prefix_iff_getElem?]
  intro i hi
  exact (h.chunks i _).mp (hd i _ (List.getElem?_eq_getElem hi))

theorem Hears.not_missing (h : Hears job j events data) (hpos : 0 < j.plan.outputChunks) {i : Nat}
    (hi : i ≤ j.plan.outputChunks) : ¬Missing job j events i := by
  rintro ⟨hchunk, hall⟩
  rcases Nat.lt_or_eq_of_le hi with hlt | heq
  · exact hchunk _ ((h.chunks i _).mpr (List.getElem?_eq_getElem (h.length ▸ hlt)))
  · exact absurd (hall heq) (Nat.ne_of_gt hpos)

/-- Requests for the data that were heard begin those for all data. -/
theorem Hears.session_of_within (h : Hears job j events data) {rs : List Request} {r : Request}
    (hrs : Within j job events (rs ++ [r])) : ∃ more, session j data = rs ++ r :: more := by
  obtain ⟨heard, hd, hcase⟩ := hrs
  have hsub : rs ++ [r] <+: session j data := by
    rcases hcase with ⟨-, hsub⟩ | ⟨hlen, heq⟩
    · exact (hsub.trans (opening_mono (h.prefix_of_heard hd))).trans (List.prefix_append ..)
    · have hall : heard = data :=
        (h.prefix_of_heard hd).eq_of_length (hlen.trans h.length.symm)
      exact ⟨[], by rw [List.append_nil, heq, hall]⟩
  obtain ⟨more, hmore⟩ := hsub
  exact ⟨more, by rw [← hmore, List.append_assoc, List.singleton_append]⟩

/-- A job whose data are all heard of ends the way its data and the destination say. -/
theorem Ended.eq_reported (h : Ended n job j events (Missing job j events) log status)
    (hd : Hears job j events data) (hpos : 0 < j.plan.outputChunks) (ht : Truthful f log) :
    (log, status) = reported f n j data := by
  cases h with
  | @complete heard _ hlen hdata hlog =>
    have hall : heard = data := (hd.prefix_of_heard hdata).eq_of_length (hlen.trans hd.length.symm)
    subst hall
    simp only [reported, hlog.perform ht]
  | @refused rs r e before _ hrs hlog hafter =>
    obtain ⟨more, hmore⟩ := hd.session_of_within hrs
    unfold Abandoned at hafter
    split at hafter
    · rename_i hne
      obtain ⟨outcome, rfl⟩ := hafter
      have houtcome : outcome = f (asked before) (.abandon j.name) := ht.outcome
      have hgrants : (grants before).isEmpty = false := by rw [hlog.grants]; simpa using hne
      simp only [reported, hmore, hlog.perform ht.of_append, hgrants, houtcome, Bool.false_eq_true, if_false]
    · rename_i hnil
      subst hafter
      have hgrants : (grants log).isEmpty = true := by rw [hlog.grants]; simpa using hnil
      simp only [reported, hmore, hlog.perform ht, hgrants, if_true]
  | stopped hlen hdata hstop hlog hafter =>
    cases hstop with
    | failed hf => exact absurd hf (hd.failed _)
    | cancelled hc => exact absurd hc hd.cancelled
    | skipped hc => exact absurd hc hd.cancelled
    | incomplete hm => exact absurd hm (hd.not_missing hpos hlen)

/-- A job that misses a chunk and was not cancelled ends with a failure. -/
theorem Ended.isFailure (h : Ended n job j events missing log status) {i : Nat} (hi : i < j.plan.outputChunks)
    (hmiss : ∀ g, .chunk job i g ∉ events) (hc : .cancelled job ∉ events) : status.isFailure = true := by
  cases h with
  | complete hlen hdata _ => exact absurd (hdata i _ (List.getElem?_eq_getElem (hlen.symm ▸ hi))) (hmiss _)
  | refused => rfl
  | stopped _ _ hstop =>
    cases hstop with
    | failed => rfl
    | cancelled => rfl
    | skipped h => exact absurd h hc
    | incomplete => rfl

end

/-! ### Logs of runs -/

section
variable {c : Context σ} {s : σ} {report : Report} {k : Logged σ}

/-- A coordinator whose destination is what some requests have made of it. -/
def Noted (c : Context σ) (s : σ) (k : Logged σ) : Prop := ∃ rs, k.state = c.writer.notes (s, []) rs

theorem Noted.of_confined {job : Nat} {name : String} {t : Logged σ} (h : Noted c s k)
    (hk : Confined c.writer job name k t) : Noted c s t := by
  obtain ⟨rs, hrs⟩ := h
  obtain ⟨qs, -, hqs⟩ := hk.requests
  exact ⟨rs ++ qs, by rw [hqs, hrs, Writer.notes_append]⟩

theorem Noted.foldl_handle (hnames : ∀ j ∈ c.jobs, j.header.name = j.name) :
    ∀ (events : List WorkEvent) {k : Logged σ}, Noted c s k → Noted c s (events.foldl (handle c.logged) k)
  | [], _, h => h
  | e :: events, k, h => by
    refine Noted.foldl_handle hnames events ?_
    rcases handle_cases hnames k e with ⟨-, hsame⟩ | ⟨j, -, hk⟩
    · rwa [hsame]
    · exact h.of_confined hk

theorem Noted.finish (h : Noted c s k) : Noted c s (finish c.logged k) :=
  finish_induction h fun p _ _ h => h.of_confined (fail_confined p.2 p.1.name _)

/-- The run over some events, with a log of the calls. -/
def ran (c : Context σ) (s : σ) (report : Report) (events : List WorkEvent) : Logged σ :=
  finish c.logged (events.foldl (handle c.logged) (start c.logged (s, []) report))

/-- What is asked in a run is answered the way the destination answers for one output. -/
theorem ran_truthful (hw : c.writer.Separates s) (hnames : ∀ j ∈ c.jobs, j.header.name = j.name)
    (events : List WorkEvent) (name : String) :
    Truthful (c.writer.reply s) ((ran c s report events).calls name) := by
  have hstart : Noted c s (start c.logged (s, []) report) := ⟨[], rfl⟩
  obtain ⟨rs, hrs⟩ := (hstart.foldl_handle hnames events).finish
  unfold calls ran
  rw [hrs]
  exact hw.truthful name rs

theorem ran_ended {job : Nat} {j : Job} {events : List WorkEvent} (hsep : Separate c.jobs report)
    (hrange : InRange c.jobs events) (hj : c.jobs[job]? = some j) :
    ∃ status, (ran c s report events).report.get? j.name = some status ∧
      Ended c.retries job j events (Missing job j events) ((ran c s report events).calls j.name) status :=
  (finish_over hsep hj (foldl_stage hsep hj events [] hrange (start_stage s hsep hj))).ended

end

/-! ### Events of a job that has ended -/

section
variable {c : Context σ} {k : Coordinator σ} {job : Nat}

/-- A job that has ended takes no notice of what is heard of it. -/
theorem handle_terminal (h : (k.jobState job).terminal = true) {e : WorkEvent} (he : e.job = job) :
    handle c k e = k := by
  subst he
  unfold handle
  cases c.jobs[e.job]? with
  | none => rfl
  | some j =>
    cases e with
    | chunk n i g =>
      have h : (k.jobState n).terminal = true := h
      simp only [takeChunk, h, if_true]
    | failed n f =>
      have h : (k.jobState n).terminal = true := h
      simp only [fail, h, if_true]
    | cancelled n =>
      have h : (k.jobState n).terminal = true := h
      simp only [cancel, h, if_true]

theorem foldl_handle_terminal (h : (k.jobState job).terminal = true) :
    ∀ {events : List WorkEvent}, (∀ e ∈ events, e.job = job) → events.foldl (handle c) k = k
  | [], _ => rfl
  | e :: events, he => by
    rw [List.foldl_cons, handle_terminal h (he e List.mem_cons_self)]
    exact foldl_handle_terminal h fun e' he' => he e' (List.mem_cons_of_mem _ he')

theorem terminal_of_stop (h : k.flow job = .stop) : (k.jobState job).terminal = true := by
  unfold flow at h
  dsimp only at h
  split at h
  · assumption
  · cases h

end

end Concord.Coordinator
