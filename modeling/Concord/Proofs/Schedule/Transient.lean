import Concord.Proofs.Schedule.AnyOrder
import Concord.Proofs.Schedule.LockStep

/-! Refusals that pass and refusals that last. As long as every request is granted in one of its tries, a run is
    that with a destination that never refuses. A request that is refused every time ends its job, and the
    others do not feel it. A request to abandon an output is made once, whatever the answer. -/

namespace Concord

variable {σ τ : Type}

/-! ### Requests given up -/

/-- A request, other than to abandon an output, was refused `n + 1` times one after the other, at last with `e`. -/
def GivesUp (n : Nat) (log : List Answer) (r : Request) (e : WriterError) : Prop :=
  r.isAbandon = false ∧ ∃ answers, Tried r n (.error e) answers ∧ answers <:+: log

/-- The requests that had an effect: those that were granted, and those to abandon an output. -/
def effects (log : List Answer) : List Request :=
  (log.filter fun a => a.outcome.isOk || a.request.isAbandon).map (·.request)

@[simp] theorem effects_append (a b : List Answer) : effects (a ++ b) = effects a ++ effects b := by simp [effects]

/-- Where nothing is abandoned, only grants have effects. -/
theorem effects_eq_grants {log : List Answer} (h : ∀ r ∈ asked log, r.isAbandon = false) :
    effects log = grants log := by
  unfold effects grants
  congr 1
  refine List.filter_congr fun a ha => ?_
  rw [h a.request (List.mem_map_of_mem ha), Bool.or_false]

/-- What has no such answer lies before or behind it. -/
theorem infix_of_append_cons {α : Type} {l p q : List α} {a : α} (h : l <:+: p ++ a :: q) (ha : a ∉ l) :
    l <:+: p ∨ l <:+: q := by
  obtain ⟨s, t, h⟩ := h
  rcases List.append_eq_append_iff.mp h with ⟨as, rfl, -⟩ | ⟨cs, hcs, hq⟩
  · exact .inl ⟨s, as, rfl⟩
  rcases cs with _ | ⟨b, cs⟩
  · rw [List.append_nil] at hcs
    exact .inl ⟨s, [], by rw [List.append_nil, hcs]⟩
  · rw [List.cons_append, List.cons.injEq] at hq
    obtain ⟨rfl, rfl⟩ := hq
    rcases List.append_eq_append_iff.mp hcs with ⟨as, -, rfl⟩ | ⟨us, -, hus⟩
    · exact absurd (by simp) ha
    · rcases us with _ | ⟨u, us⟩
      · rw [List.nil_append] at hus
        exact absurd (hus ▸ List.mem_cons_self) ha
      · rw [List.cons_append, List.cons.injEq] at hus
        exact .inr ⟨us, t, by rw [hus.2]⟩

namespace Tried
variable {r q : Request} {n : Nat} {e e' : WriterError} {answers : List Answer}

/-- A request that is granted was refused at most `n` times before. -/
theorem granted_split (h : Tried r n (.ok ()) answers) :
    ∃ failed, answers = failed ++ [⟨r, .ok ()⟩] ∧ failed.length ≤ n := by
  generalize ho : (Except.ok () : Except WriterError Unit) = outcome at h
  induction h with
  | granted => exact ⟨[], rfl, Nat.zero_le _⟩
  | refused => cases ho
  | again _ ih =>
    obtain ⟨failed, rfl, hle⟩ := ih ho
    exact ⟨_ :: failed, rfl, Nat.succ_le_succ hle⟩

/-- A request that is given up was refused `n + 1` times. -/
theorem refused_split (h : Tried r n (.error e) answers) :
    answers.length = n + 1 ∧ (∀ a ∈ answers, a.request = r ∧ a.outcome.isOk = false) ∧
      ∃ failed, answers = failed ++ [⟨r, .error e⟩] := by
  generalize ho : (Except.error e : Except WriterError Unit) = outcome at h
  induction h with
  | granted => cases ho
  | refused =>
    cases ho
    exact ⟨rfl, fun a ha => by rw [List.mem_singleton.mp ha]; exact ⟨rfl, rfl⟩, [], rfl⟩
  | again _ ih =>
    obtain ⟨hlen, hall, failed, rfl⟩ := ih ho
    refine ⟨congrArg (· + 1) hlen, fun a ha => ?_, _ :: failed, rfl⟩
    rcases List.mem_cons.mp ha with rfl | ha
    · exact ⟨rfl, rfl⟩
    · exact hall a ha

theorem refused_unique (h : Tried r n (.error e) answers) (h' : Tried q n (.error e') answers) : e = e' := by
  obtain ⟨-, -, failed, rfl⟩ := h.refused_split
  obtain ⟨-, -, failed', heq⟩ := h'.refused_split
  have hlast := (List.append_inj' heq rfl).2
  cases hlast
  rfl

end Tried

/-! ### Logs without, and with, a request given up -/

section
variable {n job : Nat} {r q : Request} {e e' : WriterError} {rs : List Request} {log failed answers : List Answer}

/-- Between grants there are at most `n` refusals. -/
theorem Granted.not_infix (h : Granted n rs log) (hlen : answers.length = n + 1)
    (hall : ∀ a ∈ answers, a.outcome.isOk = false) :
    ∀ {failed : List Answer}, failed.length ≤ n → ¬answers <:+: log ++ failed := by
  have hshort : ∀ {failed : List Answer}, failed.length ≤ n → ¬answers <:+: failed := fun hle hin => by
    have := hin.length_le
    omega
  have hnot : ∀ q, (⟨q, .ok ()⟩ : Answer) ∉ answers := fun q hmem => by cases hall _ hmem
  induction h with
  | nil =>
    intro failed hle
    rw [List.nil_append]
    exact hshort hle
  | snoc _ htried ih =>
    intro failed hle hin
    obtain ⟨refused, rfl, hrefused⟩ := htried.granted_split
    rw [← List.append_assoc, List.append_assoc _ _ failed, List.singleton_append] at hin
    rcases infix_of_append_cons hin (hnot _) with hin | hin
    · exact ih hrefused hin
    · exact hshort hle hin

theorem Granted.not_givesUp (h : Granted n rs log) : ¬GivesUp n log r e := by
  rintro ⟨-, answers, htried, hin⟩
  obtain ⟨hlen, hall, -⟩ := htried.refused_split
  have hnil : ([] : List Answer).length ≤ n := Nat.zero_le n
  exact h.not_infix hlen (fun a ha => (hall a ha).2) hnil (by rwa [List.append_nil])

/-- The last request of a log was given up, and no other one. -/
theorem Refused.of_givesUp (h : Refused n rs q e' log) (hg : GivesUp n log r e) : e = e' := by
  obtain ⟨before, refused, hbefore, hrefused, rfl⟩ := h
  obtain ⟨-, answers, htried, hin⟩ := hg
  obtain ⟨hlen, hall, -⟩ := htried.refused_split
  have hfailed : ∀ a ∈ answers, a.outcome.isOk = false := fun a ha => (hall a ha).2
  have hlen' := hrefused.refused_split.1
  have heq : answers <:+: refused := by
    cases hbefore with
    | nil => exact hin
    | snoc hbefore hlast =>
      obtain ⟨failed, rfl, hle⟩ := hlast.granted_split
      rw [← List.append_assoc, List.append_assoc _ _ refused, List.singleton_append] at hin
      have hnot : ∀ q, (⟨q, .ok ()⟩ : Answer) ∉ answers := fun q hmem => by cases hfailed _ hmem
      exact (infix_of_append_cons hin (hnot _)).resolve_left (hbefore.not_infix hlen hfailed hle)
  cases heq.eq_of_length (hlen.trans hlen'.symm)
  exact htried.refused_unique hrefused

theorem GivesUp.of_abandoned {j : Job} {opened : Bool} {after : List Answer} (hg : GivesUp n after r e)
    (h : Coordinator.Abandoned j opened log after) : GivesUp n log r e := by
  unfold Coordinator.Abandoned at h
  split at h
  · obtain ⟨outcome, rfl⟩ := h
    obtain ⟨hr, answers, htried, hin⟩ := hg
    obtain ⟨hlen, hall, -⟩ := htried.refused_split
    have hnot : (⟨.abandon j.name, outcome⟩ : Answer) ∉ answers := fun hmem => by
      rw [← (hall _ hmem).1] at hr
      cases hr
    refine ⟨hr, answers, htried, (infix_of_append_cons hin hnot).resolve_right fun hnil => ?_⟩
    have := hnil.length_le
    rw [List.length_nil] at this
    omega
  · exact h ▸ hg

/-- A request is given up in the log of all requests as in that of the requests about its output. -/
theorem GivesUp.answersFor (hg : GivesUp n log r e) : GivesUp n (answersFor r.name log) r e := by
  obtain ⟨hr, answers, htried, s, t, rfl⟩ := hg
  refine ⟨hr, answers, htried, Concord.answersFor r.name s, Concord.answersFor r.name t, ?_⟩
  have hself : Concord.answersFor r.name answers = answers :=
    answersFor_eq_self fun q hq => congrArg Request.name (htried.request q hq)
  rw [answersFor_append, answersFor_append, hself]

theorem GivesUp.mem_asked (hg : GivesUp n log r e) : r ∈ asked log := by
  obtain ⟨-, answers, htried, hin⟩ := hg
  obtain ⟨-, -, failed, rfl⟩ := htried.refused_split
  exact List.mem_map_of_mem (hin.subset (List.mem_append_right failed (List.mem_singleton_self _)))

/-- A request that is given up leaves more than `n` refusals. -/
theorem GivesUp.lt_countP (hg : GivesUp n log r e) :
    n < log.countP fun a => !a.outcome.isOk && !a.request.isAbandon := by
  obtain ⟨hr, answers, htried, hin⟩ := hg
  obtain ⟨hlen, hall, -⟩ := htried.refused_split
  have hcount : answers.countP (fun a => !a.outcome.isOk && !a.request.isAbandon) = answers.length :=
    List.countP_eq_length.mpr fun a ha => by rw [(hall a ha).1, (hall a ha).2, hr]; rfl
  rw [← Nat.succ_le_iff, Nat.succ_eq_add_one, ← hlen, ← hcount]
  exact hin.sublist.countP_le

theorem GivesUp.append (hg : GivesUp n log r e) (more : List Answer) : GivesUp n (log ++ more) r e := by
  obtain ⟨hr, answers, htried, hin⟩ := hg
  exact ⟨hr, answers, htried, hin.trans (List.prefix_append log more).isInfix⟩

end

namespace Coordinator

/-- A job of which a request was given up has failed for that reason. -/
theorem Ended.of_givesUp {n job : Nat} {j : Job} {events : List WorkEvent} {missing : Nat → Prop} {log : List Answer}
    {status : Status} {r : Request} {e : WriterError} (h : Ended n job j events missing log status)
    (hg : GivesUp n log r e) : status = .ofFailure (.writer e) := by
  cases h with
  | complete _ _ hlog => exact absurd hg hlog.not_givesUp
  | refused _ hlog hafter => rw [hlog.of_givesUp (hg.of_abandoned hafter)]
  | stopped _ _ _ hlog hafter => exact absurd (hg.of_abandoned hafter) hlog.not_givesUp

/-! ### Steps of runs -/

/-- The same run with another destination. -/
def Context.withWriter (c : Context σ) (v : Writer τ) : Context τ := ⟨v, c.jobs, c.retries⟩

section
variable {c : Context σ} {s : σ} {report : Report} {events : List WorkEvent}

/-- Two runs over the same events stay related if what is done for a job keeps the relation, or makes the first run
    one of which nothing more is asked. -/
theorem ran_related {v : Writer τ} {u : τ} {R : Logged σ → Logged τ → Prop} {X : Logged σ → Prop}
    (hnames : ∀ j ∈ c.jobs, j.header.name = j.name)
    (hhandle : ∀ e j k t, c.jobs[e.job]? = some j → R k t →
      R (handle c.logged k e) (handle (c.withWriter v).logged t e) ∨ X (handle c.logged k e))
    (hfinish : ∀ p k t, c.jobs[p.2]? = some p.1 → R k t →
      R (finishJob c.logged k p) (finishJob (c.withWriter v).logged t p))
    (hbroken : ∀ i j k t, c.jobs[i]? = some j → Confined c.writer i j.name k t → X k → X t)
    (hstart : R (start c.logged (s, []) report) (start (c.withWriter v).logged (u, []) report)) :
    R (ran c s report events) (ran (c.withWriter v) u report events) ∨ X (ran c s report events) := by
  have hhandle' : ∀ e k t, R k t ∨ X k →
      R (handle c.logged k e) (handle (c.withWriter v).logged t e) ∨ X (handle c.logged k e) := by
    intro e k t h
    rcases handle_cases hnames k e with ⟨hnone, hsame⟩ | ⟨j, hj, hconfined⟩
    · have hsame' : handle (c.withWriter v).logged t e = t := by
        unfold handle
        rw [show (c.withWriter v).logged.jobs[e.job]? = none from hnone]
      rwa [hsame, hsame']
    · exact h.elim (hhandle e j k t hj) fun hx => .inr (hbroken _ _ _ _ hj hconfined hx)
  have hevents : ∀ (events : List WorkEvent) k t, R k t ∨ X k →
      R (events.foldl (handle c.logged) k) (events.foldl (handle (c.withWriter v).logged) t) ∨
        X (events.foldl (handle c.logged) k) := by
    intro events
    induction events with
    | nil => exact fun _ _ => id
    | cons e events ih => exact fun k t h => ih _ _ (hhandle' e k t h)
  have hjobs : ∀ (l : List (Job × Nat)) k t, (∀ p ∈ l, c.jobs[p.2]? = some p.1) → R k t ∨ X k →
      R (l.foldl (finishJob c.logged) k) (l.foldl (finishJob (c.withWriter v).logged) t) ∨
        X (l.foldl (finishJob c.logged) k) := by
    intro l
    induction l with
    | nil => exact fun _ _ _ => id
    | cons p l ih =>
      intro k t hl h
      have hp := hl p List.mem_cons_self
      refine ih _ _ (fun q hq => hl q (List.mem_cons_of_mem _ hq)) ?_
      exact h.imp (hfinish p k t hp) (hbroken _ _ _ _ hp (fail_confined p.2 p.1.name _))
  unfold ran
  rw [finish_eq, finish_eq]
  exact hjobs _ _ _ (fun p hp => List.mem_zipIdx_iff_getElem?.mp hp) (hevents events _ _ (.inl hstart))

/-- What is kept by all that is done for a job holds in the end. -/
theorem ran_induction {P : Logged σ → Prop} (hnames : ∀ j ∈ c.jobs, j.header.name = j.name)
    (hstep : ∀ i j k t, c.jobs[i]? = some j → Confined c.writer i j.name k t → P k → P t)
    (hstart : P (start c.logged (s, []) report)) : P (ran c s report events) :=
  (ran_related (v := c.writer) (u := s) (R := fun k _ => P k) (X := fun _ => False) hnames
    (fun _ j k _ hj h => .inl (hstep _ _ k _ hj (handle_confined hj (hnames j (List.mem_of_getElem? hj))) h))
    (fun p k _ hp h => hstep _ _ k _ hp (fail_confined p.2 p.1.name _) h) (fun _ _ _ _ _ _ h => h)
    hstart).resolve_right id

/-- All requests of a run are about outputs of its jobs. -/
theorem ran_asked (hnames : ∀ j ∈ c.jobs, j.header.name = j.name) :
    ∀ r ∈ asked (ran c s report events).state.2, ∃ (i : Nat) (j : Job), c.jobs[i]? = some j ∧ j.name = r.name := by
  refine ran_induction
    (P := fun k => ∀ r ∈ asked k.state.2, ∃ (i : Nat) (j : Job), c.jobs[i]? = some j ∧ j.name = r.name) hnames
    (fun i j k t hj hconfined h r hr => ?_) fun r hr => absurd hr List.not_mem_nil
  obtain ⟨more, hmore, hnamed⟩ := hconfined.log
  rw [hmore, asked_append] at hr
  rcases List.mem_append.mp hr with hr | hr
  · exact h r hr
  · exact ⟨i, j, hj, (hnamed r hr).symm⟩

end

/-! ### A destination that never refuses -/

end Coordinator

/-- A destination that grants every request. -/
def Writer.Willing (v : Writer τ) : Prop := ∀ r u, (v.ask r u).2 = .ok ()

theorem Writer.Willing.note {v : Writer τ} (hv : v.Willing) (r : Request) (u : τ × List Answer) :
    v.note r u = (((v.ask r u.1).1, u.2 ++ [⟨r, .ok ()⟩]), .ok ()) := by
  have hnote : v.note r u = (((v.ask r u.1).1, u.2 ++ [⟨r, (v.ask r u.1).2⟩]), (v.ask r u.1).2) := rfl
  rw [hnote, hv r u.1]

theorem Writer.Willing.persist {v : Writer τ} (hv : v.Willing) (r : Request) (n : Nat) (u : τ × List Answer) :
    persist (v.note r) n u = (((v.ask r u.1).1, u.2 ++ [⟨r, .ok ()⟩]), .ok ()) := by
  cases n <;> simp only [Concord.persist, hv.note]

namespace Coordinator

section
variable {c : Context σ} {v : Writer τ} {n : Nat} {j : Job}

/-- Two runs have come to the same: reports, states of jobs, and what had an effect on the destinations. -/
structure Matches (k : Logged σ) (t : Logged τ) : Prop where
  report : k.report = t.report
  states : k.states = t.states
  effects : effects k.state.2 = grants t.state.2

/-- Some request was given up. -/
def Exhausted (c : Context σ) (k : Logged σ) : Prop := ∃ r e, GivesUp c.retries k.state.2 r e

theorem Exhausted.of_confined {name : String} {k t : Logged σ} (h : Exhausted c k)
    (hk : Confined c.writer n name k t) : Exhausted c t := by
  obtain ⟨r, e, hg⟩ := h
  obtain ⟨more, hmore, -⟩ := hk.log
  exact ⟨r, e, hmore ▸ hg.append more⟩

/-- A run stays in step with that of a destination that never refuses until it gives up a request. -/
theorem Matches.inStep (hv : v.Willing) : InStep c (c.withWriter v) n n j Matches (Exhausted c) where
  jobState h := by rw [Coordinator.jobState, Coordinator.jobState, h.states]
  setJob {k t} s h := ⟨h.report, by rw [setJob, setJob, h.states], h.effects⟩
  record {k t} status h := ⟨by rw [h.report], h.states, h.effects⟩
  giveUp {k t} h := by
    refine ⟨h.report, h.states, ?_⟩
    have hasked : (c.writer.note (.abandon j.name) k.state).1.2 =
      k.state.2 ++ [⟨.abandon j.name, (c.writer.ask (.abandon j.name) k.state.1).2⟩] := rfl
    dsimp only [Context.withWriter]
    rw [hv.note, hasked, effects_append, h.effects, grants_append, grants_ok]
    simp [Concord.effects, Request.isAbandon]
  request {k t} r hr hplain h := by
    obtain ⟨answers, htried, -, hlog⟩ := persist_tried c.writer r c.retries k.state
    dsimp only [Context.withWriter]
    rw [hv.persist]
    generalize persist (c.writer.note r) c.retries k.state = a at htried hlog ⊢
    obtain ⟨s, outcome⟩ := a
    cases outcome with
    | error e =>
      refine .broken ⟨r, e, hplain, answers, htried, ?_⟩ e _
      show answers <:+: s.2
      rw [hlog]
      exact (List.suffix_append _ _).isInfix
    | ok u =>
      refine .same (.granted ⟨h.report, h.states, ?_⟩)
      have hplain' : ∀ q ∈ asked answers, q.isAbandon = false := fun q hq => htried.request q hq ▸ hplain
      show Concord.effects s.2 = grants (t.state.2 ++ [⟨r, .ok ()⟩])
      rw [hlog, effects_append, h.effects, effects_eq_grants hplain', htried.grants_ok, grants_append, grants_ok]
  broken {k} f h := h.of_confined (fail_confined n j.name f)

theorem ran_matches (s : σ) (u : τ) (report : Report) (events : List WorkEvent)
    (hnames : ∀ j ∈ c.jobs, j.header.name = j.name) (hv : v.Willing) :
    Matches (ran c s report events) (ran (c.withWriter v) u report events) ∨ Exhausted c (ran c s report events) := by
  refine ran_related hnames (fun e j k t hj h => ?_) (fun p k t hp h => ?_)
    (fun i j k t _ hk h => h.of_confined hk) ⟨rfl, rfl, rfl⟩
  · have hstep := (Matches.inStep (c := c) hv).handle (hnames j (List.mem_of_getElem? hj)) hj hj rfl h
    rwa [WorkEvent.renumbered_job] at hstep
  · unfold finishJob
    rw [Coordinator.jobState, Coordinator.jobState, h.states]
    exact (Matches.inStep (c := c) hv).fail h _

end

/-! ### Destinations that differ about other outputs -/

section
variable {c : Context σ} {v : Writer τ} {s : σ} {u : τ} {n : Nat} {j : Job} {name : String} {k k' : Logged σ}
  {t t' : Logged τ}

/-- Two runs have come to the same about a job and its output. -/
structure Parallel (c : Context σ) (s : σ) (v : Writer τ) (u : τ) (n : Nat) (name : String) (k : Logged σ)
    (t : Logged τ) : Prop where
  left : n < k.states.length ∧ Noted c s k
  right : n < t.states.length ∧ Noted (c.withWriter v) u t
  jobState : k.jobState n = t.jobState n
  report : k.report.get? name = t.report.get? name
  calls : k.calls name = t.calls name

/-- The destinations of two coordinators put to others. -/
abbrev ParallelAt (c : Context σ) (s : σ) (v : Writer τ) (u : τ) (n : Nat) (name : String) (k : Logged σ)
    (t : Logged τ) (s' : σ × List Answer) (u' : τ × List Answer) : Prop :=
  Parallel c s v u n name { k with state := s' } { t with state := u' }

/-- The answer to a request depends on what was asked for its output so far. -/
theorem Noted.reply (h : Noted c s k) (hw : c.writer.Separates s) (r : Request) :
    (c.writer.ask r k.state.1).2 = c.writer.reply s (asked (k.calls r.name)) r := by
  obtain ⟨rs, hrs⟩ := h
  obtain ⟨more, hmore, hasked⟩ := c.writer.notes_log rs (s, [])
  have hreply : (c.writer.ask r k.state.1).2 = c.writer.reply s rs r := by rw [hrs]; rfl
  rw [hreply]
  refine hw _ _ _ ?_
  rw [Coordinator.calls, asked_answersFor, requestsFor_idem, hrs, hmore, List.nil_append, hasked]

theorem Noted.note (h : Noted c s k) (r : Request) : Noted c s { k with state := (c.writer.note r k.state).1 } := by
  obtain ⟨rs, hrs⟩ := h
  exact ⟨rs ++ [r], by rw [Writer.notes_append, ← hrs]; rfl⟩

variable (hw : c.writer.Separates s) (hv : v.Separates u)
  (hreply : ∀ before r, r.name = j.name → c.writer.reply s before r = v.reply u before r)
include hw hv hreply

theorem Parallel.note {r : Request} (hr : r.name = j.name) (h : Parallel c s v u n j.name k t) :
    SameOutcome (ParallelAt c s v u n j.name k t) (c.writer.note r k.state) (v.note r t.state) := by
  have houtcome : (c.writer.ask r k.state.1).2 = (v.ask r t.state.1).2 := by
    have hright : (v.ask r t.state.1).2 = v.reply u (asked (t.calls r.name)) r := h.right.2.reply hv r
    rw [h.left.2.reply hw r, hright, hreply _ r hr, hr, h.calls]
  have hcalls : answersFor j.name (k.state.2 ++ [⟨r, (c.writer.ask r k.state.1).2⟩]) =
      answersFor j.name (t.state.2 ++ [⟨r, (v.ask r t.state.1).2⟩]) := by
    rw [answersFor_append, answersFor_append, houtcome]
    exact congrArg (· ++ _) h.calls
  have hparallel : Parallel c s v u n j.name { k with state := (c.writer.note r k.state).1 }
      { t with state := (v.note r t.state).1 } :=
    ⟨⟨h.left.1, h.left.2.note r⟩, ⟨h.right.1, h.right.2.note r⟩, h.jobState, h.report, hcalls⟩
  unfold Writer.note at hparallel ⊢
  revert houtcome hparallel
  rcases c.writer.ask r k.state.1 with ⟨s', e | _⟩ <;> rcases v.ask r t.state.1 with ⟨u', e' | _⟩ <;>
    intro houtcome hparallel <;> cases houtcome
  · exact SameOutcome.refused (R := ParallelAt c s v u n j.name k t) hparallel e
  · exact SameOutcome.granted (R := ParallelAt c s v u n j.name k t) hparallel

theorem Parallel.inStep : InStep c (c.withWriter v) n n j (Parallel c s v u n j.name) fun _ => False where
  jobState h := h.jobState
  setJob st h :=
    { left := by rw [setJob_states_length]; exact h.left
      right := by rw [setJob_states_length]; exact h.right
      jobState := by rw [jobState_setJob h.left.1, jobState_setJob h.right.1]
      report := h.report
      calls := h.calls }
  record status h := { h with report := by rw [get?_record, get?_record, h.report] }
  giveUp {k t} h := by
    match c.writer.note (.abandon j.name) k.state, v.note (.abandon j.name) t.state,
      h.note hw hv hreply (r := .abandon j.name) rfl with
    | _, _, .refused h _ => exact h
    | _, _, .granted h => exact h
  request r hr _ h := .same (SameOutcome.persist (fun _ _ h => h.note hw hv hreply hr) c.retries h)
  broken _ h := h

omit hw hv hreply in
theorem Parallel.of_confined {i : Nat} {other : String} (h : Parallel c s v u n name k t)
    (hk : Confined c.writer i other k k') (ht : Confined v i other t t') (hi : n ≠ i) (hn : name ≠ other) :
    Parallel c s v u n name k' t' where
  left := ⟨hk.length.symm ▸ h.left.1, h.left.2.of_confined hk⟩
  right := ⟨ht.length.symm ▸ h.right.1, h.right.2.of_confined ht⟩
  jobState := (hk.jobState n hi).trans (h.jobState.trans (ht.jobState n hi).symm)
  report := (hk.report name hn).trans (h.report.trans (ht.report name hn).symm)
  calls := (hk.calls hn).trans (h.calls.trans (ht.calls hn).symm)

/-- A job fares the same with destinations that answer the same about its output. -/
theorem ran_parallel {report : Report} (hsep : Separate c.jobs report) (events : List WorkEvent)
    (hn : c.jobs[n]? = some j) :
    Parallel c s v u n j.name (ran c s report events) (ran (c.withWriter v) u report events) := by
  have hstep : InStep c (c.withWriter v) n n j (Parallel c s v u n j.name) fun _ => False :=
    Parallel.inStep hw hv hreply
  refine (ran_related (R := Parallel c s v u n j.name) (X := fun _ => False) hsep.headers
    (fun e j' k t hj' h => ?_) (fun p k t hp h => ?_) (fun _ _ _ _ _ _ h => h) ?_).resolve_right id
  · by_cases he : e.job = n
    · cases (he ▸ hj').symm.trans hn
      have hhandle := hstep.handle (hsep.headers j (List.mem_of_getElem? hn)) hn hn he h
      subst he
      rwa [WorkEvent.renumbered_job] at hhandle
    · have hheader := hsep.headers j' (List.mem_of_getElem? hj')
      exact .inl (h.of_confined (handle_confined hj' hheader) (handle_confined (c := c.withWriter v) hj' hheader)
        (Ne.symm he) (hsep.name_ne hj' hn (Ne.symm he)))
  · obtain ⟨j', i⟩ := p
    by_cases hi : i = n
    · subst hi
      cases hp.symm.trans hn
      unfold finishJob
      rw [h.jobState]
      exact hstep.fail h _
    · exact h.of_confined (fail_confined i j'.name _) (fail_confined (c := c.withWriter v) i j'.name _) (Ne.symm hi)
        (hsep.name_ne hp hn (Ne.symm hi))
  · exact ⟨⟨lt_start _ report hn, [], rfl⟩, ⟨lt_start _ report hn, [], rfl⟩, rfl, rfl, rfl⟩

end

/-! ### Whole runs -/

/-- Refusals that pass leave no trace. As long as no request is given up, a run reports and effects what it does with
    a destination that never refuses. A request that is given up ends its job, and the other jobs fare as they do
    with any destination that answers the same about their outputs. -/
theorem ran_transient (c : Context σ) (s : σ) (report : Report) (events : List WorkEvent)
    (hsep : Separate c.jobs report) (hrange : InRange c.jobs events) (hw : c.writer.Separates s) :
    let k := ran c s report events
    k.forget = finish c (events.foldl (handle c) (start c s report)) ∧
    ((∀ r e, ¬GivesUp c.retries k.state.2 r e) → ∀ {τ : Type} (v : Writer τ) (u : τ), v.Willing →
      let t := ran (c.withWriter v) u report events
      k.report = t.report ∧ effects k.state.2 = grants t.state.2) ∧
    ∀ r e, GivesUp c.retries k.state.2 r e → ∃ (n : Nat) (j : Job), c.jobs[n]? = some j ∧ j.name = r.name ∧
      k.report.get? j.name = some (.ofFailure (.writer e)) ∧
      ∀ {τ : Type} (v : Writer τ) (u : τ), v.Separates u →
        (∀ before q, q.name ≠ j.name → c.writer.reply s before q = v.reply u before q) →
        let t := ran (c.withWriter v) u report events
        ∀ (i : Nat) (j' : Job), c.jobs[i]? = some j' → i ≠ n →
          k.report.get? j'.name = t.report.get? j'.name ∧ k.calls j'.name = t.calls j'.name := by
  refine ⟨?_, fun hnone τ v u hv => ?_, fun r e hg => ?_⟩
  · rw [ran, finish_forget, foldl_handle_forget]
    rfl
  · have h := (ran_matches s u report events hsep.headers hv).resolve_right
      fun ⟨r, e, hg⟩ => hnone r e hg
    exact ⟨h.report, h.effects⟩
  · obtain ⟨n, j, hn, hname⟩ := ran_asked hsep.headers r hg.mem_asked
    obtain ⟨status, hstatus, hended⟩ := ran_ended (s := s) hsep hrange hn
    refine ⟨n, j, hn, hname, ?_, fun v u hv hreply i j' hi hne => ?_⟩
    · rw [hstatus, hended.of_givesUp (hname ▸ hg.answersFor)]
    · have hother : j'.name ≠ j.name := (hsep.name_ne hi hn (Ne.symm hne)).symm
      have h := ran_parallel hw hv (fun before q hq => hreply before q (hq.trans_ne hother)) hsep events hi
      exact ⟨h.report, h.calls⟩

/-- A destination that grants all requests, and answers to those to abandon an output as it is told. -/
def granting (leave : String → Except WriterError Unit) : Writer Unit where
  has _ _ := false
  openOutput _ u := (u, .ok ())
  writeChunk _ _ _ u := (u, .ok ())
  close _ u := (u, .ok ())
  abandon name u := (u, leave name)

theorem granting_willing : (granting fun _ => .ok ()).Willing := by
  rintro (_ | _ | _ | _) u <;> rfl

/-- Another variable of two chunks. -/
def twoMore : Job :=
  Job.ofPlan ⟨"pr", .operand "pr", .empty, 0, .empty, ⟨["time"], "K", .empty⟩⟩
    ⟨some "time", 2, 1, [(0, 1), (1, 2)], [⟨true, 0, none, none⟩], 1, 0⟩ false

/-- A chunk of one element. -/
def entry (x : Double) : Grid Double := ⟨[1], #[x], rfl⟩

/-- The chunks of the two come in turns, those of the first the wrong way round. -/
def interleaved : List WorkEvent :=
  [.chunk 0 1 (entry 1), .chunk 1 0 (entry 2), .chunk 0 0 (entry 0), .chunk 1 1 (entry 3)]

theorem inRange_of_lt {n : Nat} {jobs : List Job} {events : List WorkEvent}
    (hjobs : ∀ j ∈ jobs, j.plan.outputChunks = n)
    (hevents : ∀ job index data, .chunk job index data ∈ events → index < n) : InRange jobs events := by
  intro job index data hmem j hj
  rw [hjobs j (List.mem_of_getElem? hj)]
  exact hevents job index data hmem

/-- Both are written to the memory. -/
def twoOutputs : Context Memory := ⟨Memory.writer, [twoChunks, twoMore], 1⟩

/-- The refusals of the first chunk of the first, which comes after the first of the other. -/
theorem refused_twice : ∃ after, (ran twoOutputs (Memory.empty.failWrites "tas" 2) .empty interleaved).state.2 =
    [⟨.openOutput twoMore.header, .ok ()⟩, ⟨.writeChunk "pr" 0 (entry 2), .ok ()⟩,
      ⟨.openOutput twoChunks.header, .ok ()⟩] ++
    [⟨.writeChunk "tas" 0 (entry 0), .error ⟨"tas", "injected write failure"⟩⟩,
      ⟨.writeChunk "tas" 0 (entry 0), .error ⟨"tas", "injected write failure"⟩⟩] ++ after := ⟨_, rfl⟩

/-- When writing one of the outputs fails once, that shows nowhere. When it fails twice, its job has failed, and the
    other is the same as without. -/
theorem ran_transient_interleaved :
    let failing := fun times => ran twoOutputs (Memory.empty.failWrites "tas" times) .empty interleaved
    let granted := ran (twoOutputs.withWriter (granting fun _ => .ok ())) () .empty interleaved
    ((failing 1).report = granted.report ∧ effects (failing 1).state.2 = grants granted.state.2) ∧
      (failing 2).report.get? "tas" = some (.ofFailure (.writer ⟨"tas", "injected write failure"⟩)) ∧
      (failing 2).report.get? "pr" = (failing 0).report.get? "pr" ∧
      (failing 2).calls "pr" = (failing 0).calls "pr" := by
  have hsep : Separate twoOutputs.jobs .empty := ⟨by decide, by decide, fun _ _ => rfl⟩
  have hrange : InRange twoOutputs.jobs interleaved :=
    inRange_of_lt (n := 2) (by decide) fun job index data hmem => by
      simp only [interleaved, List.mem_cons, WorkEvent.chunk.injEq, List.not_mem_nil, or_false] at hmem
      omega
  have hw := fun times => Memory.views.separates (Memory.empty.failWrites "tas" times)
  obtain ⟨-, honce, -⟩ := ran_transient twoOutputs _ .empty interleaved hsep hrange (hw 1)
  obtain ⟨-, -, htwice⟩ := ran_transient twoOutputs _ .empty interleaved hsep hrange (hw 2)
  have hcount : ((ran twoOutputs (Memory.empty.failWrites "tas" 1) .empty interleaved).state.2.countP
      fun a => !a.outcome.isOk && !a.request.isAbandon) = 1 := by decide +kernel
  have hpassing :=
    honce (fun r e hg => absurd hg.lt_countP (Nat.not_lt.mpr (Nat.le_of_eq hcount))) _ () granting_willing
  obtain ⟨after, hlog⟩ := refused_twice
  obtain ⟨n, j, hn, hname, hstatus, hothers⟩ :=
    htwice (.writeChunk "tas" 0 (entry 0)) ⟨"tas", "injected write failure"⟩
      ⟨rfl, _, .again .refused, _, after, hlog.symm⟩
  replace hname : j.name = "tas" := hname
  rw [hname] at hstatus hothers
  have hne : 1 ≠ n := fun h => by
    subst h
    cases hn
    exact absurd hname (by decide)
  have hsame : ∀ before (q : Request), q.name ≠ "tas" → Memory.writer.reply (Memory.empty.failWrites "tas" 2) before q =
      Memory.writer.reply (Memory.empty.failWrites "tas" 0) before q := fun before q hq =>
    Memory.views.reply_eq (by simp [Memory.knows, Memory.failWrites, NameMap.get?_insert, hq]) before
  exact ⟨hpassing, hstatus, hothers Memory.writer _ (hw 0) hsame 1 twoMore rfl hne⟩

/-- A request to abandon an output is not made again: that it is refused does show. -/
theorem abandon_refused_once :
    let c : Context Unit := ⟨granting fun name => .error ⟨name, "still in use"⟩, [twoChunks], 1⟩
    let events : List WorkEvent := [.chunk 0 0 (.scalar 0), .failed 0 .cancelled]
    let k := ran c () .empty events
    Separate c.jobs .empty ∧ InRange c.jobs events ∧ c.writer.Separates () ∧
      (∀ r u e, (c.writer.ask r u).2 = .error e → (c.writer.ask r u).1 = u) ∧
      (∀ r e, ¬GivesUp c.retries k.state.2 r e) ∧ (granting fun _ => .ok ()).Willing ∧
      grants k.state.2 ≠ grants (ran (c.withWriter (granting fun _ => .ok ())) () .empty events).state.2 := by
  intro c events k
  have hrange : InRange c.jobs events :=
    inRange_of_lt (n := 2) (by decide) fun job index data hmem => by
      simp only [events, List.mem_cons, WorkEvent.chunk.injEq, reduceCtorEq, List.not_mem_nil, or_false] at hmem
      omega
  have hcount : (k.state.2.countP fun a => !a.outcome.isOk && !a.request.isAbandon) = 0 := rfl
  refine ⟨⟨by decide, by decide, fun _ _ => rfl⟩, hrange, ?_, fun _ _ _ _ => rfl, fun r e hg => ?_,
    granting_willing, fun h => ?_⟩
  · rintro before other (_ | _ | _ | _) - <;> rfl
  · exact Nat.not_lt_zero _ (hcount ▸ hg.lt_countP)
  · exact absurd (congrArg List.length h) (by decide +kernel)

end Coordinator
end Concord
