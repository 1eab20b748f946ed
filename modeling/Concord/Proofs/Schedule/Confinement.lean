import Concord.Proofs.Schedule.WriterLog

/-! Keeping a log changes nothing else: a run with a log is the run without, once the log is left out. -/

namespace Concord

variable {σ : Type}

theorem persist_note (w : Writer σ) (r : Request) :
    ∀ (n : Nat) (s : σ × List Answer),
      Prod.map Prod.fst id (persist (w.note r) n s) = persist (w.ask r) n s.1
  | 0, _ => rfl
  | n + 1, s => by
    have h : w.note r s = (((w.ask r s.1).1, s.2 ++ [⟨r, (w.ask r s.1).2⟩]), (w.ask r s.1).2) := rfl
    rw [persist, persist, h]
    rcases w.ask r s.1 with ⟨t, e | _⟩
    · exact persist_note w r n (t, _)
    · rfl

namespace Coordinator

/-- A coordinator whose destination keeps a log. -/
abbrev Logged (σ : Type) := Coordinator (σ × List Answer)

/-- The same run with a log of the calls. -/
def Context.logged (c : Context σ) : Context (σ × List Answer) := ⟨c.writer.logged, c.jobs, c.retries⟩

/-- The coordinator without the log. -/
def forget (k : Logged σ) : Coordinator σ := ⟨k.state.1, k.report, k.states⟩

section
variable {c : Context σ} {k : Logged σ} {job : Nat} {j : Job}

@[simp] theorem forget_setJob (s : JobState) : (k.setJob job s).forget = k.forget.setJob job s := rfl

@[simp] theorem forget_jobState : k.forget.jobState job = k.jobState job := rfl

theorem abandon_forget (name : String) :
    (abandon c.logged k job name).forget = abandon c k.forget job name := by
  unfold abandon
  dsimp only [forget_jobState]
  split <;> rfl

theorem fail_forget (name : String) (f : Failure) :
    (fail c.logged k job name f).forget = fail c k.forget job name f := by
  unfold fail
  rw [forget_jobState]
  split
  · rfl
  · dsimp only
    rw [← abandon_forget]
    rfl

theorem cancel_forget (name : String) :
    (cancel c.logged k job name).forget = cancel c k.forget job name := by
  unfold cancel
  dsimp only [forget_jobState]
  split
  · rfl
  · split
    · exact fail_forget name _
    · rw [← abandon_forget]
      rfl

/-- The outcome of calls and the coordinator behind them, without the log. -/
def forgetCalls : Logged σ × Except WriterError Unit → Coordinator σ × Except WriterError Unit :=
  Prod.map forget id

theorem ensureOpen_forget : forgetCalls (ensureOpen c.logged k job j) = ensureOpen c k.forget job j := by
  have h := persist_note c.writer (.openOutput j.header) c.retries k.state
  unfold ensureOpen
  dsimp only [forget_jobState]
  split
  · rfl
  · rw [show persist (c.writer.openOutput j.header) c.retries k.forget.state = _ from h.symm]
    rw [show persist (c.logged.writer.openOutput j.header) c.logged.retries k.state =
      persist (c.writer.note (.openOutput j.header)) c.retries k.state from rfl]
    rcases persist (c.writer.note (.openOutput j.header)) c.retries k.state with ⟨s, e | _⟩ <;> rfl

theorem writeNext_forget (data : Grid Double) :
    forgetCalls (writeNext c.logged k job j data) = writeNext c k.forget job j data := by
  unfold writeNext
  rw [← ensureOpen_forget]
  rcases ensureOpen c.logged k job j with ⟨t, e | _⟩
  · rfl
  · have h := persist_note c.writer (.writeChunk j.name (t.jobState job).next data) c.retries t.state
    dsimp only [forgetCalls, Prod.map, id, forget_jobState]
    rw [show persist (c.writer.writeChunk j.name (t.jobState job).next data) c.retries t.forget.state = _
      from h.symm]
    rw [show persist (c.logged.writer.writeChunk j.name (t.jobState job).next data) c.logged.retries t.state =
      persist (c.writer.note (.writeChunk j.name (t.jobState job).next data)) c.retries t.state from rfl]
    rcases persist (c.writer.note (.writeChunk j.name (t.jobState job).next data)) c.retries t.state with
      ⟨s, e | _⟩ <;> rfl

theorem writeReady_forget :
    ∀ (fuel : Nat) (k : Logged σ),
      forgetCalls (writeReady c.logged job j fuel k) = writeReady c job j fuel k.forget
  | 0, _ => rfl
  | fuel + 1, k => by
    unfold writeReady
    dsimp only [forget_jobState]
    split
    · rfl
    · rename_i data _
      rw [← forget_setJob, ← writeNext_forget]
      rcases writeNext c.logged _ job j data with ⟨t, e | _⟩
      · rfl
      · exact writeReady_forget fuel t

theorem closeIfComplete_forget :
    forgetCalls (closeIfComplete c.logged k job j) = closeIfComplete c k.forget job j := by
  have h := persist_note c.writer (.close j.name) c.retries k.state
  unfold closeIfComplete
  dsimp only [forget_jobState]
  split
  · rw [show persist (c.writer.close j.name) c.retries k.forget.state = _ from h.symm]
    rw [show persist (c.logged.writer.close j.name) c.logged.retries k.state =
      persist (c.writer.note (.close j.name)) c.retries k.state from rfl]
    rcases persist (c.writer.note (.close j.name)) c.retries k.state with ⟨s, e | _⟩ <;> rfl
  · rfl

theorem flush_forget : forgetCalls (flush c.logged k job j) = flush c k.forget job j := by
  unfold flush
  rw [forget_jobState, ← writeReady_forget]
  rcases writeReady c.logged job j _ k with ⟨t, e | _⟩
  · rfl
  · exact closeIfComplete_forget

theorem takeChunk_forget (index : Nat) (data : Grid Double) :
    (takeChunk c.logged k job j index data).forget = takeChunk c k.forget job j index data := by
  unfold takeChunk
  dsimp only [forget_jobState]
  split
  · rfl
  · rw [← forget_setJob, ← flush_forget]
    rcases flush c.logged _ job j with ⟨t, e | _⟩
    · exact fail_forget j.name (.writer e)
    · rfl

/-- An event does the same with and without a log. -/
theorem handle_forget (e : WorkEvent) : (handle c.logged k e).forget = handle c k.forget e := by
  unfold handle
  rw [show c.logged.jobs = c.jobs from rfl]
  cases c.jobs[e.job]? with
  | none => rfl
  | some j =>
    cases e with
    | chunk n index data => exact takeChunk_forget index data
    | failed n f => exact fail_forget j.name f
    | cancelled n => exact cancel_forget j.name

end

theorem foldl_handle_forget (c : Context σ) :
    ∀ (events : List WorkEvent) (k : Logged σ),
      (events.foldl (handle c.logged) k).forget = events.foldl (handle c) k.forget
  | [], _ => rfl
  | e :: events, k => by
    rw [List.foldl_cons, List.foldl_cons, ← handle_forget]
    exact foldl_handle_forget c events _

theorem finish_forget (c : Context σ) (k : Logged σ) :
    (finish c.logged k).forget = finish c k.forget := by
  unfold finish
  rw [show c.logged.jobs = c.jobs from rfl]
  generalize c.jobs.zipIdx = l
  induction l generalizing k with
  | nil => rfl
  | cons p l ih =>
    rw [List.foldl_cons, List.foldl_cons, ih, fail_forget]
    rfl

end Coordinator
end Concord

/-! What is heard of a job changes only what belongs to it: its own state, the calls about its own
    output and its own entry in the report. -/

namespace Concord.Coordinator

variable {σ : Type}

/-- The calls about an output, so far. -/
def calls (k : Logged σ) (name : String) : List Answer := answersFor name k.state.2

/-! ### States of jobs -/

section
variable {k : Coordinator σ} {s : JobState} {i job : Nat}

@[simp] theorem setJob_state : (k.setJob job s).state = k.state := rfl

@[simp] theorem setJob_report : (k.setJob job s).report = k.report := rfl

@[simp] theorem setJob_states_length : (k.setJob job s).states.length = k.states.length :=
  List.length_set

theorem jobState_setJob (h : job < k.states.length) : (k.setJob job s).jobState job = s := by
  simp [jobState, setJob, List.getD_eq_getElem?_getD, h]

theorem jobState_setJob_ne (h : i ≠ job) : (k.setJob job s).jobState i = k.jobState i := by
  simp [jobState, setJob, List.getD_eq_getElem?_getD, List.getElem?_set_ne h.symm]

/-- At the start every job is idle. -/
theorem jobState_start (c : Context σ) (s : σ) (report : Report) (i : Nat) : (start c s report).jobState i = idle := by
  rw [jobState, start, List.getD_eq_getElem?_getD, List.getElem?_map]
  cases c.jobs[i]? <;> rfl

theorem lt_start {c : Context σ} {j : Job} (s : σ) (report : Report) (h : c.jobs[job]? = some j) :
    job < (start c s report).states.length := by
  rw [start, List.length_map]
  exact (List.getElem?_eq_some_iff.mp h).1

theorem get?_record (r : Report) (name key : String) (status : Status) :
    (r.record name status).get? key =
      if key = name then some ((r.get? name).getD status) else r.get? key :=
  NameMap.get?_alter r name key _

theorem get?_record_ne {r : Report} {name key : String} {status : Status} (h : key ≠ name) :
    (r.record name status).get? key = r.get? key := by
  rw [get?_record, if_neg h]

end

/-! ### Confinement -/

/-- From `k` to `t` nothing has changed but what belongs to one job and one name, and requests were
    made about that name only. -/
structure Confined (w : Writer σ) (job : Nat) (name : String) (k t : Logged σ) : Prop where
  length : t.states.length = k.states.length
  jobState : ∀ i, i ≠ job → t.jobState i = k.jobState i
  report : ∀ other, other ≠ name → t.report.get? other = k.report.get? other
  kept : ∀ status, k.report.get? name = some status → t.report.get? name = some status
  requests : ∃ rs : List Request, (∀ r ∈ rs, r.name = name) ∧ t.state = w.notes k.state rs

namespace Confined
variable {w : Writer σ} {job : Nat} {name : String} {k t u : Logged σ}

theorem refl (k : Logged σ) : Confined w job name k k :=
  ⟨rfl, fun _ _ => rfl, fun _ _ => rfl, fun _ h => h, [], fun _ h => (nomatch h), rfl⟩

theorem trans (h₁ : Confined w job name k t) (h₂ : Confined w job name t u) : Confined w job name k u where
  length := h₂.length.trans h₁.length
  jobState i hi := (h₂.jobState i hi).trans (h₁.jobState i hi)
  report other ho := (h₂.report other ho).trans (h₁.report other ho)
  kept status h := h₂.kept status (h₁.kept status h)
  requests := by
    obtain ⟨rs, hrs, ht⟩ := h₁.requests
    obtain ⟨qs, hqs, hu⟩ := h₂.requests
    refine ⟨rs ++ qs, fun r hr => (List.mem_append.mp hr).elim (hrs r) (hqs r), ?_⟩
    rw [hu, ht, Writer.notes_append]

theorem setJob (s : JobState) : Confined w job name k (k.setJob job s) where
  length := setJob_states_length
  jobState _ hi := jobState_setJob_ne hi
  report _ _ := rfl
  kept _ h := h
  requests := ⟨[], fun _ h => (nomatch h), rfl⟩

theorem record (status : Status) :
    Confined w job name k { k with report := k.report.record name status } where
  length := rfl
  jobState _ _ := rfl
  report _ ho := get?_record_ne ho
  kept _ h := by rw [get?_record, if_pos rfl, h]; rfl
  requests := ⟨[], fun _ h => (nomatch h), rfl⟩

theorem noted (rs : List Request) {s : σ × List Answer} (hs : s = w.notes k.state rs)
    (hrs : ∀ r ∈ rs, r.name = name) : Confined w job name k { k with state := s } where
  length := rfl
  jobState _ _ := rfl
  report _ _ := rfl
  kept _ h := h
  requests := ⟨rs, hrs, hs⟩

/-- The calls about other outputs are the same. -/
theorem calls (h : Confined w job name k t) {other : String} (ho : other ≠ name) :
    t.calls other = k.calls other := by
  obtain ⟨rs, hrs, ht⟩ := h.requests
  unfold Coordinator.calls
  rw [ht]
  exact Writer.notes_answersFor fun r hr hname => ho (hname.symm.trans (hrs r hr))

/-- A status that is there stays. -/
theorem stays (h : Confined w job name k t) {other : String} {status : Status}
    (hs : k.report.get? other = some status) : t.report.get? other = some status := by
  by_cases ho : other = name
  · subst ho
    exact h.kept status hs
  · exact (h.report other ho).trans hs

/-- What is asked is about the output. -/
theorem log (h : Confined w job name k t) :
    ∃ more, t.state.2 = k.state.2 ++ more ∧ ∀ r ∈ asked more, r.name = name := by
  obtain ⟨rs, hrs, ht⟩ := h.requests
  obtain ⟨more, hmore, rfl⟩ := w.notes_log rs k.state
  exact ⟨more, by rw [ht, hmore], hrs⟩

end Confined

/-! ### What each part of the work touches -/

section
variable {c : Context σ} {k : Logged σ} (job : Nat) {j : Job}

/-- Trying a request again and again is confined to what it is about. -/
theorem persist_confined (r : Request) {s : σ × List Answer} {outcome : Except WriterError Unit}
    (h : persist (c.writer.note r) c.retries k.state = (s, outcome)) :
    Confined c.writer job r.name k { k with state := s } := by
  obtain ⟨answers, htried, hnotes, -⟩ := persist_tried c.writer r c.retries k.state
  rw [h] at hnotes
  exact Confined.noted _ hnotes fun q hq => congrArg Request.name (htried.request q hq)

/-- Giving up what was written ends the job, and asks for no more than that. -/
theorem abandon_confined (name : String) : Confined c.writer job name k (abandon c.logged k job name) := by
  unfold abandon
  dsimp only
  split
  · refine (Confined.setJob _).trans (Confined.noted [.abandon name] rfl fun r hr => ?_)
    rw [List.mem_singleton.mp hr]
    rfl
  · exact Confined.setJob _

theorem fail_confined (name : String) (f : Failure) :
    Confined c.writer job name k (fail c.logged k job name f) := by
  unfold fail
  dsimp only
  split
  · exact Confined.refl k
  · exact (abandon_confined job name).trans (Confined.record _)

theorem cancel_confined (name : String) : Confined c.writer job name k (cancel c.logged k job name) := by
  unfold cancel
  dsimp only
  split
  · exact Confined.refl k
  · split
    · exact fail_confined job name _
    · exact (abandon_confined job name).trans (Confined.record _)

theorem ensureOpen_confined (hj : j.header.name = j.name) :
    Confined c.writer job j.name k (ensureOpen c.logged k job j).1 := by
  unfold ensureOpen
  dsimp only
  split
  · exact Confined.refl k
  · split
    · rename_i s e heq
      exact hj ▸ persist_confined job (.openOutput j.header) heq
    · rename_i s heq
      have h : Confined c.writer job j.header.name k _ := persist_confined job (.openOutput j.header) heq
      exact hj ▸ h.trans (Confined.setJob _)

theorem writeNext_confined (hj : j.header.name = j.name) (data : Grid Double) :
    Confined c.writer job j.name k (writeNext c.logged k job j data).1 := by
  have hopen := ensureOpen_confined (c := c) (k := k) job hj
  unfold writeNext
  split
  · rename_i t e heq
    rwa [heq] at hopen
  · rename_i t heq
    rw [heq] at hopen
    dsimp only
    split
    · rename_i s e heq
      exact hopen.trans (persist_confined job (.writeChunk j.name (t.jobState job).next data) heq)
    · rename_i s heq
      have h := persist_confined job (.writeChunk j.name (t.jobState job).next data) heq
      exact hopen.trans (h.trans (Confined.setJob _))

theorem writeReady_confined (hj : j.header.name = j.name) :
    ∀ (fuel : Nat) (k : Logged σ), Confined c.writer job j.name k (writeReady c.logged job j fuel k).1
  | 0, k => Confined.refl k
  | fuel + 1, k => by
    unfold writeReady
    dsimp only
    split
    · exact Confined.refl k
    · rename_i data _
      split
      · rename_i t e heq
        exact (Confined.setJob _).trans (heq ▸ writeNext_confined (c := c) job hj data)
      · rename_i t heq
        have h : Confined c.writer job j.name _ t := heq ▸ writeNext_confined (c := c) job hj data
        exact (Confined.setJob _).trans (h.trans (writeReady_confined hj fuel t))

theorem closeIfComplete_confined :
    Confined c.writer job j.name k (closeIfComplete c.logged k job j).1 := by
  unfold closeIfComplete
  dsimp only
  split
  · split
    · rename_i s e heq
      exact persist_confined job (.close j.name) heq
    · rename_i s heq
      have h := persist_confined job (.close j.name) heq
      exact h.trans ((Confined.setJob _).trans (Confined.record _))
  · exact Confined.refl k

theorem flush_confined (hj : j.header.name = j.name) :
    Confined c.writer job j.name k (flush c.logged k job j).1 := by
  have h := writeReady_confined (c := c) job hj (k.jobState job).buffer.length k
  unfold flush
  split
  · rename_i t e heq
    rwa [heq] at h
  · rename_i t heq
    rw [heq] at h
    exact h.trans (closeIfComplete_confined job)

theorem takeChunk_confined (hj : j.header.name = j.name) (index : Nat) (data : Grid Double) :
    Confined c.writer job j.name k (takeChunk c.logged k job j index data) := by
  unfold takeChunk
  dsimp only
  split
  · exact Confined.refl k
  · split
    · rename_i t heq
      exact (Confined.setJob _).trans (heq ▸ flush_confined (c := c) job hj)
    · rename_i t e heq
      have h : Confined c.writer job j.name _ t := heq ▸ flush_confined (c := c) job hj
      exact (Confined.setJob _).trans (h.trans (fail_confined job j.name _))

/-- An event of a job touches nothing but that job. -/
theorem handle_confined {e : WorkEvent} (he : c.jobs[e.job]? = some j) (hj : j.header.name = j.name) :
    Confined c.writer e.job j.name k (handle c.logged k e) := by
  unfold handle
  rw [show c.logged.jobs[e.job]? = some j from he]
  cases e with
  | chunk n index data => exact takeChunk_confined n hj index data
  | failed n f => exact fail_confined n j.name f
  | cancelled n => exact cancel_confined n j.name

/-- An event is of no job, or touches one job only. -/
theorem handle_cases (hnames : ∀ j ∈ c.jobs, j.header.name = j.name) (k : Logged σ) (e : WorkEvent) :
    (c.jobs[e.job]? = none ∧ handle c.logged k e = k) ∨
      ∃ j, c.jobs[e.job]? = some j ∧ Confined c.writer e.job j.name k (handle c.logged k e) := by
  cases hi : c.jobs[e.job]? with
  | none =>
    refine .inl ⟨rfl, ?_⟩
    unfold handle
    rw [show c.logged.jobs[e.job]? = none from hi]
  | some j => exact .inr ⟨j, rfl, handle_confined hi (hnames j (List.mem_of_getElem? hi))⟩

end

end Concord.Coordinator
