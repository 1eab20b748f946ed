import Concord.Proofs.Schedule.AnyOrder
import Concord.Proofs.Schedule.LockStep

/-! A job among others fares as it does alone: what is heard of it has the same effects on its state, its
    output and its status, and what is heard of the others has none. -/

namespace Concord

variable {σ α : Type}

/-- Requests about other outputs change nothing that a destination knows of an output. -/
theorem Writer.Views.notes {w : Writer σ} {view : String → σ → α} (hv : w.Views view) {name : String} :
    ∀ {rs : List Request} {s : σ × List Answer}, (∀ r ∈ rs, r.name ≠ name) →
      view name (w.notes s rs).1 = view name s.1
  | [], _, _ => rfl
  | r :: _, s, h =>
    (hv.notes fun q hq => h q (List.mem_cons_of_mem _ hq)).trans
      (hv.other r name s.1 (Ne.symm (h r List.mem_cons_self)))

/-- A numbered list has one entry of each number. -/
theorem filter_zipIdx {β : Type} {l : List β} {n : Nat} {b : β} (h : l[n]? = some b) :
    l.zipIdx.filter (·.2 = n) = [(b, n)] := by
  have hnodup : (l.zipIdx.filter (·.2 = n)).Nodup := by
    refine List.Nodup.filter _ (List.Nodup.of_map Prod.snd ?_)
    rw [List.zipIdx_map_snd]
    exact List.nodup_range'
  have hmem : ∀ p, p ∈ l.zipIdx.filter (·.2 = n) ↔ p = (b, n) := by
    rintro ⟨x, i⟩
    rw [List.mem_filter, List.mem_zipIdx_iff_getElem?]
    constructor
    · rintro ⟨hx, hi⟩
      obtain rfl : i = n := by simpa using hi
      exact Prod.ext (Option.some.inj (hx.symm.trans h)) rfl
    · rintro hp
      cases hp
      exact ⟨h, by simp⟩
  exact List.perm_singleton.mp ((List.perm_ext_iff_of_nodup hnodup (List.nodup_singleton _)).mpr
    fun p => (hmem p).trans List.mem_singleton.symm)

namespace Coordinator

/-- The run with one of the jobs only. -/
def Context.only (c : Context σ) (j : Job) : Context σ := { c with jobs := [j] }

/-- Two coordinators have done the same about an output: its status, the calls about it and what its
    destination knows of it. -/
structure Same (view : String → σ → α) (name : String) (k t : Logged σ) : Prop where
  report : k.report.get? name = t.report.get? name
  calls : k.calls name = t.calls name
  view : view name k.state.1 = view name t.state.1

/-- They agree on a job, which has the number `n` in the first and is alone in the second. -/
structure Agree (view : String → σ → α) (name : String) (n : Nat) (k t : Logged σ) : Prop
    extends Same view name k t where
  present : n < k.states.length
  alone : 0 < t.states.length
  jobState : k.jobState n = t.jobState 0

/-! ### What is heard of the job -/

section
variable {view : String → σ → α} {name : String} {n : Nat} {k t : Logged σ}

theorem Agree.setJob (h : Agree view name n k t) (s : JobState) :
    Agree view name n (k.setJob n s) (t.setJob 0 s) where
  present := by rw [setJob_states_length]; exact h.present
  alone := by rw [setJob_states_length]; exact h.alone
  jobState := by rw [jobState_setJob h.present, jobState_setJob h.alone]
  report := h.report
  calls := h.calls
  view := h.view

theorem Agree.record (h : Agree view name n k t) (status : Status) :
    Agree view name n { k with report := k.report.record name status }
      { t with report := t.report.record name status } where
  present := h.present
  alone := h.alone
  jobState := h.jobState
  report := by rw [get?_record, get?_record, h.report]
  calls := h.calls
  view := h.view

/-- The destinations of two coordinators put to others. -/
abbrev AgreeAt (view : String → σ → α) (name : String) (n : Nat) (k t : Logged σ) (s u : σ × List Answer) : Prop :=
  Agree view name n { k with state := s } { t with state := u }

/-- A request about the job has the same answer in both. -/
theorem Agree.note {w : Writer σ} (hv : w.Views view) {r : Request} (hr : r.name = name)
    (h : Agree view name n k t) :
    SameOutcome (AgreeAt view name n k t) (w.note r k.state) (w.note r t.state) := by
  subst hr
  obtain ⟨houtcome, hview⟩ := hv.same r _ _ h.view
  have hcalls : answersFor r.name (k.state.2 ++ [⟨r, (w.ask r k.state.1).2⟩]) =
      answersFor r.name (t.state.2 ++ [⟨r, (w.ask r t.state.1).2⟩]) := by
    rw [answersFor_append, answersFor_append, houtcome]
    exact congrArg (· ++ _) h.calls
  have hagree : AgreeAt view r.name n k t (w.note r k.state).1 (w.note r t.state).1 :=
    ⟨⟨h.report, hcalls, hview⟩, h.present, h.alone, h.jobState⟩
  unfold Writer.note at hagree ⊢
  revert houtcome hagree
  rcases w.ask r k.state.1 with ⟨s, e | _⟩ <;> rcases w.ask r t.state.1 with ⟨u, e' | _⟩ <;>
    intro houtcome hagree <;> cases houtcome
  · exact .refused hagree e
  · exact .granted hagree

end

section
variable {view : String → σ → α} {c : Context σ} {n : Nat} {j : Job} {k t : Logged σ}
  (hv : c.writer.Views view)
include hv

/-- Whatever a run does for the job, it does for the job alone. -/
theorem Agree.inStep : InStep c (c.only j) n 0 j (Agree view j.name n) fun _ => False where
  jobState h := h.jobState
  setJob s h := h.setJob s
  record status h := h.record status
  giveUp {k t} h := by
    match c.writer.note (.abandon j.name) k.state, c.writer.note (.abandon j.name) t.state,
      h.note hv (r := .abandon j.name) rfl with
    | _, _, .refused hagree _ => exact hagree
    | _, _, .granted hagree => exact hagree
  request r hr _ h := .same (SameOutcome.persist (fun _ _ h => h.note hv hr) c.retries h)
  broken _ h := h

theorem Agree.fail (h : Agree view j.name n k t) (f : Failure) :
    Agree view j.name n (fail c.logged k n j.name f) (fail (c.only j).logged t 0 j.name f) :=
  (Agree.inStep hv).fail h f

theorem Agree.handle (hn : c.jobs[n]? = some j) (hj : j.header.name = j.name) {e : WorkEvent} (he : e.job = n)
    (h : Agree view j.name n k t) :
    Agree view j.name n (handle c.logged k e) (handle (c.only j).logged t (e.renumbered 0)) :=
  ((Agree.inStep hv).handle hj hn rfl he h).resolve_right id

end

/-! ### What is heard of the others -/

section
variable {view : String → σ → α} {name other : String} {i n : Nat} {c : Context σ} {k t u : Logged σ} {j : Job}

theorem Same.refl (k : Logged σ) : Same view name k k := ⟨rfl, rfl, rfl⟩

theorem Same.symm (h : Same view name k t) : Same view name t k := ⟨h.report.symm, h.calls.symm, h.view.symm⟩

theorem Same.trans (h₁ : Same view name k t) (h₂ : Same view name t u) : Same view name k u :=
  ⟨h₁.report.trans h₂.report, h₁.calls.trans h₂.calls, h₁.view.trans h₂.view⟩

/-- What is confined to one output leaves the others as they are. -/
theorem Confined.same (hv : c.writer.Views view) (h : Confined c.writer i other k t) (hn : name ≠ other) :
    Same view name t k := by
  refine ⟨h.report name hn, h.calls hn, ?_⟩
  obtain ⟨rs, hrs, ht⟩ := h.requests
  rw [ht]
  exact hv.notes fun r hr hname => hn (hname.symm.trans (hrs r hr))

theorem Agree.of_confined (hv : c.writer.Views view) (h : Agree view name n k t)
    (hk : Confined c.writer i other k u) (hi : n ≠ i) (hn : name ≠ other) : Agree view name n u t where
  toSame := (hk.same hv hn).trans h.toSame
  present := hk.length.symm ▸ h.present
  alone := h.alone
  jobState := (hk.jobState n hi).trans h.jobState

/-- The other jobs of a run have other names. -/
def Apart (jobs : List Job) (n : Nat) (name : String) : Prop :=
  ∀ i j, jobs[i]? = some j → i ≠ n → j.name ≠ name

variable (hv : c.writer.Views view) (hnames : ∀ j ∈ c.jobs, j.header.name = j.name)
include hv hnames

/-- An event is heard of the job in both, or of another one in the first only. -/
theorem Agree.handle_any (hn : c.jobs[n]? = some j) (hapart : Apart c.jobs n j.name) (e : WorkEvent)
    (h : Agree view j.name n k t) :
    Agree view j.name n (Coordinator.handle c.logged k e)
      ((([e].filter (·.job = n)).map (WorkEvent.renumbered 0)).foldl
        (Coordinator.handle (c.only j).logged) t) := by
  by_cases he : e.job = n
  · rw [List.filter_cons_of_pos (by simpa using he)]
    exact h.handle hv hn (hnames j (List.mem_of_getElem? hn)) he
  · rw [List.filter_cons_of_neg (by simpa using he)]
    rcases handle_cases hnames k e with ⟨-, hsame⟩ | ⟨j', hj', hk⟩
    · rwa [hsame]
    · exact h.of_confined hv hk (Ne.symm he) (hapart _ _ hj' he).symm

/-- However the events are mixed, a job fares as it does alone. -/
theorem Agree.foldl_handle (hn : c.jobs[n]? = some j) (hapart : Apart c.jobs n j.name) :
    ∀ (events : List WorkEvent) {k t : Logged σ}, Agree view j.name n k t →
      Agree view j.name n (events.foldl (Coordinator.handle c.logged) k)
        (((events.filter (·.job = n)).map (WorkEvent.renumbered 0)).foldl
          (Coordinator.handle (c.only j).logged) t)
  | [], _, _, h => h
  | e :: events, _, _, h => by
    have := Agree.foldl_handle hn hapart events (h.handle_any hv hnames hn hapart e)
    rwa [← List.foldl_append, ← List.map_append, ← List.filter_append] at this

omit hnames in
theorem Agree.finish (hn : c.jobs[n]? = some j) (hapart : Apart c.jobs n j.name) (h : Agree view j.name n k t) :
    Agree view j.name n (finish c.logged k) (finish (c.only j).logged t) := by
  have hall : ∀ (l : List (Job × Nat)), (∀ p ∈ l, c.jobs[p.2]? = some p.1) → ∀ {k t : Logged σ},
      Agree view j.name n k t →
      Agree view j.name n (l.foldl (finishJob c.logged) k)
        (((l.filter (·.2 = n)).map fun _ => (j, 0)).foldl (finishJob (c.only j).logged) t) := by
    intro l hl
    induction l with
    | nil => exact id
    | cons p l ih =>
      intro k t h
      have hp := hl p List.mem_cons_self
      have ih := @ih fun q hq => hl q (List.mem_cons_of_mem _ hq)
      by_cases he : p.2 = n
      · have hpn : p = (j, n) := Prod.ext (Option.some.inj (hp.symm.trans (he ▸ hn))) he
        subst hpn
        rw [List.filter_cons_of_pos (by simp)]
        refine ih ?_
        unfold finishJob
        rw [h.jobState]
        exact h.fail hv _
      · rw [List.filter_cons_of_neg (by simpa using he)]
        exact ih (h.of_confined hv (fail_confined p.2 p.1.name _) (Ne.symm he) (hapart _ _ hp he).symm)
  rw [finish_eq, finish_eq]
  have hself := hall c.jobs.zipIdx (fun _ hp => List.mem_zipIdx_iff_getElem?.mp hp) h
  have hone : c.jobs.zipIdx.filter (·.2 = n) = [(j, n)] := filter_zipIdx hn
  rw [hone] at hself
  exact hself

/-- Nothing that happens to the jobs of a run is about an output of another name. -/
theorem handle_same (hother : ∀ j ∈ c.jobs, j.name ≠ name) (e : WorkEvent) :
    Same view name (Coordinator.handle c.logged k e) k := by
  rcases handle_cases hnames k e with ⟨-, hsame⟩ | ⟨j, hj, hk⟩
  · rw [hsame]
    exact .refl k
  · exact hk.same hv (hother j (List.mem_of_getElem? hj)).symm

theorem foldl_handle_same (hother : ∀ j ∈ c.jobs, j.name ≠ name) :
    ∀ (events : List WorkEvent) {k : Logged σ}, Same view name (events.foldl (Coordinator.handle c.logged) k) k
  | [], k => .refl k
  | e :: events, _ => (foldl_handle_same hother events).trans (handle_same hv hnames hother e)

omit hnames in
theorem finish_same (hother : ∀ j ∈ c.jobs, j.name ≠ name) : Same view name (Coordinator.finish c.logged k) k :=
  finish_induction (P := fun t => Same view name t k) (.refl k) fun p _ hp h =>
    ((fail_confined p.2 p.1.name _).same hv (hother p.1 (List.mem_of_getElem? hp)).symm).trans h

end

/-! ### Whole runs -/

section
variable {view : String → σ → α} {c : Context σ} {s : σ} {name : String} {n : Nat} {j : Job}
  {report report' : Report} (hv : c.writer.Views view) (hnames : ∀ j ∈ c.jobs, j.header.name = j.name)
include hv hnames

/-- A job of a run is reported, asked for and known of as in a run of its own. -/
theorem ran_only (events : List WorkEvent) (hn : c.jobs[n]? = some j) (hapart : Apart c.jobs n j.name)
    (hreport : report.get? j.name = report'.get? j.name) :
    Same view j.name (ran c s report events)
      (ran (c.only j) s report' ((events.filter (·.job = n)).map (WorkEvent.renumbered 0))) := by
  have hstart : Agree view j.name n (start c.logged (s, []) report) (start (c.only j).logged (s, []) report') :=
    { report := hreport
      calls := rfl
      view := rfl
      present := lt_start _ report hn
      alone := Nat.one_pos
      jobState := by rw [jobState_start, jobState_start] }
  exact ((hstart.foldl_handle hv hnames hn hapart events).finish hv hn hapart).toSame

/-- A run says and asks nothing about an output of which it has no job. -/
theorem ran_same (report : Report) (events : List WorkEvent) (hother : ∀ j ∈ c.jobs, j.name ≠ name) :
    Same view name (ran c s report events) (start c.logged (s, []) report) :=
  (finish_same hv hother).trans (foldl_handle_same hv hnames hother events)

end
end Coordinator
end Concord
