import Concord.Proofs.Schedule.AnyOrder

/-! A success can be accounted for. What the coordinator has written or keeps was heard of, and it reports a success
    only of a name that one of the jobs has all of whose chunks were written. This holds of any jobs, also of some
    with the same name. -/

namespace Concord.Coordinator

variable {σ : Type} {c : Context σ} {events : List WorkEvent} {n : Nat} {j : Job} {k : Coordinator σ}

/-- The chunks that were written or are kept were heard of, and all were written if the job succeeded. -/
structure Covered (c : Context σ) (events : List WorkEvent) (n : Nat) (s : JobState) : Prop where
  written : ∀ i < s.next, ∃ g, .chunk n i g ∈ events
  kept : ∀ p ∈ s.buffer, .chunk n p.1 p.2 ∈ events
  complete : s.succeeded = true → ∀ j, c.jobs[n]? = some j → j.plan.outputChunks ≤ s.next

/-- All jobs are covered by what was heard, and a success that is reported is that of one of them. -/
structure Accounted (c : Context σ) (events : List WorkEvent) (k : Coordinator σ) : Prop where
  present : k.states.length = c.jobs.length
  covered : ∀ n, Covered c events n (k.jobState n)
  reported : ∀ name m, k.report.get? name = some (.succeeded m) →
    ∃ n j, c.jobs[n]? = some j ∧ j.name = name ∧ (k.jobState n).succeeded = true

/-- A success that is reported was so before something else was recorded. -/
theorem succeeded_of_record {report : Report} {name key : String} {status : Status} {m : Nat}
    (hs : ∀ m, status ≠ .succeeded m) (h : (report.record name status).get? key = some (.succeeded m)) :
    report.get? key = some (.succeeded m) := by
  rw [get?_record] at h
  split at h
  · rename_i heq
    subst heq
    cases hkey : report.get? key with
    | none =>
      rw [hkey] at h
      exact absurd (Option.some.inj h) (hs m)
    | some status' => rwa [hkey] at h
  · exact h

/-! ### What keeps the account -/

theorem start_accounted (s : σ) {report : Report} (h : ∀ name m, report.get? name ≠ some (.succeeded m)) :
    Accounted c events (start c s report) where
  present := List.length_map _
  covered n := by
    rw [jobState_start]
    exact ⟨fun _ hi => (nomatch hi), fun _ hp => (nomatch hp), fun hs => (nomatch hs)⟩
  reported name m hm := absurd hm (h name m)

namespace Accounted

theorem lt (h : Accounted c events k) (hn : c.jobs[n]? = some j) : n < k.states.length :=
  h.present ▸ (List.getElem?_eq_some_iff.mp hn).1

/-- A covered state takes the place of one that has not succeeded, or if it has succeeded as well. -/
theorem setJob (h : Accounted c events k) (hn : c.jobs[n]? = some j) {s : JobState} (hs : Covered c events n s)
    (hsucceeded : (k.jobState n).succeeded = true → s.succeeded = true) : Accounted c events (k.setJob n s) where
  present := setJob_states_length.trans h.present
  covered i := by
    by_cases hi : i = n
    · rw [hi, jobState_setJob (h.lt hn)]
      exact hs
    · rw [jobState_setJob_ne hi]
      exact h.covered i
  reported name m hm := by
    obtain ⟨i, j', hj', hname, hi⟩ := h.reported name m hm
    refine ⟨i, j', hj', hname, ?_⟩
    by_cases hin : i = n
    · rw [hin, jobState_setJob (h.lt hn)]
      exact hsucceeded (hin ▸ hi)
    · rwa [jobState_setJob_ne hin]

/-- The destination is not part of the account. -/
theorem setState (h : Accounted c events k) (s : σ) : Accounted c events { k with state := s } :=
  ⟨h.present, h.covered, h.reported⟩

theorem record (h : Accounted c events k) (name : String) {status : Status} (hs : ∀ m, status ≠ .succeeded m) :
    Accounted c events { k with report := k.report.record name status } where
  present := h.present
  covered := h.covered
  reported key m hm := h.reported key m (succeeded_of_record hs hm)

variable (hn : c.jobs[n]? = some j)
include hn

/-! ### Ends of jobs -/

theorem abandon (h : Accounted c events k) (name : String) : Accounted c events (abandon c k n name) := by
  have hcovered := h.covered n
  have hset : Accounted c events (k.setJob n { k.jobState n with terminal := true, buffer := [] }) :=
    h.setJob hn ⟨hcovered.written, fun _ hp => (nomatch hp), hcovered.complete⟩ id
  unfold Coordinator.abandon
  dsimp only
  split
  · exact hset.setState _
  · exact hset

theorem fail (h : Accounted c events k) (name : String) (f : Failure) : Accounted c events (fail c k n name f) := by
  unfold Coordinator.fail
  split
  · exact h
  · exact (h.abandon hn name).record name fun _ => Status.noConfusion

theorem cancel (h : Accounted c events k) (name : String) : Accounted c events (cancel c k n name) := by
  unfold Coordinator.cancel
  dsimp only
  split
  · exact h
  split
  · exact h.fail hn name _
  · exact (h.abandon hn name).record name fun _ => Status.noConfusion

/-! ### Chunks -/

theorem ensureOpen (h : Accounted c events k) : Accounted c events (ensureOpen c k n j).1 ∧
    ((ensureOpen c k n j).1.jobState n).next = (k.jobState n).next := by
  have hcovered := h.covered n
  unfold Coordinator.ensureOpen
  dsimp only
  split
  · exact ⟨h, rfl⟩
  split
  · exact ⟨h.setState _, rfl⟩
  · refine ⟨(h.setState _).setJob hn ⟨hcovered.written, hcovered.kept, hcovered.complete⟩ id, ?_⟩
    rw [jobState_setJob (h.setState _ |>.lt hn)]

/-- A chunk that was heard of may be written. -/
theorem writeNext (h : Accounted c events k) {g : Grid Double} (hg : .chunk n (k.jobState n).next g ∈ events) :
    Accounted c events (writeNext c k n j g).1 := by
  obtain ⟨hopen, hnext⟩ := h.ensureOpen hn
  unfold Coordinator.writeNext
  split
  · rename_i t e heq
    rwa [heq] at hopen
  · rename_i t heq
    rw [heq] at hopen hnext
    have hcovered := hopen.covered n
    dsimp only at hnext ⊢
    split
    · exact hopen.setState _
    · refine (hopen.setState _).setJob hn ⟨fun i hi => ?_, hcovered.kept, fun hs j' hj' => ?_⟩ id
      · rcases Nat.lt_or_eq_of_le (Nat.le_of_lt_succ hi) with hi | rfl
        · exact hcovered.written i hi
        · exact ⟨g, hnext ▸ hg⟩
      · exact Nat.le_succ_of_le (hcovered.complete hs j' hj')

theorem writeReady : ∀ (fuel : Nat) {k : Coordinator σ}, Accounted c events k →
    Accounted c events (writeReady c n j fuel k).1
  | 0, _, h => h
  | fuel + 1, k, h => by
    have hcovered := h.covered n
    unfold Coordinator.writeReady
    dsimp only
    split
    · exact h
    · rename_i g hg
      have hset := h.setJob hn (s := { k.jobState n with
        buffer := (k.jobState n).buffer.filter fun p => p.1 ≠ (k.jobState n).next })
        ⟨hcovered.written, fun p hp => hcovered.kept p (List.mem_filter.mp hp).1, hcovered.complete⟩ id
      have hwrite := hset.writeNext hn (g := g) (by
        rw [jobState_setJob (h.lt hn)]
        exact hcovered.kept _ (mem_of_lookup hg))
      split
      · rename_i t e heq
        rwa [heq] at hwrite
      · rename_i t heq
        rw [heq] at hwrite
        exact writeReady fuel hwrite

/-- Only the output of a job all of whose chunks were written is closed. -/
theorem closeIfComplete (h : Accounted c events k) : Accounted c events (closeIfComplete c k n j).1 := by
  have hcovered := h.covered n
  unfold Coordinator.closeIfComplete
  dsimp only
  split
  · rename_i hnext
    split
    · exact h.setState _
    · rename_i w heq
      have hset : Accounted c events (({ k with state := w } : Coordinator σ).setJob n
          { k.jobState n with terminal := true, succeeded := true }) := by
        refine (h.setState _).setJob hn ⟨hcovered.written, hcovered.kept, fun _ j' hj' => ?_⟩ fun _ => rfl
        cases hn.symm.trans hj'
        exact Nat.le_of_eq hnext.symm
      refine ⟨hset.present, hset.covered, fun key m hm => ?_⟩
      rw [get?_record] at hm
      split at hm
      · rename_i hkey
        refine ⟨n, j, hn, hkey.symm, ?_⟩
        exact congrArg JobState.succeeded (jobState_setJob (h.setState w |>.lt hn))
      · exact hset.reported key m hm
  · exact h

theorem flush (h : Accounted c events k) : Accounted c events (flush c k n j).1 := by
  have hready := h.writeReady hn (k.jobState n).buffer.length
  unfold Coordinator.flush
  split
  · rename_i t e heq
    rwa [heq] at hready
  · rename_i t heq
    rw [heq] at hready
    exact hready.closeIfComplete hn

theorem takeChunk (h : Accounted c events k) {i : Nat} {g : Grid Double} (hg : .chunk n i g ∈ events) :
    Accounted c events (takeChunk c k n j i g) := by
  have hcovered := h.covered n
  unfold Coordinator.takeChunk
  dsimp only
  split
  · exact h
  · have hset := h.setJob hn (s := { k.jobState n with
      buffer := (i, g) :: (k.jobState n).buffer.filter fun p => p.1 ≠ i })
      ⟨hcovered.written, fun p hp => ?_, hcovered.complete⟩ id
    · have hflush := hset.flush hn
      split
      · rename_i t heq
        rwa [heq] at hflush
      · rename_i t e heq
        rw [heq] at hflush
        exact hflush.fail hn j.name _
    · rcases List.mem_cons.mp hp with rfl | hp
      · exact hg
      · exact hcovered.kept p (List.mem_filter.mp hp).1

/-! ### Events -/

omit hn in
/-- What was heard may be handled. -/
theorem handle (h : Accounted c events k) {e : WorkEvent} (he : e ∈ events) : Accounted c events (handle c k e) := by
  unfold Coordinator.handle
  split
  · exact h
  · rename_i j hj
    cases e with
    | chunk n i g => exact h.takeChunk hj he
    | failed n f => exact h.fail hj j.name f
    | cancelled n => exact h.cancel hj j.name

omit hn in
theorem foldl_handle : ∀ (heard : List WorkEvent) {k : Coordinator σ}, Accounted c events k → heard ⊆ events →
    Accounted c events (heard.foldl (Coordinator.handle c) k)
  | [], _, h, _ => h
  | _ :: heard, _, h, hsub =>
    foldl_handle heard (h.handle (hsub List.mem_cons_self)) fun _ he => hsub (List.mem_cons_of_mem _ he)

omit hn in
theorem finish (h : Accounted c events k) : Accounted c events (finish c k) :=
  finish_induction h fun p _ hp h => h.fail hp p.1.name _

end Accounted

/-! ### Jobs that are lost -/

/-- A job has ended, and not with success. -/
def Lost (k : Coordinator σ) (n : Nat) : Prop := (k.jobState n).terminal = true ∧ (k.jobState n).succeeded = false

theorem lost_of_stop (h : k.flow n = .stop) : k.Lost n := by
  have hterminal := terminal_of_stop h
  refine ⟨hterminal, Bool.eq_false_iff.mpr fun hs => ?_⟩
  unfold flow at h
  dsimp only at h
  rw [if_pos hterminal, if_pos hs] at h
  cases h

/-- Any coordinator is one with a log that was left out. -/
theorem exists_forget (k : Coordinator σ) : ∃ l : Logged σ, l.forget = k := ⟨⟨(k.state, []), k.report, k.states⟩, rfl⟩

section
variable (hnames : ∀ j ∈ c.jobs, j.header.name = j.name)
include hnames

/-- What is heard of another job leaves a job as it is. -/
theorem jobState_handle_ne {e : WorkEvent} (he : n ≠ e.job) : (handle c k e).jobState n = k.jobState n := by
  obtain ⟨l, rfl⟩ := exists_forget k
  rw [← handle_forget, forget_jobState, forget_jobState]
  rcases handle_cases hnames l e with ⟨-, hsame⟩ | ⟨j, -, hk⟩
  · rw [hsame]
  · exact hk.jobState n he

theorem Lost.handle (h : k.Lost n) (e : WorkEvent) : (handle c k e).Lost n := by
  by_cases he : e.job = n
  · rwa [handle_terminal h.1 he]
  · unfold Lost
    rwa [jobState_handle_ne hnames (Ne.symm he)]

theorem Lost.foldl_handle : ∀ (events : List WorkEvent) {k : Coordinator σ}, k.Lost n →
    (events.foldl (Coordinator.handle c) k).Lost n
  | [], _, h => h
  | e :: events, _, h => foldl_handle events (h.handle hnames e)

end

theorem Lost.fail (h : k.Lost n) (i : Nat) (name : String) (f : Failure) : (fail c k i name f).Lost n := by
  by_cases hi : n = i
  · subst hi
    unfold Coordinator.fail
    rwa [if_pos h.1]
  · obtain ⟨l, rfl⟩ := exists_forget k
    unfold Lost
    rwa [← fail_forget, forget_jobState, (fail_confined i name f).jobState n hi]

theorem Lost.finish (h : k.Lost n) : (finish c k).Lost n :=
  finish_induction (P := fun k => k.Lost n) h fun p _ _ h => h.fail p.2 p.1.name _

end Concord.Coordinator
