import Concord.Proofs.Schedule.AnyOrder
import Concord.Proofs.Schedule.Moves

/-! Every job has a status in the end, whatever is heard of it and whatever its destination refuses. While
    a run goes on, a job that has ended has one. -/

namespace Concord.Coordinator

variable {σ : Type}

/-- If a job has ended, there is a status of its name. -/
structure Told (n : Nat) (name : String) (k : Logged σ) : Prop where
  present : n < k.states.length
  told : (k.jobState n).terminal = true → (k.report.get? name).isSome = true

/-! ### What is heard of the job -/

section
variable {c : Context σ} {n : Nat} {j : Job} {k t : Logged σ}

theorem isSome_record (r : Report) (name : String) (status : Status) :
    ((r.record name status).get? name).isSome = true := by
  rw [get?_record, if_pos rfl]
  rfl

/-- A move ends a job when it records its status. -/
theorem Told.move (h : Told n j.name k) (hm : Move c n j k t) : Told n j.name t := by
  have hset : ∀ {u : Logged σ} (s : JobState), u.states.length = k.states.length →
      (s.terminal = true → (u.report.get? j.name).isSome = true) → Told n j.name (u.setJob n s) := by
    intro u s hlen hs
    have hn : n < u.states.length := hlen ▸ h.present
    exact ⟨by rwa [setJob_states_length], by rwa [jobState_setJob hn]⟩
  cases hm with
  | wait => exact hset _ rfl h.told
  | refused => exact ⟨h.present, h.told⟩
  | opened => exact hset _ rfl h.told
  | wrote => exact hset _ rfl h.told
  | closed =>
    refine ⟨?_, fun _ => isSome_record ..⟩
    show n < (Coordinator.setJob _ n _).states.length
    rw [setJob_states_length]
    exact h.present
  | ended => exact ⟨(abandon_confined n j.name).length.symm ▸ h.present, fun _ => isSome_record ..⟩

theorem Told.moves (h : Told n j.name k) (hm : Moves c n j k t) : Told n j.name t := by
  induction hm with
  | refl => exact h
  | tail _ hm ih => exact ih.move hm

end

/-! ### Whole runs -/

section
variable {c : Context σ} {n i : Nat} {name other : String} {j : Job} {k t : Logged σ}

theorem Confined.isSome (hk : Confined c.writer i other k t) (h : (k.report.get? name).isSome = true) :
    (t.report.get? name).isSome = true := by
  obtain ⟨status, hstatus⟩ := Option.isSome_iff_exists.mp h
  rw [hk.stays hstatus]
  rfl

/-- What happens to another job takes nothing back. -/
theorem Told.of_confined (h : Told n name k) (hk : Confined c.writer i other k t) (hi : n ≠ i) : Told n name t where
  present := hk.length.symm ▸ h.present
  told hterminal := hk.isSome (h.told (hk.jobState n hi ▸ hterminal))

theorem Told.isSome_fail (h : Told n name k) (f : Failure) :
    ((Coordinator.fail c.logged k n name f).report.get? name).isSome = true := by
  unfold Coordinator.fail
  split
  · rename_i hterminal
    exact h.told hterminal
  · exact isSome_record ..

variable (hnames : ∀ j ∈ c.jobs, j.header.name = j.name) (hn : c.jobs[n]? = some j)
include hn

include hnames in
theorem Told.handle (e : WorkEvent) (h : Told n j.name k) : Told n j.name (handle c.logged k e) := by
  by_cases he : n = e.job
  · exact h.moves (handle_moves h.present (hnames j (List.mem_of_getElem? hn)) he.symm hn)
  · rcases handle_cases hnames k e with ⟨-, hsame⟩ | ⟨j', -, hk⟩
    · rwa [hsame]
    · exact h.of_confined hk he

include hnames in
theorem Told.foldl_handle :
    ∀ (events : List WorkEvent) {k : Logged σ}, Told n j.name k →
      Told n j.name (events.foldl (Coordinator.handle c.logged) k)
  | [], _, h => h
  | e :: events, _, h => Told.foldl_handle events (h.handle hnames hn e)

theorem Told.finishJob (h : Told n j.name k) {p : Job × Nat} (hp : c.jobs[p.2]? = some p.1) :
    Told n j.name (finishJob c.logged k p) := by
  by_cases he : n = p.2
  · subst he
    cases hn.symm.trans hp
    exact h.moves (fail_moves _)
  · exact h.of_confined (fail_confined p.2 p.1.name _) he

theorem Told.foldl_finishJob : ∀ (l : List (Job × Nat)), (∀ p ∈ l, c.jobs[p.2]? = some p.1) → ∀ {k : Logged σ},
    Told n j.name k → (k.report.get? j.name).isSome = true ∨ (j, n) ∈ l →
      ((l.foldl (Coordinator.finishJob c.logged) k).report.get? j.name).isSome = true
  | [], _, _, _, h => h.resolve_right List.not_mem_nil
  | p :: l, hl, k, hk, h => by
    refine Told.foldl_finishJob l (fun q hq => hl q (List.mem_cons_of_mem _ hq))
      (hk.finishJob hn (hl p List.mem_cons_self)) ?_
    rcases h with h | h
    · exact .inl ((fail_confined p.2 p.1.name _).isSome h)
    · rcases List.mem_cons.mp h with rfl | h
      · exact .inl (hk.isSome_fail _)
      · exact .inr h

include hnames in
/-- After any events, the end of a run leaves every job with a status. -/
theorem ran_reports (s : σ) (report : Report) (events : List WorkEvent) :
    ((ran c s report events).report.get? j.name).isSome = true := by
  have hstart : Told n j.name (start c.logged (s, []) report) :=
    { present := lt_start _ report hn
      told := fun h => by
        rw [jobState_start] at h
        cases h }
  exact Told.foldl_finishJob hn _ (fun _ hp => List.mem_zipIdx_iff_getElem?.mp hp)
    (hstart.foldl_handle hnames hn events) (.inr (List.mem_zipIdx_iff_getElem?.mpr hn))

end
end Concord.Coordinator
