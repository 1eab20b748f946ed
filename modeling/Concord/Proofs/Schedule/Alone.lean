import Concord.Proofs.Schedule.Dispatched
import Concord.Proofs.Schedule.Isolation

/-! What is heard in a run, and what of it belongs to one job. A run of one of the jobs hears the same of it,
    so the job fares the same. -/

namespace Concord.Dispatch

open Traced Coordinator

variable {σ α : Type}

/-- The same run with a log of the calls. -/
def Context.logged (c : Context σ) : Context (σ × List Answer) :=
  ⟨c.source, c.converter, c.coordination.logged, c.workers, fun s => c.cancelled s.1⟩

/-- The run of one of the jobs. -/
def Context.only (c : Context σ) (j : Job) : Context σ := { c with coordination := c.coordination.only j }

/-! ### What is heard in a run -/

section
variable {c : Context σ} {s : σ} {report : Report} {threshold : Option Nat}

/-- A run that is not cancelled hears of all pieces in turn. -/
theorem run_logged (hcancel : ∀ s, c.cancelled s = false) :
    (run c.logged threshold (s, []) report).1 =
      ran c.coordination s report ((WorkItem.ofJobs c.coordination.jobs threshold).flatMap (heardOf c)) :=
  run_eq_finish (c := c.logged) (fun s => hcancel s.1) threshold (s, []) report

/-- What a run hears of a piece: that it was cancelled, or what there is to hear. -/
def heardAt (c : Context σ) (s : σ) (item : WorkItem) : List WorkEvent :=
  if c.cancelled s then [.cancelled item.job] else heardOf c item

theorem step_heard (s : Coordinator σ × List Reading) (item : WorkItem) :
    (step c s item).1 = (heardAt c s.1.state item).foldl (Coordinator.handle c.coordination) s.1 := by
  unfold step heardAt
  split
  · rfl
  · unfold heardOf
    cases c.coordination.jobs[item.job]? with
    | none => rfl
    | some j => exact runItem_coordinator s.1

/-- Whatever is cancelled, a run is one of the coordinator over events of its pieces. -/
theorem foldl_step_heard : ∀ (items : List WorkItem) (s : Coordinator σ × List Reading),
    ∃ events : List WorkEvent,
    (items.foldl (step c) s).1 = events.foldl (Coordinator.handle c.coordination) s.1 ∧
      ∀ e ∈ events, e = .cancelled e.job ∨ ∃ item ∈ items, e ∈ heardOf c item
  | [], _ => ⟨[], rfl, fun _ h => (nomatch h)⟩
  | item :: items, s => by
    obtain ⟨events, hrun, hevents⟩ := foldl_step_heard items (step c s item)
    refine ⟨heardAt c s.1.state item ++ events, ?_, fun e he => ?_⟩
    · rw [List.foldl_cons, hrun, step_heard, List.foldl_append]
    · rcases List.mem_append.mp he with he | he
      · unfold heardAt at he
        split at he
        · rw [List.mem_singleton.mp he]
          exact .inl rfl
        · exact .inr ⟨item, List.mem_cons_self, he⟩
      · exact (hevents e he).imp_right fun ⟨i, hi, h⟩ => ⟨i, List.mem_cons_of_mem _ hi, h⟩

/-- Leaving the log out of a run gives the run without. -/
theorem foldl_step_forget : ∀ (items : List WorkItem) {s : Logged σ × List Reading} {u : Coordinator σ × List Reading},
    s.1.forget = u.1 → (items.foldl (step c.logged) s).1.forget = (items.foldl (step c) u).1
  | [], _, _, h => h
  | item :: items, s, u, h => by
    refine foldl_step_forget items ?_
    rw [step_heard, step_heard, ← h]
    exact foldl_handle_forget c.coordination (heardAt c s.1.state.1 item) s.1

theorem run_forget (c : Context σ) (s : σ) (report : Report) (threshold : Option Nat) :
    (run c.logged threshold (s, []) report).1.forget = (run c threshold s report).1 := by
  unfold run
  refine (finish_forget c.coordination _).trans (congrArg (finish c.coordination) ?_)
  exact foldl_step_forget _ rfl

theorem run_heard (c : Context σ) (s : σ) (report : Report) (threshold : Option Nat) :
    ∃ events : List WorkEvent, (run c.logged threshold (s, []) report).1 = ran c.coordination s report events ∧
      ∀ e ∈ events, e = .cancelled e.job ∨
        ∃ item ∈ WorkItem.ofJobs c.coordination.jobs threshold, e ∈ heardOf c item := by
  obtain ⟨events, hrun, hevents⟩ := foldl_step_heard (c := c.logged)
    (WorkItem.ofJobs c.coordination.jobs threshold) (start c.coordination.logged (s, []) report, [])
  exact ⟨events, congrArg (finish c.coordination.logged) hrun, hevents⟩

end

/-! ### What is heard of one job -/

/-- Of what is put together from parts with a number, the members with a number come from the parts that have it. -/
theorem filter_flatMap {β γ : Type} {f : β → List γ} (part : β → Nat) (member : γ → Nat) (n : Nat) :
    ∀ {l : List β}, (∀ b ∈ l, ∀ e ∈ f b, member e = part b) →
      (l.flatMap f).filter (member · = n) = (l.filter (part · = n)).flatMap f
  | [], _ => rfl
  | b :: l, h => by
    have hb := h b List.mem_cons_self
    rw [List.flatMap_cons, List.filter_append,
      filter_flatMap part member n fun b' hb' => h b' (List.mem_cons_of_mem _ hb')]
    by_cases hn : part b = n
    · rw [List.filter_cons_of_pos (by simpa using hn), List.flatMap_cons,
        List.filter_eq_self.mpr fun e he => by simpa using (hb e he).trans hn]
    · rw [List.filter_cons_of_neg (by simpa using hn),
        List.filter_eq_nil_iff.mpr fun e he => by simpa using fun heq => hn ((hb e he).symm.trans heq),
        List.nil_append]

section
variable {c : Context σ} {j : Job} {n : Nat} {threshold : Option Nat}

theorem job_of_mem_heardOf {item : WorkItem} {e : WorkEvent} (h : e ∈ heardOf c item) : e.job = item.job := by
  unfold heardOf at h
  split at h
  · cases h
  · rename_i j _
    have h : e ∈ heardIn item (evaluation c j item).outcome (evaluation c j item).events := h
    exact job_of_mem_heardIn h

theorem flatMap_heardOf (hn : c.coordination.jobs[n]? = some j) :
    (WorkItem.ofJob threshold j n).flatMap (heardOf c) = (WorkItem.ofJob threshold j n).flatMap (eventsOf c j) := by
  refine List.flatMap_congr fun item hitem => ?_
  unfold heardOf
  rw [job_of_mem_ofJob hitem, hn]

theorem filter_heard (hn : c.coordination.jobs[n]? = some j) :
    ((WorkItem.ofJobs c.coordination.jobs threshold).flatMap (heardOf c)).filter (·.job = n) =
      (WorkItem.ofJob threshold j n).flatMap (eventsOf c j) := by
  have hitems : (WorkItem.ofJobs c.coordination.jobs threshold).filter (·.job = n) = WorkItem.ofJob threshold j n := by
    unfold WorkItem.ofJobs
    rw [filter_flatMap Prod.snd WorkItem.job n fun p _ item hitem => job_of_mem_ofJob hitem, filter_zipIdx hn]
    exact List.flatMap_singleton ..
  rw [filter_flatMap WorkItem.job WorkEvent.job n fun item _ e he => job_of_mem_heardOf he, hitems, flatMap_heardOf hn]

/-- The same piece under another number is heard of under that. -/
theorem eventsOf_renumbered {item : WorkItem} (other : WorkItem) (h : evaluation c j item = evaluation c j other) :
    (eventsOf c j item).map (WorkEvent.renumbered other.job) = eventsOf c j other := by
  unfold eventsOf
  rw [List.map_append, List.map_map, h]
  congr 1
  cases (evaluation c j other).outcome <;> rfl

theorem heard_renumbered (m : Nat) :
    ((WorkItem.ofJob threshold j n).flatMap (eventsOf c j)).map (WorkEvent.renumbered m) =
      (WorkItem.ofJob threshold j m).flatMap (eventsOf c j) := by
  have hwhole : (eventsOf c j (.whole n)).map (WorkEvent.renumbered m) = eventsOf c j (.whole m) :=
    eventsOf_renumbered (.whole m) rfl
  have hchunk : ∀ i, (eventsOf c j (.chunk n i)).map (WorkEvent.renumbered m) = eventsOf c j (.chunk m i) :=
    fun i => eventsOf_renumbered (.chunk m i) rfl
  unfold WorkItem.ofJob
  dsimp only
  split
  · rw [List.flatMap_map, List.flatMap_map, List.map_flatMap]
    exact List.flatMap_congr fun i _ => hchunk i
  · rw [List.flatMap_singleton, List.flatMap_singleton, hwhole]

/-- A job of a run that is not cancelled fares as in a run of its own, whatever the others do. -/
theorem run_only {view : String → σ → α} {s : σ} {report report' : Report} (hcancel : ∀ s, c.cancelled s = false)
    (hv : c.coordination.writer.Views view) (hnames : ∀ j ∈ c.coordination.jobs, j.header.name = j.name)
    (hn : c.coordination.jobs[n]? = some j) (hapart : Apart c.coordination.jobs n j.name)
    (hreport : report.get? j.name = report'.get? j.name) :
    Same view j.name (run c.logged threshold (s, []) report).1 (run (c.only j).logged threshold (s, []) report').1 := by
  have hlone : (WorkItem.ofJobs [j] threshold).flatMap (heardOf (c.only j)) =
      (WorkItem.ofJob threshold j 0).flatMap (eventsOf c j) := by
    rw [show WorkItem.ofJobs [j] threshold = WorkItem.ofJob threshold j 0 from List.flatMap_singleton ..]
    exact flatMap_heardOf (c := c.only j) rfl
  have h := ran_only (s := s) hv hnames ((WorkItem.ofJobs c.coordination.jobs threshold).flatMap (heardOf c)) hn hapart
    hreport
  rw [filter_heard hn, heard_renumbered, ← hlone, ← run_logged hcancel] at h
  exact h.trans (by rw [run_logged (c := c.only j) hcancel]; exact .refl _)

end
end Concord.Dispatch
