import Concord.Proofs.Evaluate.Streaming
import Concord.Schedule.Dispatch

/-! What is heard of the pieces of work of a job. However a job is split, its pieces give out the chunks of
    its run, if that succeeds; if it fails, so does a piece, and some chunk is never given out, unless a
    reduction of several arrays fails at the very end. -/

namespace Concord

open Traced

/-! ### Jobs that are planned -/

/-- A job of a task. -/
def Job.Prepared (j : Job) (t : Conformance) : Prop :=
  ∃ (name : String) (target : Target), t.prepare t.compile name target = .ok j

namespace Job.Prepared
variable {j : Job} {t : Conformance} {source : Source} {converter : Measure.Converter}

theorem passed (h : j.Prepared t) (source : Source) (converter : Measure.Converter) :
    (Engine.ofVariable j.resolved j.plan source converter).Passed := by
  obtain ⟨name, target, hj⟩ := h
  exact Engine.passed_of_planned (Conformance.planned_of_prepare hj).2 source converter

theorem ordered (h : j.Prepared t) (hone : ∀ f ∈ t.functions.specs, f.shape = .reduce → f.arity = 1)
    (source : Source) (converter : Measure.Converter) :
    (Engine.ofVariable j.resolved j.plan source converter).Ordered := by
  obtain ⟨name, target, hj⟩ := h
  obtain ⟨hv, hp⟩ := Conformance.planned_of_prepare hj
  exact Engine.ordered_of_reductions hv hp hone source converter

theorem ordered_of_independent (h : j.Prepared t)
    (hi : (Engine.ofVariable j.resolved j.plan source converter).Independent) :
    (Engine.ofVariable j.resolved j.plan source converter).Ordered := by
  obtain ⟨name, target, hj⟩ := h
  obtain ⟨hv, hp⟩ := Conformance.planned_of_prepare hj
  exact hi.ordered hv hp

theorem header_name (h : j.Prepared t) : j.header.name = j.name := by
  obtain ⟨name, target, hj⟩ := h
  obtain ⟨v, plan, -, -, rfl⟩ := Conformance.prepare_eq_ok hj
  rfl

end Job.Prepared

namespace Dispatch

variable {σ : Type} {c : Context σ} {t : Conformance} {j : Job} {item : WorkItem} {n i : Nat} {g : Grid Double}
  {threshold : Option Nat}

/-! ### The events of a piece -/

/-- The engine for a job. -/
abbrev engine (c : Context σ) (j : Job) : Engine := .ofVariable j.resolved j.plan c.source c.converter

/-- What is heard of a piece of a job: its chunks, and its failure behind them. -/
def eventsOf (c : Context σ) (j : Job) (item : WorkItem) : List WorkEvent :=
  (evaluation c j item).emitted.map (fun p => .chunk item.job p.1 p.2) ++
    match (evaluation c j item).outcome with
    | .error f => [.failed item.job f]
    | .ok () => []

/-- What is heard of a piece of work. -/
def heardOf (c : Context σ) (item : WorkItem) : List WorkEvent :=
  match c.coordination.jobs[item.job]? with
  | none => []
  | some j => eventsOf c j item

theorem chunk_mem_eventsOf {m : Nat} :
    .chunk m i g ∈ eventsOf c j item ↔ m = item.job ∧ (i, g) ∈ (evaluation c j item).emitted := by
  unfold eventsOf
  rw [List.mem_append, List.mem_map]
  constructor
  · rintro (⟨p, hp, h⟩ | h)
    · cases h
      exact ⟨rfl, hp⟩
    · split at h
      · cases List.mem_singleton.mp h
      · cases h
  · rintro ⟨rfl, h⟩
    exact .inl ⟨_, h, rfl⟩

theorem failed_mem_eventsOf {m : Nat} {f : Failure} :
    .failed m f ∈ eventsOf c j item ↔ m = item.job ∧ (evaluation c j item).outcome = .error f := by
  unfold eventsOf
  rw [List.mem_append, List.mem_map]
  constructor
  · rintro (⟨p, hp, h⟩ | h)
    · cases h
    · split at h
      · rename_i f' hf
        cases List.mem_singleton.mp h
        exact ⟨rfl, hf⟩
      · cases h
  · rintro ⟨rfl, h⟩
    rw [h]
    exact .inr (List.mem_singleton_self _)

theorem cancelled_not_mem_eventsOf {m : Nat} : .cancelled m ∉ eventsOf c j item := by
  unfold eventsOf
  rw [List.mem_append, List.mem_map]
  rintro (⟨p, hp, h⟩ | h)
  · cases h
  · split at h
    · cases List.mem_singleton.mp h
    · cases h

/-! ### Evaluations of pieces -/

theorem evaluation_whole : evaluation c j (.whole n) = (do discard (engine c j).run) := rfl

theorem emitted_whole : (evaluation c j (.whole n)).emitted = (engine c j).run.emitted := by
  rw [evaluation_whole]
  cases hrun : (engine c j).run.outcome with
  | ok m =>
    refine (emitted_bind_ok (f := fun _ => pure ()) hrun).trans ?_
    exact List.append_nil _
  | error f => exact emitted_bind_error (f := fun _ => pure ()) hrun

theorem whole_eq_ok : (evaluation c j (.whole n)).outcome = .ok () ↔ ∃ m, (engine c j).run.outcome = .ok m := by
  rw [evaluation_whole]
  cases hrun : (engine c j).run.outcome with
  | ok m => exact ⟨fun _ => ⟨m, rfl⟩, fun _ => bind_ok (f := fun _ => pure ()) hrun⟩
  | error f =>
    have herror := bind_error (f := fun _ : Nat => (pure () : Traced Failure Unit)) hrun
    exact ⟨fun h => (by cases herror.symm.trans h), fun ⟨m, hm⟩ => (by cases hm)⟩

theorem evaluation_chunk : evaluation c j (.chunk n i) = (do Traced.emit i (← (engine c j).runChunk i)) := rfl

section
variable (hj : j.Prepared t) (hi : (engine c j).Independent) (h : i < j.plan.chunks.length)
include hj hi h

/-- A chunk on its own is given out if it has a value, and fails otherwise. -/
theorem chunk_cases : (∃ g, ((engine c j).runChunk i).outcome = .ok g ∧
      (evaluation c j (.chunk n i)).emitted = [(i, g)] ∧ (evaluation c j (.chunk n i)).outcome = .ok ()) ∨
    ∃ f, ((engine c j).runChunk i).outcome = .error f ∧
      (evaluation c j (.chunk n i)).emitted = [] ∧ (evaluation c j (.chunk n i)).outcome = .error f := by
  have hquiet := (Engine.runChunk_meets (hj.ordered_of_independent hi) hi h).quiet
  rw [evaluation_chunk]
  cases hrun : ((engine c j).runChunk i).outcome with
  | ok g =>
    refine .inl ⟨g, rfl, ?_, bind_ok hrun⟩
    rw [emitted_bind_ok hrun, hquiet]
    rfl
  | error f => exact .inr ⟨f, rfl, (emitted_bind_error hrun).trans hquiet, bind_error hrun⟩

end

/-! ### The pieces of a job -/

/-- A job is one piece, or its chunks do not depend on each other and each is a piece. -/
theorem ofJob_cases (c : Context σ) (threshold : Option Nat) (j : Job) (n : Nat) :
    WorkItem.ofJob threshold j n = [.whole n] ∨
      (engine c j).Independent ∧ WorkItem.ofJob threshold j n = (List.range j.plan.chunks.length).map (.chunk n) := by
  unfold WorkItem.ofJob
  dsimp only
  split
  · rename_i h
    exact .inr ⟨Engine.independent_iff.mp (Bool.and_eq_true_iff.mp h).1, rfl⟩
  · exact .inl rfl

theorem job_of_mem_ofJob (h : item ∈ WorkItem.ofJob threshold j n) : item.job = n := by
  unfold WorkItem.ofJob at h
  dsimp only at h
  split at h
  · obtain ⟨i, -, rfl⟩ := List.mem_map.mp h
    rfl
  · rw [List.mem_singleton.mp h]
    rfl

theorem mem_ofJobs {jobs : List Job} (hn : jobs[n]? = some j) :
    item ∈ WorkItem.ofJobs jobs threshold ∧ item.job = n ↔ item ∈ WorkItem.ofJob threshold j n := by
  unfold WorkItem.ofJobs
  rw [List.mem_flatMap]
  constructor
  · rintro ⟨⟨p, hp, hmem⟩, hjob⟩
    have hp' := List.mem_zipIdx_iff_getElem?.mp hp
    cases (job_of_mem_ofJob hmem).symm.trans hjob
    cases hp'.symm.trans hn
    exact hmem
  · intro hmem
    exact ⟨⟨(j, n), List.mem_zipIdx_iff_getElem?.mpr hn, hmem⟩, job_of_mem_ofJob hmem⟩

/-- The pieces of a job succeed exactly if its run does. -/
theorem pieces_eq_ok (hj : j.Prepared t) :
    (∀ item ∈ WorkItem.ofJob threshold j n, (evaluation c j item).outcome = .ok ()) ↔
      ∃ m, (engine c j).run.outcome = .ok m := by
  rcases ofJob_cases c threshold j n with h | ⟨hi, h⟩
  · rw [h, List.forall_mem_singleton]
    exact whole_eq_ok
  · have ho := hj.ordered_of_independent hi
    rw [h, List.forall_mem_map]
    constructor
    · intro hall
      refine Engine.run_of_chunks ho hi fun i hlt => ?_
      rcases chunk_cases (n := n) hj hi hlt with ⟨g, hg, -, -⟩ | ⟨f, -, -, hf⟩
      · exact ⟨g, hg⟩
      · cases (hall i (List.mem_range.mpr hlt)).symm.trans hf
    · rintro ⟨m, hm⟩ i hlt
      rw [List.mem_range] at hlt
      obtain ⟨hindices, hchunks⟩ := Engine.chunks_of_run ho hi hm
      obtain ⟨p, hp, rfl⟩ := List.mem_map.mp (hindices ▸ List.mem_range.mpr hlt)
      rcases chunk_cases (n := n) hj hi hlt with ⟨g, -, -, hok⟩ | ⟨f, hf, -, -⟩
      · exact hok
      · cases (hchunks p hp).symm.trans hf

/-- The pieces of a job that succeeds give out what its run does. -/
theorem mem_pieces (hj : j.Prepared t) {m : Nat} (hm : (engine c j).run.outcome = .ok m) :
    (∃ item ∈ WorkItem.ofJob threshold j n, (i, g) ∈ (evaluation c j item).emitted) ↔
      (i, g) ∈ (engine c j).run.emitted := by
  rcases ofJob_cases c threshold j n with h | ⟨hi, h⟩
  · simp only [h, List.mem_singleton, exists_eq_left, emitted_whole]
  · obtain ⟨hindices, hchunks⟩ := Engine.chunks_of_run (hj.ordered_of_independent hi) hi hm
    simp only [h, List.mem_map, List.mem_range, exists_exists_and_eq_and]
    constructor
    · rintro ⟨k, hk, hmem⟩
      obtain ⟨p, hp, rfl⟩ := List.mem_map.mp (hindices ▸ List.mem_range.mpr hk)
      rcases chunk_cases (n := n) hj hi hk with ⟨g', hg', hemitted, -⟩ | ⟨f, hf, -, -⟩
      · rw [hemitted, List.mem_singleton] at hmem
        cases hmem
        cases (hchunks p hp).symm.trans hg'
        exact hp
      · cases (hchunks p hp).symm.trans hf
    · intro hmem
      have hlt : i < j.plan.chunks.length := List.mem_range.mp (hindices ▸ List.mem_map_of_mem hmem)
      refine ⟨i, hlt, ?_⟩
      rcases chunk_cases (n := n) hj hi hlt with ⟨g', hg', hemitted, -⟩ | ⟨f, hf, -, -⟩
      · cases (hchunks _ hmem).symm.trans hg'
        rw [hemitted]
        exact List.mem_singleton_self _
      · cases (hchunks _ hmem).symm.trans hf

/-- The pieces of a job give out all chunks of its output. -/
def GivesAll (c : Context σ) (threshold : Option Nat) (j : Job) (n : Nat) : Prop :=
  ∀ i < j.plan.outputChunks, ∃ item ∈ WorkItem.ofJob threshold j n, ∃ g, (i, g) ∈ (evaluation c j item).emitted

/-- Where reductions have one array, some chunk of a job with a piece that fails is never given out. -/
theorem exists_missing (hj : j.Prepared t) (hone : ∀ f ∈ t.functions.specs, f.shape = .reduce → f.arity = 1)
    {f : Failure} (hfails : ∃ item ∈ WorkItem.ofJob threshold j n, (evaluation c j item).outcome = .error f) :
    ∃ i < j.plan.outputChunks, ∀ item ∈ WorkItem.ofJob threshold j n, ∀ g, (i, g) ∉ (evaluation c j item).emitted := by
  have ho := hj.ordered hone c.source c.converter
  obtain ⟨item, hmem, hf⟩ := hfails
  rcases ofJob_cases c threshold j n with h | ⟨hi, h⟩
  · rw [h, List.mem_singleton] at hmem
    subst hmem
    obtain ⟨-, herror⟩ := emits_iff.mp (Engine.run_emits ho)
    cases hrun : (engine c j).run.outcome with
    | ok m => cases (whole_eq_ok.mpr ⟨m, hrun⟩).symm.trans hf
    | error f' =>
      obtain ⟨⟨k, hk, hindices, -⟩, -⟩ := herror f' hrun
      refine ⟨k, hk, fun item hitem g hg => ?_⟩
      rw [h, List.mem_singleton] at hitem
      subst hitem
      rw [emitted_whole] at hg
      have hin : k ∈ List.range k := hindices ▸ List.mem_map_of_mem hg
      exact absurd (List.mem_range.mp hin) (Nat.lt_irrefl k)
  · rw [h, List.mem_map] at hmem
    obtain ⟨k, hk, rfl⟩ := hmem
    rw [List.mem_range] at hk
    refine ⟨k, hi.outputChunks.symm ▸ hk, fun item hitem g hg => ?_⟩
    rw [h, List.mem_map] at hitem
    obtain ⟨k', hk', rfl⟩ := hitem
    rw [List.mem_range] at hk'
    rcases chunk_cases (n := n) hj hi hk' with ⟨g', -, hemitted, hok⟩ | ⟨f', -, hemitted, -⟩
    · rw [hemitted, List.mem_singleton] at hg
      cases hg
      cases hok.symm.trans hf
    · rw [hemitted] at hg
      cases hg

/-- The chunks of a run that succeeds are those of the output, in order. -/
theorem indices_of_run (hj : j.Prepared t) {m : Nat} (hm : (engine c j).run.outcome = .ok m) :
    (engine c j).run.emitted.map (·.1) = List.range j.plan.outputChunks := by
  have hends := Engine.run_ends (hj.passed c.source c.converter)
  rw [hm] at hends
  generalize (engine c j).run.emitted.map (·.1) = given at hends ⊢
  cases hends
  rfl

/-- The pieces of a job give out chunks of its output only. -/
theorem index_lt (hj : j.Prepared t) (hmem : item ∈ WorkItem.ofJob threshold j n)
    (hg : (i, g) ∈ (evaluation c j item).emitted) : i < j.plan.outputChunks := by
  rcases ofJob_cases c threshold j n with h | ⟨hi, h⟩
  · rw [h, List.mem_singleton] at hmem
    subst hmem
    rw [emitted_whole] at hg
    obtain ⟨k, hk, hindices⟩ := (Engine.run_ends (hj.passed c.source c.converter)).indices
    exact Nat.lt_of_lt_of_le (List.mem_range.mp (hindices ▸ List.mem_map_of_mem hg)) hk
  · rw [h, List.mem_map] at hmem
    obtain ⟨k, hk, rfl⟩ := hmem
    rw [List.mem_range] at hk
    rcases chunk_cases (n := n) hj hi hk with ⟨g', -, hemitted, -⟩ | ⟨f', -, hemitted, -⟩
    · rw [hemitted, List.mem_singleton] at hg
      cases hg
      exact hi.outputChunks.symm ▸ hk
    · rw [hemitted] at hg
      cases hg

end Dispatch
end Concord
