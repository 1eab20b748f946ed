import Concord.Proofs.Evaluate.Passes

/-! Whole runs. A run that succeeds gives out the values of the root, in order; one that fails has given
    out some of them, and some node lacks a value. A chunk on its own has the same value as in a run. -/

namespace Concord.Engine

open Traced NodeStore

variable {e : Engine} {c : Nat}

/-- The whole output was given out. -/
def Complete (e : Engine) (es : List (Nat × Grid Double)) : Prop :=
  if e.plan.rootStreamed then e.Given e.plan.chunks.length es
  else ∃ g, es = [(0, g)] ∧ e.value e.plan.root none = some g

/-- Some chunks of the output, but not all, were given out. -/
def Partial (e : Engine) (es : List (Nat × Grid Double)) : Prop := ∃ m < e.plan.outputChunks, e.Given m es

theorem outputChunks_pos (hchunks : 0 < e.plan.chunks.length) : 0 < e.plan.outputChunks := by
  unfold Plan.outputChunks
  split
  · exact hchunks
  · exact Nat.one_pos

theorem knows_initial (ho : e.Ordered) : e.Knows 0 e.initial.settled := by
  refine ⟨List.length_replicate, fun i g h => ?_, fun i ha hl => ?_⟩
  · unfold initial at h
    rw [List.getD_eq_getElem?_getD, List.getElem?_replicate] at h
    split at h <;> cases h
  · obtain ⟨p, -, -, hlevel⟩ := ho.fed i ha
    omega

/-! ### Passes -/

/-- What the first passes have given out: nothing before the level of the root is done. -/
def GivenBy (e : Engine) (passes : Nat) (es : List (Nat × Grid Double)) : Prop :=
  e.Given (if e.plan.rootStreamed && decide ((e.plan.role e.plan.root).level < passes) then e.plan.chunks.length else 0) es

theorem givenBy_zero (e : Engine) : e.GivenBy 0 [] := by
  have hnot : decide ((e.plan.role e.plan.root).level < 0) = false := decide_eq_false (Nat.not_lt_zero _)
  unfold GivenBy
  rw [hnot, Bool.and_false, if_neg Bool.false_ne_true]
  exact given_nil e

theorem GivenBy.eq_nil (ho : e.Ordered) {pass : Nat} {es : List (Nat × Grid Double)} (hpass : pass < e.plan.passes)
    (h : e.GivenBy pass es) : es = [] := by
  have hnone : e.Given 0 es := by
    unfold GivenBy at h
    cases hr : e.plan.rootStreamed with
    | false => simpa [hr] using h
    | true =>
      rw [ho.passes, hr, if_pos rfl] at hpass
      have hnot : ¬(e.plan.role e.plan.root).level < pass := by omega
      simpa [hr, hnot] using h
  exact List.map_eq_nil_iff.mp hnone.1

theorem GivenIn.givenBy (ho : e.Ordered) {pass : Nat} {es : List (Nat × Grid Double)} (hpass : pass < e.plan.passes)
    (h : e.GivenIn pass e.plan.chunks.length es) : e.GivenBy (pass + 1) es := by
  unfold GivenIn emitsRoot at h
  unfold GivenBy
  cases hr : e.plan.rootStreamed with
  | false => simpa [hr] using h
  | true =>
    rw [ho.passes, hr, if_pos rfl] at hpass
    have hiff : (e.plan.role e.plan.root).level = pass ↔ (e.plan.role e.plan.root).level < pass + 1 := by omega
    simpa [hr, hiff] using h

/-- A pass that fails has not given out all chunks. -/
theorem GivenIn.partial (ho : e.Ordered) {pass m : Nat} {es : List (Nat × Grid Double)} (hm : m < e.plan.chunks.length)
    (h : e.GivenIn pass m es) : e.Partial es := by
  unfold GivenIn at h
  split at h
  · rename_i he
    refine ⟨m, ?_, h⟩
    unfold Plan.outputChunks
    rwa [if_pos (emitsRoot_iff.mp he).1]
  · exact ⟨0, outputChunks_pos ho.chunks, h⟩

theorem passes_emits (ho : e.Ordered) :
    ((List.range e.plan.passes).foldlM e.runPass e.initial).Emits
      (fun es s => e.Knows e.plan.passes s.settled ∧
        e.Given (if e.plan.rootStreamed then e.plan.chunks.length else 0) es)
      fun es => e.Partial es ∧ e.Lacks := by
  have hpasses := emits_foldlM (P := fun done es s => e.Knows done.length s.settled ∧
      s.scans.length = e.store.count ∧ e.GivenBy done.length es)
    (B := fun es => e.Partial es ∧ e.Lacks) (f := e.runPass) (List.range e.plan.passes) ?_
    (List.nil_append _).symm ⟨knows_initial ho, List.length_replicate, givenBy_zero e⟩
  · refine hpasses.imp (fun es s h => ?_) fun es h => h
    rw [List.nil_append, List.length_range] at h
    refine ⟨h.1, ?_⟩
    have hgiven := h.2.2
    unfold GivenBy at hgiven
    rw [ho.passes] at hgiven
    cases hr : e.plan.rootStreamed <;> simpa [hr] using hgiven
  · rintro done pass rest es s hall ⟨hk, hsize, hgiven⟩
    obtain ⟨rfl, hlt⟩ := eq_length_of_range hall
    cases hgiven.eq_nil ho hlt
    refine (runPass_emits ho hlt hk hsize).imp (fun es' s' ⟨hk', hsize', hin⟩ => ?_) fun es' ⟨⟨m, hm, hin⟩, hlacks⟩ => ?_
    · rw [List.nil_append, List.length_append, List.length_singleton]
      exact ⟨hk', hsize', hin.givenBy ho hlt⟩
    · exact ⟨hin.partial ho hm, hlacks⟩

/-- A run gives out the values of the root, unless some node lacks a value. -/
theorem run_emits (ho : e.Ordered) :
    e.run.Emits (fun es n => n = e.plan.outputChunks ∧ e.Complete es) fun es => e.Partial es ∧ e.Lacks := by
  unfold run Complete Plan.outputChunks
  refine (passes_emits ho).bind (fun _ h => h) ?_
  rintro es state ⟨hk, hgiven⟩
  cases hr : e.plan.rootStreamed with
  | true =>
    rw [hr, if_pos rfl] at hgiven
    simp only [if_true]
    exact ⟨rfl, (List.append_nil es).symm ▸ hgiven⟩
  | false =>
    rw [hr, if_neg Bool.false_ne_true] at hgiven
    have hnil : es = [] := List.map_eq_nil_iff.mp hgiven.1
    subst hnil
    simp only [Bool.false_eq_true, if_false]
    have hlevel : (e.plan.role e.plan.root).level ≤ e.plan.passes := by
      rw [ho.passes]
      exact Nat.le_add_right ..
    have hsettle := (settle_meets ho (e.store.count + 1) e.plan.root hk (Nat.lt_succ_of_lt ho.root) ho.root
      hlevel).mapError (f := inChunk 0)
    have hemit : (e.emitSettled state).Emits
        (fun es _ => ∃ g, es = [(0, g)] ∧ e.value e.plan.root none = some g) fun es => es = [] ∧ e.Lacks := by
      unfold emitSettled
      refine hsettle.emits.bind (fun es h => ⟨h.1, .whole ho.root hr (.inr rfl) h.2⟩) ?_
      rintro _ s ⟨rfl, hs, -, hsome⟩
      obtain ⟨g, hg⟩ := Option.isSome_iff_exists.mp hsome
      rw [hg]
      exact ⟨g, rfl, hs.sound _ g hg⟩
    refine (hemit.bind (fun es h => ?_) fun es _ h => ?_)
    · rw [List.nil_append]
      exact ⟨⟨0, outputChunks_pos ho.chunks, h.1 ▸ given_nil e⟩, h.2⟩
    · refine ⟨rfl, ?_⟩
      have hes : [] ++ (es ++ (pure 1 : Traced Failure Nat).emitted) = es := List.append_nil es
      rw [hes]
      exact h

end Concord.Engine

/-! Chunks on their own. If chunks do not depend on each other, a run succeeds exactly if each chunk on its
    own does, and gives out what these give. -/

namespace Concord.Engine

open Traced NodeStore

variable {e : Engine} {c : Nat}

/-- Chunks that can be evaluated in any order. -/
structure Independent (e : Engine) : Prop where
  streamed : e.plan.rootStreamed = true
  passes : e.plan.passes = 1
  carried : ∀ i, (e.plan.role i).carried = none

theorem independent_iff : e.plan.independent = true ↔ e.Independent := by
  simp only [Plan.independent, Bool.and_eq_true, beq_iff_eq, List.all_eq_true, Option.isNone_iff_eq_none]
  constructor
  · rintro ⟨⟨hs, hp⟩, hall⟩
    refine ⟨hs, hp, fun i => ?_⟩
    rcases Nat.lt_or_ge i e.plan.roles.length with hi | hi
    · have hget : e.plan.role i = e.plan.roles[i] := by simp [Plan.role, List.getD_eq_getElem?_getD, hi]
      rw [hget]
      exact hall _ (List.getElem_mem hi)
    · simp [Plan.role, List.getD_eq_getElem?_getD, List.getElem?_eq_none hi]
  · rintro ⟨hs, hp, hall⟩
    refine ⟨⟨hs, hp⟩, fun r hr => ?_⟩
    obtain ⟨i, hi, rfl⟩ := List.mem_iff_getElem.mp hr
    simpa [Plan.role, List.getD_eq_getElem?_getD, hi] using hall i

namespace Independent

theorem outputChunks (h : e.Independent) : e.plan.outputChunks = e.plan.chunks.length := by
  simp [Plan.outputChunks, h.streamed]

theorem accumulates (h : e.Independent) (i : Nat) : e.plan.accumulates i = false := by
  simp [Plan.accumulates, h.carried]

theorem sinks (h : e.Independent) (pass : Nat) : e.sinks pass = [] := by
  refine List.eq_nil_iff_forall_not_mem.mpr fun id hid => ?_
  have ha := (mem_sinks.mp hid).2.1
  rw [h.accumulates id] at ha
  cases ha

/-- The output comes in the first pass. -/
theorem emitsRoot (h : e.Independent) (ho : e.Ordered) : e.emitsRoot 0 = true := by
  have hp := ho.passes
  rw [h.passes, h.streamed, if_pos rfl] at hp
  exact emitsRoot_iff.mpr ⟨h.streamed, (Nat.succ.inj hp).symm⟩

theorem scanAt (h : e.Independent) (scans : List ScanState) (id n : Nat) : e.ScanAt scans id n := by
  intro axis s hcarried
  rw [h.carried id] at hcarried
  cases hcarried

theorem resetScans (h : e.Independent) (steps : List Nat) (scans : List ScanState) : e.resetScans steps scans = scans := by
  simp [Engine.resetScans, h.carried]

end Independent

/-- A value of the root needs one of each step. -/
theorem Independent.valued (hi : e.Independent) (ho : e.Ordered) (hv : (e.value e.plan.root (some c)).isSome = true) :
    ∀ id ∈ (e.schedule 0).steps, (e.value id (some c)).isSome = true := by
  have hroot : ∀ i ∈ (e.sinks 0).flatMap e.store.parents ++ (if e.emitsRoot 0 then [e.plan.root] else []),
      e.plan.streamed i = true → (e.value i (some c)).isSome = true := by
    intro i hmem _
    rw [hi.sinks, List.flatMap_nil, List.nil_append, if_pos (hi.emitsRoot ho), List.mem_singleton] at hmem
    exact hmem ▸ hv
  have hstep : ∀ i, (e.plan.streamed i = true → (e.value i (some c)).isSome = true) → e.plan.streamed i = true →
      ∀ p ∈ e.store.parents i, e.plan.streamed p = true → (e.value p (some c)).isSome = true := by
    intro i hvalue hs p hp hsp
    rw [Option.isSome_iff_ne_none]
    intro hnone
    have hkey : e.keyFor (some c) p = some c := if_pos hsp
    have hinputs : e.inputs i (some c) = none := inputs_eq_none hp (by rw [hkey, hnone])
    have hsome := hvalue hs
    rw [value_plain ho.below (hi.carried i), hinputs] at hsome
    cases hsome
  intro id hid
  exact reachedThrough_induction hstep hroot id (mem_steps_iff.mp hid) (step_facts ho hid).2.1

/-- A chunk on its own has the value that it has in a run. -/
theorem runChunk_meets (ho : e.Ordered) (hi : e.Independent) (hc : c < e.plan.chunks.length) :
    (e.runChunk c).Meets (fun g => e.value e.plan.root (some c) = some g) (e.value e.plan.root (some c) = none) := by
  have hnone : (∃ id ∈ (e.schedule 0).steps, e.value id (some c) = none) → e.value e.plan.root (some c) = none := by
    rintro ⟨id, hid, hnone⟩
    by_contra hv
    have hsome := hi.valued ho (Option.isSome_iff_ne_none.mpr hv) id hid
    rw [hnone] at hsome
    cases hsome
  have hsteps := (stepChunk_meets ho (knows_initial ho) List.length_replicate fun id _ => hi.scanAt _ id c).mapError (f := inChunk c)
  have hind : e.plan.independent = true := independent_iff.mpr hi
  simp only [runChunk, hind, Bool.not_true, Bool.false_eq_true, if_false, if_neg (Nat.not_le.mpr hc)]
  refine (hsteps.imp (fun _ h => h) hnone).bind ?_
  rintro ⟨l, state⟩ hst
  have hserves := hst.ledger
  obtain ⟨g, hg⟩ := Option.isSome_iff_exists.mp (hst.valued _ (root_step ho.root (hi.emitsRoot ho)))
  simp only [readings, hi.sinks, List.append_nil, List.flatMap_nil, List.nil_append, hi.emitsRoot ho,
    if_true] at hserves
  rw [output_eq_ok ho (hi.emitsRoot ho) hserves hg]
  exact meets_pure hg

theorem runChunk_toOption (ho : e.Ordered) (hi : e.Independent) (hc : c < e.plan.chunks.length) :
    (e.runChunk c).outcome.toOption = e.value e.plan.root (some c) := by
  have hmeets := runChunk_meets ho hi hc
  cases hrun : (e.runChunk c).outcome with
  | ok g => exact (hmeets.ok hrun).symm
  | error f => exact (hmeets.error hrun).symm

/-- A run succeeds if each chunk on its own does. -/
theorem run_of_chunks (ho : e.Ordered) (hi : e.Independent)
    (h : ∀ c < e.plan.chunks.length, ∃ g, (e.runChunk c).outcome = .ok g) : ∃ n, e.run.outcome = .ok n := by
  obtain ⟨-, herror⟩ := emits_iff.mp (run_emits ho)
  cases hrun : e.run.outcome with
  | ok n => exact ⟨n, rfl⟩
  | error f =>
    exfalso
    cases (herror f hrun).2 with
    | @step pass c id hpass hc hid hnone =>
      rw [hi.passes, Nat.lt_one_iff] at hpass
      subst hpass
      obtain ⟨g, hg⟩ := h c hc
      have hsome := hi.valued ho (by rw [← runChunk_toOption ho hi hc, hg]; rfl) id hid
      rw [hnone] at hsome
      cases hsome
    | whole _ hs hneeded _ =>
      rcases hneeded with ha | rfl
      · rw [hi.accumulates] at ha
        cases ha
      · cases hs.symm.trans hi.streamed

/-- A run that succeeds gives out what each chunk gives on its own. -/
theorem chunks_of_run (ho : e.Ordered) (hi : e.Independent) {n : Nat} (h : e.run.outcome = .ok n) :
    e.run.emitted.map (·.1) = List.range e.plan.chunks.length ∧
      ∀ p ∈ e.run.emitted, (e.runChunk p.1).outcome = .ok p.2 := by
  obtain ⟨hok, -⟩ := emits_iff.mp (run_emits ho)
  have hcomplete := (hok n h).2
  unfold Complete at hcomplete
  rw [hi.streamed, if_pos rfl] at hcomplete
  refine ⟨hcomplete.1, fun p hp => toOption_eq_some.mp ?_⟩
  have hlt : p.1 < e.plan.chunks.length := List.mem_range.mp (hcomplete.1 ▸ List.mem_map_of_mem hp)
  rw [runChunk_toOption ho hi hlt]
  exact hcomplete.2 p hp

end Concord.Engine
