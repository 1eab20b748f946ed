import Concord.Proofs.Evaluate.Serving
import Concord.Proofs.Evaluate.Settling

/-! The steps of a pass for one chunk. Each streamed node gets its value, the ledger serves the readings
    to come, and each scan has seen one chunk more. -/

namespace Concord.Engine

open Traced NodeStore

variable {e : Engine} {pass c id n : Nat} {done rest : List Nat}

/-! ### Schedules -/

/-- The readings that are to come before some steps of a pass. -/
def readings (e : Engine) (pass : Nat) (rest : List Nat) : List Nat :=
  ((rest ++ e.sinks pass).flatMap e.store.parents ++
    if e.emitsRoot pass then [e.plan.root] else []).filter e.plan.streamed

theorem readings_cons : e.readings pass (id :: rest) =
    (e.store.parents id).filter e.plan.streamed ++ e.readings pass rest := by
  unfold readings
  rw [List.cons_append, List.flatMap_cons, List.append_assoc, List.filter_append]

theorem parents_of_le {s : NodeStore} (h : s.count ≤ id) : s.parents id = [] := by
  unfold NodeStore.parents node?
  rw [List.getElem?_eq_none h]
  rfl

theorem parent_lt {s : NodeStore} (hb : s.ParentsBelow) {p : Nat} (hp : p ∈ s.parents id) : p < s.count := by
  rcases Nat.lt_or_ge id s.count with h | h
  · exact Nat.lt_trans (hb id p hp) h
  · rw [parents_of_le h] at hp
    cases hp

theorem Ordered.parent_lt (ho : e.Ordered) {p : Nat} (hp : p ∈ e.store.parents id) : p < e.store.count :=
  Engine.parent_lt ho.below hp

theorem mem_sinks : id ∈ e.sinks pass ↔
    id < e.store.count ∧ e.plan.accumulates id = true ∧ (e.plan.role id).level = pass + 1 := by
  unfold sinks
  rw [List.mem_filter, List.mem_range, Bool.and_eq_true, beq_iff_eq]

theorem emitsRoot_iff : e.emitsRoot pass = true ↔
    e.plan.rootStreamed = true ∧ (e.plan.role e.plan.root).level = pass := by
  unfold emitsRoot
  rw [Bool.and_eq_true, beq_iff_eq]

theorem not_accumulates (h : e.plan.streamed id = true) : e.plan.accumulates id = false := by
  unfold Plan.accumulates
  rw [h]
  exact Bool.and_false _

/-- What the sinks and the output of a pass need. -/
theorem wanted_level (ho : e.Ordered) : ∀ i ∈ (e.sinks pass).flatMap e.store.parents ++
    (if e.emitsRoot pass then [e.plan.root] else []), (e.plan.role i).level ≤ pass := by
  intro i hi
  rcases List.mem_append.mp hi with hi | hi
  · obtain ⟨sink, hsink, hi⟩ := List.mem_flatMap.mp hi
    obtain ⟨-, ha, hl⟩ := mem_sinks.mp hsink
    obtain ⟨p, hp, -, hlevel⟩ := ho.fed sink ha
    rw [hp, List.mem_singleton] at hi
    subst hi
    omega
  · split at hi
    · rename_i he
      rw [List.mem_singleton.mp hi]
      exact Nat.le_of_eq (emitsRoot_iff.mp he).2
    · cases hi

theorem mem_steps_iff {i : Nat} : i ∈ (e.schedule pass).steps ↔ i ∈ e.store.reachedThrough e.plan.streamed
    ((e.sinks pass).flatMap e.store.parents ++ if e.emitsRoot pass then [e.plan.root] else []) := Iff.rfl

theorem nodup_steps : (e.schedule pass).steps.Nodup := (sorted_reachedThrough _).imp fun h => Nat.ne_of_lt h

theorem streamed_of_step (h : id ∈ (e.schedule pass).steps) : e.plan.streamed id = true :=
  (mem_reachedThrough.mp (mem_steps_iff.mp h)).2.2

theorem step_facts (ho : e.Ordered) (h : id ∈ (e.schedule pass).steps) :
    id < e.store.count ∧ e.plan.streamed id = true ∧ (e.plan.role id).level ≤ pass := by
  refine ⟨(mem_reachedThrough.mp (mem_steps_iff.mp h)).1, streamed_of_step h, ?_⟩
  refine reachedThrough_induction (fun i hi hs p hp => ?_) (wanted_level ho) id (mem_steps_iff.mp h)
  exact Nat.le_trans (ho.level i (not_accumulates hs) p hp) hi

theorem steps_parents (ho : e.Ordered) (h : id ∈ (e.schedule pass).steps) {p : Nat}
    (hp : p ∈ e.store.parents id) : (e.plan.role p).level ≤ pass :=
  Nat.le_trans (ho.level id (not_accumulates (step_facts ho h).2.1) p hp) (step_facts ho h).2.2

/-- The streamed parents of a step are steps before it. -/
theorem parent_done (hb : e.store.ParentsBelow) (h : (e.schedule pass).steps = done ++ id :: rest) {p : Nat}
    (hp : p ∈ e.store.parents id) (hs : e.plan.streamed p = true) : p ∈ done := by
  have hid : id ∈ (e.schedule pass).steps := h ▸ List.mem_append_right _ List.mem_cons_self
  have hmem : p ∈ (e.schedule pass).steps := parent_mem_reachedThrough hb hid hp hs
  have hsorted : (e.schedule pass).steps.Pairwise (· < ·) := sorted_reachedThrough _
  have hlt := hb id p hp
  rw [h] at hmem hsorted
  rcases List.mem_append.mp hmem with hmem | hmem
  · exact hmem
  · obtain ⟨hafter, -⟩ := List.pairwise_cons.mp (List.pairwise_append.mp hsorted).2.1
    rcases List.mem_cons.mp hmem with rfl | hmem
    · exact absurd hlt (Nat.lt_irrefl _)
    · exact absurd (Nat.lt_trans (hafter p hmem) hlt) (Nat.lt_irrefl _)

/-- The schedule counts the readings that are to come in the whole pass. -/
theorem count_uses (hb : e.store.ParentsBelow) (hroot : e.plan.root < e.store.count) (i : Nat) :
    (e.schedule pass).uses.getD i 0 = (e.readings pass (e.schedule pass).steps).count i := by
  rcases Nat.lt_or_ge i e.store.count with hi | hi
  · unfold readings schedule
    dsimp only
    rw [List.getD_eq_getElem?_getD, List.getElem?_map, List.getElem?_range hi, Option.map_some, Option.getD_some]
    cases hs : e.plan.streamed i with
    | true => rw [List.count_filter hs, if_pos rfl]
    | false =>
      rw [if_neg Bool.false_ne_true, List.count_eq_zero.mpr fun hmem => ?_]
      cases hs.symm.trans (List.mem_filter.mp hmem).2
  · have hnot : i ∉ e.readings pass (e.schedule pass).steps := by
      intro hmem
      rcases List.mem_append.mp (List.mem_filter.mp hmem).1 with hmem | hmem
      · obtain ⟨j, -, hj⟩ := List.mem_flatMap.mp hmem
        exact absurd (parent_lt hb hj) (Nat.not_lt.mpr hi)
      · split at hmem
        · rw [List.mem_singleton.mp hmem] at hi
          exact absurd hroot (Nat.not_lt.mpr hi)
        · cases hmem
    rw [List.count_eq_zero.mpr hnot]
    unfold schedule
    dsimp only
    rw [List.getD_eq_getElem?_getD, List.getElem?_map, List.getElem?_eq_none (by rwa [List.length_range])]
    rfl

/-! ### Scans -/

/-- A scan has seen some chunks. -/
def ScanAt (e : Engine) (scans : List ScanState) (id n : Nat) : Prop :=
  ∀ axis s, (e.plan.role id).carried = some axis → (e.plan.role id).kernel = some (.scan s) →
    scannedTo axis (e.scanParts id) n = some (scans.getD id none)

theorem ScanAt.congr {scans scans' : List ScanState} (h : e.ScanAt scans id n)
    (heq : scans'.getD id none = scans.getD id none) : e.ScanAt scans' id n := by
  intro axis s hc hk
  rw [heq]
  exact h axis s hc hk

/-- What the scans are once a node has its value. -/
structure Advanced (e : Engine) (id c : Nat) (scans scans' : List ScanState) : Prop where
  length : scans'.length = scans.length
  here : e.ScanAt scans' id (c + 1)
  others : ∀ i, i ≠ id → scans'.getD i none = scans.getD i none

theorem stepValue_meets (ho : e.Ordered) {gs : List (Grid Double)} {scans : List ScanState}
    (hgs : e.inputs id (some c) = some gs) (hlt : id < scans.length) (hscan : e.ScanAt scans id c) :
    (e.stepValue c id gs scans).Meets
      (fun r => e.value id (some c) = some r.1 ∧ e.Advanced id c scans r.2) (e.value id (some c) = none) := by
  unfold stepValue
  split
  · rename_i axis s hcarried hkernel
    have hstate := hscan axis s hcarried hkernel
    have hpart : e.scanParts id c = gs.head? := by rw [scanParts, hgs, Option.bind_some]
    have hvalue := value_scan ho.below hcarried hkernel c
    rw [hstate, Option.bind_some, hpart] at hvalue
    cases gs with
    | nil =>
      refine Meets.bind (Q := fun _ => False) (meets_ofExcept (fun _ h => ?_) fun _ _ => hvalue) fun _ h => h.elim
      cases h
    | cons g gs =>
      refine Meets.bind (Q := fun x => x = g) (meets_ofExcept (fun _ h => (Except.ok.inj h).symm) fun _ h => ?_) ?_
      · cases h
      rintro _ rfl
      refine meets_pure ⟨hvalue, List.length_set, fun axis' s' hc' _ => ?_, fun i hi => ?_⟩
      · cases hcarried.symm.trans hc'
        rw [scannedTo_succ, hstate, Option.bind_some, hpart, getD_set hlt, if_pos rfl]
        rfl
      · rw [getD_set hlt, if_neg hi]
  · rename_i axis hcarried hnot
    exact meets_fail (value_carried ho.below hcarried (fun s hs => hnot s hs) c)
  · rename_i hcarried
    have hvalue := value_plain ho.below hcarried c
    rw [hgs, Option.bind_some] at hvalue
    rw [hvalue]
    refine (meets_of_quiet (evaluate_quiet e id gs (some c))).bind fun g hg => meets_pure ⟨hg, rfl, ?_, fun _ _ => rfl⟩
    intro axis s hc
    rw [hcarried] at hc
    cases hc

/-! ### Steps -/

/-- Some steps of a pass are done for a chunk. -/
structure Stepped (e : Engine) (pass c : Nat) (done rest : List Nat) (s : Ledger (Grid Double) × RunState) :
    Prop where
  ledger : s.1.Serves (fun id => e.value id (some c)) done (e.readings pass rest)
  knows : e.Knows pass s.2.settled
  size : s.2.scans.length = e.store.count
  valued : ∀ id ∈ done, (e.value id (some c)).isSome = true
  scanned : ∀ id ∈ done, e.ScanAt s.2.scans id (c + 1)
  waiting : ∀ id ∈ rest, e.ScanAt s.2.scans id c

theorem inputsOf_toOption {ledger : Ledger (Grid Double)} {settled : List (Option (Grid Double))}
    (hl : ∀ p ∈ e.store.parents id, e.plan.streamed p = true → ledger.get? p = e.value p (some c))
    (hs : ∀ p ∈ e.store.parents id, e.plan.streamed p = false → settled.getD p none = e.value p none) :
    (e.inputsOf ledger settled (e.store.parents id)).toOption = e.inputs id (some c) := by
  refine toOption_mapM fun p hp => ?_
  have heq : (if e.plan.streamed p then ledger.get? p else settled.getD p none) =
      e.value p (e.keyFor (some c) p) := by
    unfold keyFor
    cases hstreamed : e.plan.streamed p with
    | true => exact hl p hp hstreamed
    | false => exact hs p hp hstreamed
  rw [heq]
  cases e.value p (e.keyFor (some c) p) <;> rfl

theorem stepNode_meets (ho : e.Ordered) (hsteps : (e.schedule pass).steps = done ++ id :: rest)
    {s : Ledger (Grid Double) × RunState} (hs : e.Stepped pass c done (id :: rest) s) :
    (e.stepNode c s id).Meets (e.Stepped pass c (done ++ [id]) rest) (e.value id (some c) = none) := by
  obtain ⟨ledger, state⟩ := s
  have hmem : id ∈ (e.schedule pass).steps := hsteps ▸ List.mem_append_right _ List.mem_cons_self
  obtain ⟨hid, hstreamed, -⟩ := step_facts ho hmem
  have hnodup : (done ++ id :: rest).Nodup := hsteps ▸ nodup_steps
  have hrest : ∀ i ∈ rest, i ≠ id := fun i hi heq =>
    (List.nodup_cons.mp (List.nodup_append.mp hnodup).2.1).1 (heq ▸ hi)
  have hdone : ∀ i ∈ done, i ≠ id := fun i hi heq =>
    (List.nodup_append.mp hnodup).2.2 i hi id List.mem_cons_self heq
  have hnone : e.inputs id (some c) = none → e.value id (some c) = none := fun h =>
    (value_chunk ho.below c).trans (chunkValue_eq_none h)
  unfold stepNode
  dsimp only
  refine ((settleAll_meets ho hs.knows hid fun p hp => steps_parents ho hmem hp).imp (fun _ h => h) hnone).bind ?_
  rintro settled ⟨hknows, -, hsettled⟩
  have hin : (e.inputsOf ledger settled (e.store.parents id)).toOption = e.inputs id (some c) := by
    refine inputsOf_toOption (fun p hp hsp => ?_) fun p hp hsp => ?_
    · refine hs.ledger.get? (parent_done ho.below hsteps hp hsp) ?_
      rw [readings_cons]
      exact List.mem_append_left _ (List.mem_filter.mpr ⟨hp, hsp⟩)
    · obtain ⟨g, hg⟩ := Option.isSome_iff_exists.mp (hsettled p hp hsp)
      rw [hg, hknows.sound p g hg]
  refine Meets.bind (Q := fun gs => e.inputs id (some c) = some gs) (meets_ofExcept (fun gs hgs => ?_)
    fun f hf => hnone ?_) fun gs hgs => ?_
  · rw [← hin, hgs]
    rfl
  · rw [← hin, hf]
    rfl
  refine (stepValue_meets ho hgs (hs.size.symm ▸ hid) (hs.waiting id List.mem_cons_self)).bind ?_
  rintro ⟨g, scans⟩ ⟨hg, hadv⟩
  refine meets_pure ⟨?_, hknows, hadv.length.trans hs.size, fun i hi => ?_, fun i hi => ?_, fun i hi => ?_⟩
  · have hserves := hs.ledger
    rw [readings_cons] at hserves
    exact hserves.releases.insert hg
  · rcases List.mem_append.mp hi with hi | hi
    · exact hs.valued i hi
    · rw [List.mem_singleton.mp hi, hg]
      rfl
  · rcases List.mem_append.mp hi with hi | hi
    · exact (hs.scanned i hi).congr (hadv.others i (hdone i hi))
    · rw [List.mem_singleton.mp hi]
      exact hadv.here
  · exact (hs.waiting i (List.mem_cons_of_mem _ hi)).congr (hadv.others i (hrest i hi))

/-- No step of a chunk is done yet. -/
theorem stepped_nil (ho : e.Ordered) {state : RunState} (hk : e.Knows pass state.settled)
    (hsize : state.scans.length = e.store.count)
    (hscans : ∀ id ∈ (e.schedule pass).steps, e.ScanAt state.scans id c) :
    e.Stepped pass c [] (e.schedule pass).steps (Ledger.ofUses (e.schedule pass).uses, state) :=
  ⟨Ledger.serves_ofUses fun i => Nat.le_of_eq (count_uses ho.below ho.root i).symm, hk, hsize,
    fun _ h => absurd h List.not_mem_nil, fun _ h => absurd h List.not_mem_nil, hscans⟩

/-- The steps of a pass for a chunk give all of them their values, unless one has none. -/
theorem stepChunk_meets (ho : e.Ordered) {state : RunState} (hk : e.Knows pass state.settled)
    (hsize : state.scans.length = e.store.count)
    (hscans : ∀ id ∈ (e.schedule pass).steps, e.ScanAt state.scans id c) :
    (e.stepChunk c (e.schedule pass) state).Meets (e.Stepped pass c (e.schedule pass).steps [])
      (∃ id ∈ (e.schedule pass).steps, e.value id (some c) = none) := by
  unfold stepChunk
  refine (meets_foldlM (P := fun done s => ∀ rest, (e.schedule pass).steps = done ++ rest →
    e.Stepped pass c done rest s) (e.schedule pass).steps ?_ (List.nil_append _).symm ?_).imp ?_ fun h => h
  · intro done id rest s hall hs
    have hmem : id ∈ (e.schedule pass).steps := hall ▸ List.mem_append_right _ List.mem_cons_self
    refine (stepNode_meets ho hall (hs _ hall)).imp (fun s' hs' rest' hall' => ?_) fun hnone => ⟨id, hmem, hnone⟩
    rw [hall, List.append_assoc] at hall'
    cases List.append_cancel_left hall'
    exact hs'
  · intro rest hall
    rw [List.nil_append] at hall
    subst hall
    exact stepped_nil ho hk hsize hscans
  · exact fun s hs => hs [] (List.append_nil _).symm

end Concord.Engine
