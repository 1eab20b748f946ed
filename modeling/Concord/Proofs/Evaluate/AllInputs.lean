import Concord.Proofs.Evaluate.Passes
import Concord.Proofs.Evaluate.Readings

/-! An evaluation that succeeds has read all inputs of its graph: those that are streamed in the steps of its passes,
    and the others when they were settled. Nothing is settled twice, so what is settled has to tell that it was read. -/

namespace Concord.Engine

open Traced NodeStore

variable {e : Engine} {ε δ α : Type} {t : Traced ε α} {id pass c fuel : Nat} {name : String} {reads : List Reading}
  {settled settled' settled'' : List (Option (Grid Double))} {ids ids' : List Nat}

/-! ### What is settled -/

/-- What was settled with some readings: its inputs are among them, and with a node its parents are settled. Only
    reductions along the dimension that is cut are settled otherwise. -/
structure SettledBy (e : Engine) (reads : List Reading) (settled : List (Option (Grid Double))) : Prop where
  length : settled.length = e.store.count
  read : ∀ i name, e.plan.accumulates i = false → e.store.kind? i = some (.operand name) →
    (settled.getD i none).isSome = true → (name, none) ∈ reads
  parents : ∀ i, e.plan.accumulates i = false → (settled.getD i none).isSome = true →
    ∀ p ∈ e.store.parents i, (settled.getD p none).isSome = true

theorem settledBy_initial (e : Engine) (reads : List Reading) : e.SettledBy reads e.initial.settled := by
  have hnone : ∀ i, e.initial.settled.getD i none = none := by
    intro i
    unfold initial
    rw [List.getD_eq_getElem?_getD, List.getElem?_replicate]
    split <;> rfl
  refine ⟨List.length_replicate, fun i _ _ _ h => ?_, fun i _ h => ?_⟩
  · rw [hnone] at h
    cases h
  · rw [hnone] at h
    cases h

/-- What was settled on the way from one moment to another, some nodes for sure. -/
structure SettledSince (e : Engine) (reads : List Reading) (ids : List Nat) (settled settled' : List (Option (Grid Double))) :
    Prop where
  sound : e.SettledBy reads settled'
  stays : ∀ i, (settled.getD i none).isSome = true → (settled'.getD i none).isSome = true
  done : ∀ i ∈ ids, e.plan.streamed i = false → (settled'.getD i none).isSome = true

theorem SettledSince.refl (h : e.SettledBy reads settled) : e.SettledSince reads [] settled settled :=
  ⟨h, fun _ h => h, fun _ h => absurd h List.not_mem_nil⟩

theorem SettledSince.trans (h : e.SettledSince reads ids settled settled') (h' : e.SettledSince reads ids' settled' settled'') :
    e.SettledSince reads (ids ++ ids') settled settled'' where
  sound := h'.sound
  stays i hi := h'.stays i (h.stays i hi)
  done i hi hs := by
    rcases List.mem_append.mp hi with hi | hi
    · exact h'.stays i (h.done i hi hs)
    · exact h'.done i hi hs

theorem SettledSince.subset (h : e.SettledSince reads ids settled settled') (hsub : ids' ⊆ ids) :
    e.SettledSince reads ids' settled settled' := ⟨h.sound, h.stays, fun i hi => h.done i (hsub hi)⟩

theorem getD_set_isSome (h : id < settled.length) {g : Grid Double} (i : Nat) :
    ((settled.set id (some g)).getD i none).isSome = true ↔ i = id ∨ (settled.getD i none).isSome = true := by
  rw [getD_set h]
  split
  · rename_i heq
    simp [heq]
  · rename_i hne
    simp [hne]

/-- A node is settled behind its parents, and if it is an input it was read. -/
theorem SettledBy.set (h : e.SettledBy reads settled) (hid : id < e.store.count) {g : Grid Double}
    (hread : e.plan.accumulates id = false → ∀ name, e.store.kind? id = some (.operand name) → (name, none) ∈ reads)
    (hparents : e.plan.accumulates id = false → ∀ p ∈ e.store.parents id, (settled.getD p none).isSome = true) :
    e.SettledSince reads [id] settled (settled.set id (some g)) := by
  have hmem := fun i => getD_set_isSome (g := g) (h.length.symm ▸ hid : id < settled.length) i
  refine ⟨⟨by rw [List.length_set, h.length], fun i name ha hk hi => ?_, fun i ha hi p hp => ?_⟩, fun i hi => ?_,
    fun i hi _ => ?_⟩
  · rcases (hmem i).mp hi with rfl | hi
    · exact hread ha name hk
    · exact h.read i name ha hk hi
  · rcases (hmem i).mp hi with rfl | hi
    · exact (hmem p).mpr (.inr (hparents ha p hp))
    · exact (hmem p).mpr (.inr (h.parents i ha hi p hp))
  · exact (hmem i).mpr (.inr hi)
  · exact (hmem i).mpr (.inl (List.mem_singleton.mp hi))

/-! ### Reductions -/

/-- Reductions are settled with what they have seen. -/
theorem finish_settles (ho : e.Ordered) {accumulators : List (Nat × Accumulator)} (h : e.SettledBy reads settled)
    (ha : ∀ a ∈ accumulators, e.plan.accumulates a.1 = true)
    (hok : accumulators.foldlM e.finish settled = .ok settled') : e.SettledSince reads [] settled settled' := by
  refine foldlM_induction (P := fun _ s => e.SettledSince reads [] settled s) accumulators ?_ (List.nil_append _).symm
    (.refl h) hok
  intro done a rest s s' hall hs hstep
  have hmem : e.plan.accumulates a.1 = true := ha a (hall ▸ List.mem_append_right _ List.mem_cons_self)
  unfold finish at hstep
  split at hstep
  · cases hstep
    refine (hs.trans (hs.sound.set (ho.inside _ hmem) (fun hnot => ?_) fun hnot => ?_)).subset (List.nil_subset _)
    · cases hmem.symm.trans hnot
    · cases hmem.symm.trans hnot
  · cases hstep

/-! ### Settling -/

section
variable (ho : e.Ordered) (hconf : e.Confined)
include ho hconf

/-- Settling a node settles it, and reads the inputs that are settled for it. -/
theorem settle_settles : ∀ (fuel id : Nat) {settled settled' : List (Option (Grid Double))}, id < e.store.count →
    e.plan.streamed id = false → e.SettledBy t.reads settled → Part (e.settle fuel id settled) t →
      (e.settle fuel id settled).outcome = .ok settled' → e.SettledSince t.reads [id] settled settled'
  | 0, _, _, _, _, _, _, _, hok => by cases hok
  | fuel + 1, id, settled, settled', hid, hs, h, hpart, hok => by
    unfold settle at hpart hok
    split at hok
    · rename_i hsome
      cases hok
      exact ⟨h, fun _ hi => hi, fun i hi _ => List.mem_singleton.mp hi ▸ hsome⟩
    rename_i hnone
    rw [if_neg hnone] at hpart
    split at hok
    · cases hok
    rename_i ha
    rw [if_neg ha] at hpart
    rw [Bool.not_eq_true] at ha
    have hparents : ∀ p ∈ e.store.parents id, e.plan.streamed p = false := fun p hp => hconf.settled_parents hs ha hp
    obtain ⟨hfold, mid, hmid, hpart⟩ := hpart.bind
    rw [bind_ok hmid] at hok
    have hsettles : e.SettledSince t.reads (e.store.parents id) settled mid := by
      refine hfold.foldlM_induction (P := fun done s => e.SettledSince t.reads done settled s) ?_ (e.store.parents id) []
        (List.nil_append _).symm (.refl h) hmid
      intro done p s s' hp hs hstep hnext
      exact hs.trans (settle_settles fuel p (ho.parent_lt hp) (hparents p hp) hs.sound hstep hnext)
    obtain ⟨-, inputs, hinputs, hpart⟩ := hpart.bind
    rw [bind_ok hinputs] at hok
    obtain ⟨hvalue, value, hval, -⟩ := hpart.bind
    rw [bind_ok hval] at hok
    cases hok
    have hset : e.SettledSince t.reads [id] mid (mid.set id (some value)) := by
      refine hsettles.sound.set hid (fun _ name hk => ?_) fun _ p hp => hsettles.done p hp (hparents p hp)
      obtain ⟨a, bounds, g, -, hbounds, -, hread⟩ := read_of_evaluate hk hvalue
      cases hbounds
      exact hread
    exact (hsettles.trans hset).subset (List.subset_append_right _ _)

theorem settleAll_settles (hids : ∀ i ∈ ids, i < e.store.count) (h : e.SettledBy t.reads settled)
    (hpart : Part (e.settleAll ids settled) t) (hok : (e.settleAll ids settled).outcome = .ok settled') :
    e.SettledSince t.reads ids settled settled' := by
  have hsettles : e.SettledSince t.reads (ids.filter fun i => !e.plan.streamed i) settled settled' := by
    refine hpart.foldlM_induction (P := fun done s => e.SettledSince t.reads done settled s) ?_ _ []
      (List.nil_append _).symm (.refl h) hok
    intro done i s s' hi hs hstep hnext
    obtain ⟨hi, hstreamed⟩ := List.mem_filter.mp hi
    exact hs.trans (settle_settles ho hconf _ i (hids i hi) (by simpa using hstreamed) hs.sound hstep hnext)
  exact ⟨hsettles.sound, hsettles.stays, fun i hi hs => hsettles.done i (List.mem_filter.mpr ⟨hi, by rw [hs]; rfl⟩) hs⟩

/-! ### Chunks and passes -/

/-- A step settles the parents of its node that do not depend on the chunk. -/
theorem stepNode_settles {s s' : Ledger (Grid Double) × RunState} (h : e.SettledBy t.reads s.2.settled)
    (hpart : Part (e.stepNode c s id) t) (hok : (e.stepNode c s id).outcome = .ok s') :
    e.SettledSince t.reads (e.store.parents id) s.2.settled s'.2.settled := by
  obtain ⟨hsettle, mid, hmid, -⟩ := hpart.bind
  unfold stepNode at hok
  rw [bind_ok hmid] at hok
  obtain ⟨inputs, -, hok⟩ := bind_outcome_ok hok
  obtain ⟨value, -, hok⟩ := bind_outcome_ok hok
  cases hok
  exact settleAll_settles ho hconf (fun p hp => ho.parent_lt hp) h hsettle hmid

theorem stepChunk_settles {schedule : Schedule} {state : RunState} {s' : Ledger (Grid Double) × RunState}
    (h : e.SettledBy t.reads state.settled) (hpart : Part (e.stepChunk c schedule state) t)
    (hok : (e.stepChunk c schedule state).outcome = .ok s') :
    e.SettledSince t.reads (schedule.steps.flatMap e.store.parents) state.settled s'.2.settled := by
  refine hpart.foldlM_induction
    (P := fun done s => e.SettledSince t.reads (done.flatMap e.store.parents) state.settled s.2.settled) ?_ schedule.steps []
    (List.nil_append _).symm ?_ hok
  · intro done id s s' _ hs hstep hnext
    rw [List.flatMap_append, List.flatMap_singleton]
    exact hs.trans (stepNode_settles ho hconf hs.sound hstep hnext)
  · exact .refl h

/-- A chunk of a pass. -/
theorem runChunkOfPass_settles {schedule : Schedule} {s s' : RunState × List (Nat × Accumulator)}
    (h : e.SettledBy t.reads s.1.settled) (hpart : Part (e.runChunkOfPass schedule s c) t)
    (hok : (e.runChunkOfPass schedule s c).outcome = .ok s') :
    e.SettledSince t.reads (schedule.steps.flatMap e.store.parents) s.1.settled s'.1.settled ∧
      s'.2.map (·.1) = s.2.map (·.1) := by
  obtain ⟨hsteps, -⟩ := hpart.bind
  obtain ⟨ledger, _, hok, hfeed, -⟩ := runChunkOfPass_eq_ok hok
  exact ⟨stepChunk_settles ho hconf h hsteps.mapError hok, feed_ids hfeed⟩

/-- A pass over at least one chunk. -/
theorem runPass_settles {state state' : RunState} (h : e.SettledBy t.reads state.settled)
    (hpart : Part (e.runPass state pass) t) (hok : (e.runPass state pass).outcome = .ok state') :
    e.SettledSince t.reads ((e.schedule pass).steps.flatMap e.store.parents) state.settled state'.settled := by
  obtain ⟨-, accumulators, hstart, hpart⟩ := hpart.bind
  obtain ⟨hchunks, ⟨mid, accumulators'⟩, hmid, -⟩ := hpart.bind
  unfold runPass at hok
  rw [bind_ok hstart, bind_ok hmid] at hok
  obtain ⟨settled, hfinish, hok⟩ := bind_outcome_ok hok
  cases hok
  have hsettles := hchunks.foldlM_induction
    (P := fun done s => e.SettledSince t.reads (done.flatMap fun _ => (e.schedule pass).steps.flatMap e.store.parents)
      state.settled s.1.settled ∧ s.2.map (·.1) = accumulators.map (·.1)) ?_ _ [] (List.nil_append _).symm ⟨?_, rfl⟩ hmid
  · obtain ⟨hsettles, hids⟩ := hsettles
    obtain ⟨hsinks, -⟩ := (accumulators_meets ho).ok hstart
    have haccumulates : ∀ a ∈ accumulators', e.plan.accumulates a.1 = true := by
      intro a ha
      have hmem : a.1 ∈ e.sinks pass := hsinks ▸ hids ▸ List.mem_map_of_mem ha
      exact (mem_sinks.mp hmem).2.1
    refine (hsettles.trans (finish_settles ho hsettles.sound haccumulates hfinish)).subset fun i hi => ?_
    refine List.mem_append_left _ (List.mem_flatMap.mpr ⟨0, List.mem_range.mpr ho.chunks, hi⟩)
  · intro done c s s' _ hs hstep hnext
    obtain ⟨hchunk, hids⟩ := runChunkOfPass_settles ho hconf hs.1.sound hstep hnext
    rw [List.flatMap_append, List.flatMap_singleton]
    exact ⟨hs.1.trans hchunk, hids.trans hs.2⟩
  · exact .refl h

end

/-! ### Chunks on their own -/

theorem runChunk_eq_ok {g : Grid Double} (h : (e.runChunk c).outcome = .ok g) :
    e.plan.independent = true ∧ c < e.plan.chunks.length := by
  unfold runChunk at h
  split at h
  · cases h
  · rename_i hind
    split at h
    · cases h
    · rename_i hlt
      exact ⟨by simpa using hind, Nat.lt_of_not_le hlt⟩

theorem runChunk_eq (hind : e.plan.independent = true) (hc : c < e.plan.chunks.length) :
    e.runChunk c = (e.stepChunk c (e.schedule 0) e.initial).mapError (inChunk c) >>= fun s =>
      Traced.ofExcept (e.output c s.1) := by
  unfold runChunk
  rw [if_neg (by simp [hind]), if_neg (Nat.not_le.mpr hc)]

/-- Nothing but inputs is read for it. -/
theorem runChunk_reads (hconf : e.Confined) : (e.runChunk c).Reads e.Asks := by
  unfold runChunk
  split
  · exact reads_fail
  · split
    · exact reads_fail
    · rename_i hlt
      have hsteps : (e.stepChunk c (e.schedule 0) e.initial).Reads e.Asks :=
        reads_foldlM fun id _ s => stepNode_reads hconf (Nat.lt_of_not_le hlt) s id
      exact hsteps.mapError.bind fun _ _ => reads_ofExcept

/-! ### All inputs -/

section
variable (ho : e.Ordered) (hconn : Resolution.Connected e.store e.plan.root)
include ho hconn

/-- If the parents of all streamed nodes are settled where they do not depend on the chunk, and so is the root, then all
    nodes are settled that do not depend on it. -/
theorem isSome_settled (h : e.SettledBy reads settled)
    (hsteps : ∀ i, i < e.store.count → e.plan.streamed i = true → ∀ p ∈ e.store.parents i, e.plan.streamed p = false →
      (settled.getD p none).isSome = true)
    (hroot : e.plan.rootStreamed = false → (settled.getD e.plan.root none).isSome = true) (hid : id < e.store.count)
    (hs : e.plan.streamed id = false) (ha : e.plan.accumulates id = false) : (settled.getD id none).isSome = true := by
  refine hconn (fun i => e.plan.streamed i = false → e.plan.accumulates i = false → (settled.getD i none).isSome = true)
    (fun hs _ => hroot hs) (fun i hi p hp hsp _ => ?_) id hid hs ha
  have hlt : i < e.store.count := by
    by_contra hge
    rw [parents_of_le (Nat.le_of_not_lt hge)] at hp
    cases hp
  cases hsi : e.plan.streamed i with
  | true => exact hsteps i hlt hsi p hp hsp
  | false =>
    cases hai : e.plan.accumulates i with
    | true =>
      -- What a reduction is fed with is streamed.
      obtain ⟨q, hq, hsq, -⟩ := ho.fed i hai
      rw [hq, List.mem_singleton] at hp
      cases (hp ▸ hsp).symm.trans hsq
    | false => exact h.parents i hai (hi hsi hai) p hp

/-- Then all inputs are read that do not depend on the chunk. -/
theorem read_of_settled (h : e.SettledBy reads settled)
    (hsteps : ∀ i, i < e.store.count → e.plan.streamed i = true → ∀ p ∈ e.store.parents i, e.plan.streamed p = false →
      (settled.getD p none).isSome = true)
    (hroot : e.plan.rootStreamed = false → (settled.getD e.plan.root none).isSome = true)
    (hk : e.store.kind? id = some (.operand name)) (hcarried : (e.plan.role id).carried = none)
    (hs : e.plan.streamed id = false) : (name, none) ∈ reads := by
  have ha : e.plan.accumulates id = false := by
    unfold Plan.accumulates
    rw [hcarried]
    rfl
  exact h.read id name ha hk (isSome_settled ho hconn h hsteps hroot (lt_of_kind hk) hs ha)

variable (hconf : e.Confined)
include hconf

/-- A run that succeeds has read all inputs of its graph. -/
theorem read_of_run {m : Nat} (hm : e.run.outcome = .ok m) (hk : e.store.kind? id = some (.operand name))
    (hcarried : (e.plan.role id).carried = none) : ∃ bounds, (name, bounds) ∈ e.run.reads := by
  cases hs : e.plan.streamed id with
  | true =>
    obtain ⟨a, bounds, g, -, -, -, hread⟩ := reads_of_run ho hconn hconf hm hk hs hcarried ho.chunks
    exact ⟨bounds, hread⟩
  | false =>
    obtain ⟨hpasses, state, hstate, hrest⟩ := (Part.refl hm).bind
    have hsettles : e.SettledSince e.run.reads
        ((List.range e.plan.passes).flatMap fun pass => (e.schedule pass).steps.flatMap e.store.parents)
        e.initial.settled state.settled := by
      refine hpasses.foldlM_induction (P := fun done s => e.SettledSince e.run.reads
        (done.flatMap fun pass => (e.schedule pass).steps.flatMap e.store.parents) e.initial.settled s.settled) ?_ _ []
        (List.nil_append _).symm ?_ hstate
      · intro done pass s s' _ hs hstep hnext
        rw [List.flatMap_append, List.flatMap_singleton]
        exact hs.trans (runPass_settles ho hconf hs.sound hstep hnext)
      · exact .refl (settledBy_initial e _)
    have hsteps : ∀ i, i < e.store.count → e.plan.streamed i = true → ∀ p ∈ e.store.parents i,
        e.plan.streamed p = false → (state.settled.getD p none).isSome = true := by
      intro i hi hsi p hp
      obtain ⟨pass, hpass, hstep⟩ := exists_pass ho hconn hconf hi hsi
      exact hsettles.done p (List.mem_flatMap.mpr
        ⟨pass, List.mem_range.mpr hpass, List.mem_flatMap.mpr ⟨i, hstep, hp⟩⟩)
    cases hroot : e.plan.rootStreamed with
    | true =>
      refine ⟨none, read_of_settled ho hconn hsettles.sound hsteps (fun h => ?_) hk hcarried hs⟩
      cases hroot.symm.trans h
    | false =>
      rw [if_neg (Bool.eq_false_iff.mp hroot)] at hrest
      obtain ⟨hemit, -⟩ := hrest.bind
      obtain ⟨hsettle, settled, hsettled, -⟩ := hemit.bind
      have hfinal := settle_settles ho hconf _ _ ho.root hroot hsettles.sound hsettle.mapError (mapError_eq_ok.mp hsettled)
      refine ⟨none, read_of_settled ho hconn hfinal.sound (fun i hi hsi p hp hsp => ?_) (fun h => ?_) hk hcarried hs⟩
      · exact hfinal.stays p (hsteps i hi hsi p hp hsp)
      · exact hfinal.done _ (List.mem_singleton_self _) h

/-- A chunk that is evaluated on its own takes all inputs as well. -/
theorem read_of_runChunk {g : Grid Double} (hm : (e.runChunk c).outcome = .ok g)
    (hk : e.store.kind? id = some (.operand name)) (hcarried : (e.plan.role id).carried = none) :
    ∃ bounds, (name, bounds) ∈ (e.runChunk c).reads := by
  obtain ⟨hind, hc⟩ := runChunk_eq_ok hm
  obtain ⟨hroot, hpasses⟩ : e.plan.rootStreamed = true ∧ e.plan.passes = 1 := by
    unfold Plan.independent at hind
    simp only [Bool.and_eq_true, beq_iff_eq] at hind
    exact hind.1
  have hpart := Part.refl hm
  nth_rewrite 1 [runChunk_eq hind hc] at hpart
  obtain ⟨hsteps, s, hs, -⟩ := hpart.bind
  have hsettles := stepChunk_settles ho hconf (settledBy_initial e _) hsteps.mapError (mapError_eq_ok.mp hs)
  -- There is one pass, so all that is streamed is in its steps.
  have hall : ∀ i, i < e.store.count → e.plan.streamed i = true → i ∈ (e.schedule 0).steps := by
    intro i hi hsi
    obtain ⟨pass, hpass, hstep⟩ := exists_pass ho hconn hconf hi hsi
    rw [hpasses, Nat.lt_one_iff] at hpass
    exact hpass ▸ hstep
  cases hsid : e.plan.streamed id with
  | true =>
    obtain ⟨a, bounds, g, -, -, -, hread⟩ := read_of_stepChunk hk hcarried (hall id (lt_of_kind hk) hsid) hsteps.mapError
    exact ⟨bounds, hread⟩
  | false =>
    refine ⟨none, read_of_settled ho hconn hsettles.sound (fun i hi hsi p hp hsp => ?_) (fun h => ?_) hk hcarried hsid⟩
    · exact hsettles.done p (List.mem_flatMap.mpr ⟨i, hall i hi hsi, hp⟩) hsp
    · cases hroot.symm.trans h

end

end Concord.Engine
