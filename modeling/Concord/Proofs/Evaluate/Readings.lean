import Concord.Proofs.Evaluate.Traces
import Concord.Proofs.Evaluate.Steps
import Concord.Proofs.Resolve.Compaction

/-! What a run reads. Inputs that have the dimension that is cut are read chunk by chunk and never beyond;
    a run that succeeds has read all chunks of them. -/

namespace Concord.Engine

open Traced NodeStore

variable {e : Engine} {id : Nat} {name : String}

/-- A node with a streamed parent is streamed, or a reduction along the dimension that is cut. -/
def Confined (e : Engine) : Prop :=
  ∀ i p, p ∈ e.store.parents i → e.plan.streamed p = true → e.plan.streamed i = true ∨ e.plan.accumulates i = true

/-- What a node depends on that does not depend on the chunk does not depend on it either. -/
theorem Confined.settled_parents (h : e.Confined) (hs : e.plan.streamed id = false) (ha : e.plan.accumulates id = false)
    {p : Nat} (hp : p ∈ e.store.parents id) : e.plan.streamed p = false := by
  rw [Bool.eq_false_iff]
  intro hsp
  rcases h id p hp hsp with h | h
  · cases hs.symm.trans h
  · cases ha.symm.trans h

/-- A reading that an evaluation may make: of an input for a chunk, or of one that does not depend on it. -/
inductive Asks (e : Engine) : Reading → Prop
  | chunk {id c : Nat} {name : String} {a : Layout} {bounds : Option Bounds}
      (hk : e.store.kind? id = some (.operand name)) (hc : c < e.plan.chunks.length) (ha : e.layout id = .ok a)
      (hb : e.boundsFor id name a.dims (some c) = .ok bounds) : Asks e (name, bounds)
  | whole {id : Nat} {name : String} (hk : e.store.kind? id = some (.operand name))
      (hs : e.plan.streamed id = false) : Asks e (name, none)

/-! ### Nothing else is read -/

theorem readInput_reads {key : Option Nat} {P : Reading → Prop}
    (h : ∀ a bounds, e.layout id = .ok a → e.boundsFor id name a.dims key = .ok bounds → P (name, bounds)) :
    (e.readInput id name key).Reads P := by
  unfold readInput
  refine reads_ofExcept.bind fun a ha => reads_ofExcept.bind fun bounds hb => ?_
  have hfetch : (Traced.fetch e.source name bounds).Reads P := fun r hr => by
    rw [List.mem_singleton.mp hr]
    exact h a bounds ha hb
  refine hfetch.mapError.bind fun value _ => ?_
  split
  · exact reads_fail
  · exact reads_pure

theorem evaluate_reads {inputs : List (Grid Double)} {key : Option Nat} (hkey : ∀ c, key = some c → c < e.plan.chunks.length)
    (hs : key = none → e.plan.streamed id = false) : (e.evaluate id inputs key).Reads e.Asks := by
  unfold evaluate
  split
  · exact reads_pure
  · rename_i name hk
    refine readInput_reads fun a bounds ha hb => ?_
    cases key with
    | none =>
      cases hb
      exact .whole hk (hs rfl)
    | some c => exact .chunk hk (hkey c rfl) ha hb
  · exact reads_ofExcept
  · exact reads_ofExcept
  · exact reads_ofExcept
  · exact reads_fail

theorem settle_reads (hc : e.Confined) : ∀ (fuel id : Nat) {settled : List (Option (Grid Double))},
    e.plan.streamed id = false → (e.settle fuel id settled).Reads e.Asks
  | 0, _, _, _ => reads_fail
  | fuel + 1, id, settled, hs => by
    unfold settle
    split
    · exact reads_pure
    split
    · exact reads_fail
    · rename_i ha
      have hparents := fun p hp => hc.settled_parents hs (Bool.eq_false_iff.mpr ha) (p := p) hp
      refine (reads_foldlM fun p hp s => settle_reads hc fuel p (hparents p hp)).bind fun s _ => ?_
      refine reads_ofExcept.bind fun inputs _ => ?_
      exact (evaluate_reads (fun c h => by cases h) fun _ => hs).bind fun _ _ => reads_pure

theorem settleAll_reads (hc : e.Confined) {ids : List Nat} {settled : List (Option (Grid Double))} :
    (e.settleAll ids settled).Reads e.Asks := by
  refine reads_foldlM fun p hp s => settle_reads hc _ p ?_
  simpa using (List.mem_filter.mp hp).2

section
variable (hconf : e.Confined) {c : Nat}
include hconf

theorem stepNode_reads (hc : c < e.plan.chunks.length) (s : Ledger (Grid Double) × RunState) (id : Nat) :
    (e.stepNode c s id).Reads e.Asks := by
  refine (settleAll_reads hconf).bind fun settled _ => reads_ofExcept.bind fun inputs _ => ?_
  refine Reads.bind ?_ fun _ _ => reads_pure
  unfold stepValue
  split
  · exact reads_ofExcept.bind fun _ _ => reads_pure
  · exact reads_fail
  · exact (evaluate_reads (fun _ h => Option.some.inj h ▸ hc) fun h => by cases h).bind fun _ _ => reads_pure

theorem runChunkOfPass_reads (hc : c < e.plan.chunks.length) (schedule : Schedule)
    (s : RunState × List (Nat × Accumulator)) : (e.runChunkOfPass schedule s c).Reads e.Asks := by
  have hsteps : (e.stepChunk c schedule s.1).Reads e.Asks := reads_foldlM fun id _ s => stepNode_reads hconf hc s id
  refine hsteps.mapError.bind fun _ _ => reads_ofExcept.bind fun _ _ => ?_
  dsimp only
  split
  · exact reads_ofExcept.bind fun _ _ => reads_emit.bind fun _ _ => reads_pure
  · exact reads_pure

theorem run_reads : e.run.Reads e.Asks := by
  have hpass : ∀ pass ∈ List.range e.plan.passes, ∀ state, (e.runPass state pass).Reads e.Asks := fun pass _ state =>
    reads_ofExcept.bind fun _ _ =>
      (reads_foldlM fun c hc s => runChunkOfPass_reads hconf (List.mem_range.mp hc) _ s).bind fun _ _ =>
        reads_ofExcept.bind fun _ _ => reads_pure
  refine (reads_foldlM hpass).bind fun state _ => ?_
  split
  · exact reads_pure
  · rename_i hs
    have hroot : (e.emitSettled state).Reads e.Asks := by
      refine (settle_reads hconf _ _ (Bool.eq_false_iff.mpr hs)).mapError.bind fun settled _ => ?_
      split
      · exact reads_emit
      · exact reads_fail
    exact hroot.bind fun _ _ => reads_pure

end

/-! ### All chunks are read -/

/-- A streamed node on which the root bears is evaluated in some pass. -/
theorem exists_pass (ho : e.Ordered) (hconn : Resolution.Connected e.store e.plan.root) (hconf : e.Confined)
    (hid : id < e.store.count) (hs : e.plan.streamed id = true) :
    ∃ pass < e.plan.passes, id ∈ (e.schedule pass).steps := by
  -- From the root on: the output or a reduction wants the node itself, or a step that it is a parent of.
  refine hconn (fun i => i < e.store.count → e.plan.streamed i = true → ∃ pass < e.plan.passes, i ∈ (e.schedule pass).steps)
    (fun hlt hs => ?_) (fun i hi p hp hlt hs => ?_) id hid hid hs
  · refine ⟨(e.plan.role e.plan.root).level, ?_, mem_steps_iff.mpr (start_mem_reachedThrough hlt ?_ hs)⟩
    · have hroot : e.plan.rootStreamed = true := hs
      rw [ho.passes, if_pos hroot]
      exact Nat.lt_succ_self _
    · rw [if_pos (emitsRoot_iff.mpr ⟨hs, rfl⟩)]
      exact List.mem_append_right _ (List.mem_singleton_self _)
  · rcases hconf i p hp hs with hsi | ha
    · have hic : i < e.store.count := by
        by_contra hge
        rw [parents_of_le (Nat.le_of_not_lt hge)] at hp
        cases hp
      obtain ⟨pass, hpass, hsteps⟩ := hi hic hsi
      exact ⟨pass, hpass, parent_mem_reachedThrough ho.below hsteps hp hs⟩
    · obtain ⟨q, hq, -, hlevel⟩ := ho.fed i ha
      have hlast := ho.last i ha
      refine ⟨(e.plan.role q).level, ?_, mem_steps_iff.mpr (start_mem_reachedThrough hlt ?_ hs)⟩
      · rw [ho.passes]
        omega
      · exact List.mem_append_left _ (List.mem_flatMap.mpr ⟨i, mem_sinks.mpr ⟨ho.inside i ha, ha, hlevel⟩, hp⟩)

/-- An input that is evaluated is read. -/
theorem read_of_evaluate {ε α : Type} {t : Traced ε α} {inputs : List (Grid Double)} {key : Option Nat}
    (hk : e.store.kind? id = some (.operand name)) (h : Part (e.evaluate id inputs key) t) :
    ∃ a bounds g, e.layout id = .ok a ∧ e.boundsFor id name a.dims key = .ok bounds ∧
      e.source.fetch name bounds = .ok g ∧ (name, bounds) ∈ t.reads := by
  unfold evaluate at h
  rw [hk] at h
  obtain ⟨-, a, ha, h⟩ := h.bind
  obtain ⟨-, bounds, hb, h⟩ := h.bind
  obtain ⟨hfetch, -⟩ := h.bind
  obtain ⟨⟨g, hg⟩, hreads⟩ := hfetch.mapError
  exact ⟨a, bounds, g, ha, hb, hg, hreads (List.mem_singleton_self _)⟩

/-- A step that succeeds has read its input for the chunk. -/
theorem read_of_stepChunk {ε α : Type} {t : Traced ε α} {schedule : Schedule} {state : RunState} {c : Nat}
    (hk : e.store.kind? id = some (.operand name)) (hcarried : (e.plan.role id).carried = none)
    (hid : id ∈ schedule.steps) (h : Part (e.stepChunk c schedule state) t) :
    ∃ a bounds g, e.layout id = .ok a ∧ e.boundsFor id name a.dims (some c) = .ok bounds ∧
      e.source.fetch name bounds = .ok g ∧ (name, bounds) ∈ t.reads := by
  obtain ⟨s, hnode⟩ := h.foldlM hid
  obtain ⟨-, settled, -, hnode⟩ := hnode.bind
  obtain ⟨-, inputs, -, hnode⟩ := hnode.bind
  obtain ⟨hvalue, -⟩ := hnode.bind
  unfold stepValue at hvalue
  rw [hcarried] at hvalue
  obtain ⟨hread, -⟩ := hvalue.bind
  exact read_of_evaluate hk hread

/-- A run that succeeds has read an input that is streamed for each chunk. -/
theorem reads_of_run (ho : e.Ordered) (hconn : Resolution.Connected e.store e.plan.root) (hconf : e.Confined)
    {m : Nat} (hm : e.run.outcome = .ok m) (hk : e.store.kind? id = some (.operand name))
    (hs : e.plan.streamed id = true) (hcarried : (e.plan.role id).carried = none) {c : Nat}
    (hc : c < e.plan.chunks.length) :
    ∃ a bounds g, e.layout id = .ok a ∧ e.boundsFor id name a.dims (some c) = .ok bounds ∧
      e.source.fetch name bounds = .ok g ∧ (name, bounds) ∈ e.run.reads := by
  obtain ⟨pass, hpass, hsteps⟩ := exists_pass ho hconn hconf (lt_of_kind hk) hs
  obtain ⟨hpasses, -⟩ := (Part.refl hm).bind
  obtain ⟨state, hrun⟩ := hpasses.foldlM (List.mem_range.mpr hpass)
  obtain ⟨-, accumulators, -, hrun⟩ := hrun.bind
  obtain ⟨hchunks, -⟩ := hrun.bind
  obtain ⟨s, hchunk⟩ := hchunks.foldlM (List.mem_range.mpr hc)
  obtain ⟨hstepped, -⟩ := hchunk.bind
  exact read_of_stepChunk hk hcarried hsteps hstepped.mapError

end Concord.Engine
