import Concord.Proofs.Evaluate.Faults
import Concord.Proofs.Evaluate.WholeRun

/-! What an evaluation hands to a consumer, and what it has handed over when it fails. Only the last pass
    gives out chunks, each one when nothing can fail in it any more; an output that does not depend on the
    chunk comes when all is done. A consumer that refuses a chunk gets no other one. -/

namespace Concord

namespace Traced

variable {ε ε' α β ι σ : Type}

/-! ### Consumers -/

section
variable {consume : Nat → Grid Double → σ → σ × Option ε}

/-- A consumer takes some chunks, one after the other. -/
inductive Takes (consume : Nat → Grid Double → σ → σ × Option ε) : List (Nat × Grid Double) → σ → σ → Prop
  | nil (s : σ) : Takes consume [] s s
  | cons {index : Nat} {value : Grid Double} {rest : List (Nat × Grid Double)} {s s' s'' : σ}
      (h : consume index value s = (s', none)) (hrest : Takes consume rest s' s'') :
      Takes consume ((index, value) :: rest) s s''

/-- A consumer takes all that is given out, or it refuses a chunk, and that is the end. -/
theorem deliver_cases : ∀ (t : Traced ε α) (s : σ),
    (Takes consume t.emitted s (t.deliver consume s).state ∧ (t.deliver consume s).outcome = t.outcome) ∨
      ∃ taken index value rest s' x, t.emitted = taken ++ (index, value) :: rest ∧ Takes consume taken s s' ∧
        consume index value s' = ((t.deliver consume s).state, some x) ∧ (t.deliver consume s).outcome = .error x
  | ⟨[], _⟩, s => .inl ⟨.nil s, rfl⟩
  | ⟨.read _ _ :: events, outcome⟩, s => deliver_cases ⟨events, outcome⟩ s
  | ⟨.emit index value :: events, outcome⟩, s => by
    have hemitted : (⟨.emit index value :: events, outcome⟩ : Traced ε α).emitted =
      (index, value) :: (⟨events, outcome⟩ : Traced ε α).emitted := rfl
    rcases hconsume : consume index value s with ⟨s', _ | x⟩
    · have hdeliver : (⟨.emit index value :: events, outcome⟩ : Traced ε α).deliver consume s =
          (⟨events, outcome⟩ : Traced ε α).deliver consume s' := by
        unfold deliver
        dsimp only [deliverEvents]
        rw [hconsume]
      rw [hdeliver, hemitted]
      rcases deliver_cases ⟨events, outcome⟩ s' with ⟨htakes, houtcome⟩ | ⟨taken, i, g, rest, u, x, hsplit, htakes, h⟩
      · exact .inl ⟨.cons hconsume htakes, houtcome⟩
      · exact .inr ⟨(index, value) :: taken, i, g, rest, u, x, by rw [hsplit]; rfl, .cons hconsume htakes, h⟩
    · have hdeliver : (⟨.emit index value :: events, outcome⟩ : Traced ε α).deliver consume s =
          ⟨s', [], .error x⟩ := by
        unfold deliver
        dsimp only [deliverEvents]
        rw [hconsume]
      rw [hdeliver, hemitted]
      exact .inr ⟨[], index, value, _, s, x, rfl, .nil s, hconsume, rfl⟩

end

/-! ### Nothing given out -/

theorem quiet_bind {t : Traced ε α} {f : α → Traced ε β} (h : t.emitted = []) (hf : ∀ a, (f a).emitted = []) :
    (t >>= f).emitted = [] := by
  cases ht : t.outcome with
  | error x => rw [emitted_bind_error ht, h]
  | ok a => rw [emitted_bind_ok ht, h, hf a, List.append_nil]

theorem quiet_foldlM {f : σ → ι → Traced ε σ} :
    ∀ {l : List ι} {s : σ}, (∀ i ∈ l, ∀ s, (f s i).emitted = []) → (l.foldlM f s).emitted = []
  | [], _, _ => rfl
  | i :: l, s, h => by
    rw [List.foldlM_cons]
    exact quiet_bind (h i List.mem_cons_self s) fun _ => quiet_foldlM fun j hj => h j (List.mem_cons_of_mem _ hj)

/-! ### Where a sequence fails -/

theorem bind_outcome_error {t : Traced ε α} {f : α → Traced ε β} {x : ε} (h : (t >>= f).outcome = .error x) :
    (t.outcome = .error x ∧ (t >>= f).emitted = t.emitted) ∨
      ∃ a, t.outcome = .ok a ∧ (f a).outcome = .error x ∧ (t >>= f).emitted = t.emitted ++ (f a).emitted := by
  cases ht : t.outcome with
  | error y =>
    rw [bind_error ht] at h
    cases h
    exact .inl ⟨rfl, emitted_bind_error ht⟩
  | ok a =>
    rw [bind_ok ht] at h
    exact .inr ⟨a, rfl, h, emitted_bind_ok ht⟩

/-- What fails step by step fails in one of the steps, and those before it succeeded. -/
theorem foldlM_error {f : σ → ι → Traced ε σ} {x : ε} : ∀ {l : List ι} {s : σ}, (l.foldlM f s).outcome = .error x →
    ∃ done i rest s', l = done ++ i :: rest ∧ (done.foldlM f s).outcome = .ok s' ∧ (f s' i).outcome = .error x ∧
      (l.foldlM f s).emitted = (done.foldlM f s).emitted ++ (f s' i).emitted
  | [], _, h => by cases h
  | i :: l, s, h => by
    rw [List.foldlM_cons] at h ⊢
    rcases bind_outcome_error h with ⟨hi, hemitted⟩ | ⟨mid, hmid, hl, hemitted⟩
    · exact ⟨[], i, l, s, rfl, rfl, hi, hemitted⟩
    · obtain ⟨done, j, rest, s', rfl, hdone, hj, hrest⟩ := foldlM_error hl
      refine ⟨i :: done, j, rest, s', rfl, ?_, hj, ?_⟩
      · rw [List.foldlM_cons, bind_ok hmid]
        exact hdone
      · rw [hemitted, hrest, List.foldlM_cons, emitted_bind_ok hmid, List.append_assoc]

/-- What each step gives out comes together. -/
theorem indices_foldlM {f : σ → ι → Traced ε σ} {g : ι → List Nat} {s' : σ} : ∀ {l : List ι} {s : σ},
    (∀ i ∈ l, ∀ s s', (f s i).outcome = .ok s' → (f s i).emitted.map (·.1) = g i) →
      (l.foldlM f s).outcome = .ok s' → (l.foldlM f s).emitted.map (·.1) = l.flatMap g
  | [], _, _, _ => rfl
  | i :: l, s, hstep, h => by
    rw [List.foldlM_cons] at h ⊢
    obtain ⟨mid, hmid, h⟩ := bind_outcome_ok h
    rw [emitted_bind_ok hmid, List.map_append, List.flatMap_cons, hstep i List.mem_cons_self s mid hmid,
      indices_foldlM (fun j hj => hstep j (List.mem_cons_of_mem _ hj)) h]

end Traced

namespace Engine

open Traced

variable {e : Engine} {pass chunk : Nat} {f : Failure}

/-! ### Chunks -/

theorem settle_quiet (e : Engine) : ∀ (fuel id : Nat) (settled : List (Option (Grid Double))),
    (e.settle fuel id settled).emitted = []
  | 0, _, _ => rfl
  | fuel + 1, id, settled => by
    unfold settle
    split
    · rfl
    split
    · rfl
    · exact quiet_bind (quiet_foldlM fun p _ s => settle_quiet e fuel p s) fun s =>
        quiet_bind rfl fun inputs => quiet_bind (evaluate_quiet ..) fun _ => rfl

theorem stepValue_quiet (e : Engine) (chunk id : Nat) (inputs : List (Grid Double)) (scans : List ScanState) :
    (e.stepValue chunk id inputs scans).emitted = [] := by
  unfold stepValue
  split
  · exact quiet_bind rfl fun _ => rfl
  · rfl
  · exact quiet_bind (evaluate_quiet ..) fun _ => rfl

theorem stepChunk_quiet (e : Engine) (chunk : Nat) (schedule : Schedule) (state : RunState) :
    (e.stepChunk chunk schedule state).emitted = [] := by
  refine quiet_foldlM fun id _ s => ?_
  refine quiet_bind (quiet_foldlM fun p _ settled => settle_quiet ..) fun settled => ?_
  exact quiet_bind rfl fun inputs => quiet_bind (stepValue_quiet ..) fun _ => rfl

section
variable {schedule : Schedule} {s s' : RunState × List (Nat × Accumulator)}

/-- A chunk of the pass that gives out the output is given out once. -/
theorem runChunkOfPass_ok (h : (e.runChunkOfPass schedule s chunk).outcome = .ok s') :
    (e.runChunkOfPass schedule s chunk).emitted.map (·.1) = if schedule.emitsRoot then [chunk] else [] := by
  unfold runChunkOfPass at h ⊢
  obtain ⟨⟨ledger, state⟩, hstep, h⟩ := bind_outcome_ok h
  have hquiet : ((e.stepChunk chunk schedule s.1).mapError (inChunk chunk)).emitted = [] := stepChunk_quiet ..
  rw [emitted_bind_ok hstep, hquiet, List.nil_append]
  obtain ⟨⟨ledger', accumulators⟩, hfeed, h⟩ := bind_outcome_ok h
  rw [emitted_bind_ok hfeed]
  dsimp only at h ⊢
  split at h
  · rename_i hemits
    rw [if_pos hemits, if_pos hemits]
    obtain ⟨value, hvalue, h⟩ := bind_outcome_ok h
    rw [emitted_bind_ok hvalue]
    rfl
  · rename_i hnot
    rw [if_neg hnot, if_neg hnot]
    rfl

theorem mapError_inChunk {α : Type} {x : Except EvaluationFault α} (h : x.mapError (inChunk chunk) = .error f) :
    ∃ message, f = .chunkEvaluation chunk message := by
  cases x with
  | ok a => cases h
  | error y =>
    cases h
    exact ⟨y.message, rfl⟩

/-- A chunk that fails is not given out. -/
theorem runChunkOfPass_error (h : (e.runChunkOfPass schedule s chunk).outcome = .error f) :
    (e.runChunkOfPass schedule s chunk).emitted = [] ∧ ∃ message, f = .chunkEvaluation chunk message := by
  have hquiet : ((e.stepChunk chunk schedule s.1).mapError (inChunk chunk)).emitted = [] := stepChunk_quiet ..
  unfold runChunkOfPass at h ⊢
  rcases bind_outcome_error h with ⟨hstep, hemitted⟩ | ⟨⟨ledger, state⟩, -, h, hemitted⟩
  · exact ⟨hemitted.trans hquiet, mapError_inChunk hstep⟩
  rw [hemitted, hquiet, List.nil_append]
  rcases bind_outcome_error h with ⟨hfeed, hemitted⟩ | ⟨⟨ledger', accumulators⟩, -, h, hemitted⟩
  · exact ⟨hemitted, mapError_inChunk hfeed⟩
  rw [hemitted]
  dsimp only at h ⊢
  split at h
  · rename_i hemits
    rw [if_pos hemits]
    rcases bind_outcome_error h with ⟨houtput, hemitted⟩ | ⟨value, -, h, -⟩
    · refine ⟨hemitted, ?_⟩
      change e.output chunk ledger' = .error f at houtput
      unfold output at houtput
      split at houtput
      · cases houtput
      · cases houtput
        exact ⟨_, rfl⟩
    · cases h
  · cases h

theorem range_flatMap_ite (b : Bool) (n : Nat) :
    ((List.range n).flatMap fun c => if b then [c] else []) = if b then List.range n else [] := by
  cases b <;> simp

theorem chunks_ok {n : Nat} (h : ((List.range n).foldlM (e.runChunkOfPass schedule) s).outcome = .ok s') :
    ((List.range n).foldlM (e.runChunkOfPass schedule) s).emitted.map (·.1) =
      if schedule.emitsRoot then List.range n else [] :=
  (indices_foldlM (g := fun c => if schedule.emitsRoot then [c] else []) (fun _ _ _ _ => runChunkOfPass_ok) h).trans
    (range_flatMap_ite _ n)

/-- If a chunk fails, those before it were given out. -/
theorem chunks_error {n : Nat} (h : ((List.range n).foldlM (e.runChunkOfPass schedule) s).outcome = .error f) :
    ∃ chunk < n, (∃ message, f = .chunkEvaluation chunk message) ∧
      ((List.range n).foldlM (e.runChunkOfPass schedule) s).emitted.map (·.1) =
        if schedule.emitsRoot then List.range chunk else [] := by
  obtain ⟨done, chunk, rest, s', hall, hdone, hchunk, hemitted⟩ := foldlM_error h
  obtain ⟨hquiet, hmessage⟩ := runChunkOfPass_error hchunk
  rw [prefix_range hall] at hdone hemitted
  refine ⟨chunk, (eq_length_of_range hall).2, hmessage, ?_⟩
  rw [hemitted, hquiet, List.append_nil]
  exact chunks_ok hdone

end

/-! ### Passes -/

/-- The chunks of a pass that succeeds: all of them if it gives out the output, else none. -/
theorem runPass_ok {state state' : RunState} (h : (e.runPass state pass).outcome = .ok state') :
    (e.runPass state pass).emitted.map (·.1) = if e.emitsRoot pass then List.range e.plan.chunks.length else [] := by
  unfold runPass at h ⊢
  obtain ⟨accumulators, hstart, h⟩ := bind_outcome_ok h
  obtain ⟨⟨state'', accumulators'⟩, hchunks, h⟩ := bind_outcome_ok h
  obtain ⟨settled, hfinish, h⟩ := bind_outcome_ok h
  rw [emitted_bind_ok hstart, emitted_bind_ok hchunks, emitted_bind_ok hfinish]
  refine Eq.trans (congrArg _ (List.append_nil _)) ?_
  exact chunks_ok hchunks

/-- A pass has failed: in a chunk, which is the first that was not given out, or when its reductions were
    finished, all chunks behind. -/
inductive PassFails (e : Engine) (pass : Nat) (given : List Nat) : Failure → Prop
  | chunk {chunk : Nat} {message : String} (hlt : chunk < e.plan.chunks.length)
      (hgiven : given = if e.emitsRoot pass then List.range chunk else []) :
      PassFails e pass given (.chunkEvaluation chunk message)
  | finish {message : String} (hsinks : e.sinks pass ≠ [])
      (hgiven : given = if e.emitsRoot pass then List.range e.plan.chunks.length else []) :
      PassFails e pass given (.chunkEvaluation (e.plan.chunks.length - 1) message)

theorem foldlM_finish_error : ∀ {accumulators : List (Nat × Accumulator)} {settled : List (Option (Grid Double))},
    accumulators.foldlM e.finish settled = .error f →
      accumulators ≠ [] ∧ ∃ message, f = .chunkEvaluation (e.plan.chunks.length - 1) message
  | [], _, h => by cases h
  | a :: rest, settled, h => by
    refine ⟨List.cons_ne_nil a rest, ?_⟩
    rw [List.foldlM_cons] at h
    cases ha : e.finish settled a with
    | ok settled' =>
      rw [ha] at h
      exact (foldlM_finish_error h).2
    | error f' =>
      rw [ha] at h
      cases h
      unfold finish at ha
      split at ha
      · cases ha
      · cases ha
        exact ⟨_, rfl⟩

theorem runPass_error (hchunks : 0 < e.plan.chunks.length) {state : RunState}
    (h : (e.runPass state pass).outcome = .error f) :
    e.PassFails pass ((e.runPass state pass).emitted.map (·.1)) f := by
  unfold runPass at h ⊢
  rcases bind_outcome_error h with ⟨hstart, hemitted⟩ | ⟨accumulators, hstart, h, hemitted⟩
  · change ((e.schedule pass).sinks.mapM e.accumulator).mapError (inChunk 0) = .error f at hstart
    obtain ⟨message, rfl⟩ := mapError_inChunk hstart
    rw [hemitted]
    exact .chunk hchunks (ite_self _).symm
  rw [hemitted]
  rcases bind_outcome_error h with ⟨hloop, hemitted⟩ | ⟨⟨state', accumulators'⟩, hloop, h, hemitted⟩
  · obtain ⟨chunk, hlt, ⟨message, rfl⟩, hgiven⟩ := chunks_error hloop
    rw [hemitted]
    exact .chunk hlt hgiven
  rw [hemitted]
  dsimp only at h ⊢
  rcases bind_outcome_error h with ⟨hfinish, hemitted⟩ | ⟨settled, -, h, -⟩
  · obtain ⟨hne, message, rfl⟩ := foldlM_finish_error hfinish
    have hsinks : e.sinks pass ≠ [] := by
      intro hnil
      have hempty : accumulators = [] := by
        change ((e.sinks pass).mapM e.accumulator).mapError (inChunk 0) = .ok accumulators at hstart
        rw [hnil] at hstart
        cases hstart
        rfl
      have hids := chunks_ids hloop
      rw [hempty] at hids
      exact hne (List.map_eq_nil_iff.mp hids)
    rw [hemitted]
    refine .finish hsinks (Eq.trans (congrArg _ (List.append_nil _)) ?_)
    exact chunks_ok hloop
  · cases h

/-- A pass that does not give out the output gives out nothing. -/
theorem runPass_quiet (hchunks : 0 < e.plan.chunks.length) (h : e.emitsRoot pass = false) (state : RunState) :
    (e.runPass state pass).emitted = [] := by
  cases hpass : (e.runPass state pass).outcome with
  | ok state' =>
    have hgiven := runPass_ok hpass
    rw [h] at hgiven
    exact List.map_eq_nil_iff.mp hgiven
  | error f =>
    cases runPass_error hchunks hpass with
    | chunk _ hgiven =>
      rw [h] at hgiven
      exact List.map_eq_nil_iff.mp hgiven
    | finish _ hgiven =>
      rw [h] at hgiven
      exact List.map_eq_nil_iff.mp hgiven

/-! ### Runs -/

/-- The passes of a plan end with the one that gives out the output, or before the output is settled. -/
structure Passed (e : Engine) : Prop where
  passes : e.plan.passes = (e.plan.role e.plan.root).level + if e.plan.rootStreamed then 1 else 0
  chunks : 0 < e.plan.chunks.length

/-- A pass fails, after those before it succeeded. -/
def FailsIn (e : Engine) (pass : Nat) (f : Failure) : Prop :=
  ∃ state, e.Enters pass state ∧ (e.runPass state pass).outcome = .error f

/-- How a run ends, with the indices of the chunks given out: with all of them; with none, if the output comes
    as a whole or a pass before the last one fails; in a chunk of the last pass, with those before it; or
    behind all chunks, with a reduction that is finished only then. -/
inductive Ends (e : Engine) : List Nat → Except Failure Nat → Prop
  | complete : Ends e (List.range e.plan.outputChunks) (.ok e.plan.outputChunks)
  | early {f : Failure}
      (h : e.plan.rootStreamed = true → ∃ pass, pass + 1 < e.plan.passes ∧ e.FailsIn pass f) : Ends e [] (.error f)
  | chunk {chunk : Nat} {message : String} (hs : e.plan.rootStreamed = true) (hlt : chunk < e.plan.chunks.length)
      (h : e.FailsIn (e.plan.passes - 1) (.chunkEvaluation chunk message)) :
      Ends e (List.range chunk) (.error (.chunkEvaluation chunk message))
  | finish {message : String} (hs : e.plan.rootStreamed = true) (hsinks : e.sinks (e.plan.passes - 1) ≠ [])
      (h : e.FailsIn (e.plan.passes - 1) (.chunkEvaluation (e.plan.chunks.length - 1) message)) :
      Ends e (List.range e.plan.chunks.length) (.error (.chunkEvaluation (e.plan.chunks.length - 1) message))

/-- The last pass gives out the output if that is streamed. -/
theorem Passed.emitsRoot_iff (hp : e.Passed) :
    e.emitsRoot pass = true ↔ e.plan.rootStreamed = true ∧ pass + 1 = e.plan.passes := by
  rw [Engine.emitsRoot_iff]
  rw [hp.passes]
  refine and_congr_right fun hs => ?_
  rw [if_pos hs]
  omega

/-- The other passes give out nothing. -/
theorem Passed.quiet (hp : e.Passed) (h : e.plan.rootStreamed = true → pass + 1 < e.plan.passes) (state : RunState) :
    (e.runPass state pass).emitted = [] := by
  refine runPass_quiet hp.chunks ?_ state
  rw [Bool.eq_false_iff]
  intro hemits
  obtain ⟨hs, hlast⟩ := hp.emitsRoot_iff.mp hemits
  exact absurd (h hs) (by omega)

theorem Passed.passes_quiet (hp : e.Passed) {n : Nat} (h : e.plan.rootStreamed = true → n < e.plan.passes)
    (state : RunState) :
    ((List.range n).foldlM e.runPass state).emitted = [] := by
  refine quiet_foldlM fun pass hpass state => ?_
  rw [List.mem_range] at hpass
  exact hp.quiet (fun hs => Nat.lt_of_le_of_lt hpass (h hs)) state

theorem emitSettled_indices (e : Engine) (state : RunState) :
    (e.emitSettled state).emitted.map (·.1) = if (e.emitSettled state).outcome.isOk then [0] else [] := by
  have hquiet : ((e.settle (e.store.count + 1) e.plan.root state.settled).mapError (inChunk 0)).emitted = [] :=
    settle_quiet ..
  unfold emitSettled
  cases hsettle : ((e.settle (e.store.count + 1) e.plan.root state.settled).mapError (inChunk 0)).outcome with
  | error f =>
    rw [emitted_bind_error hsettle, bind_error hsettle, hquiet]
    rfl
  | ok settled =>
    rw [emitted_bind_ok hsettle, bind_ok hsettle, hquiet]
    cases settled.getD e.plan.root none <;> rfl

/-- The output as a whole is given out when nothing can fail any more. -/
theorem run_ends_whole (hp : e.Passed) (hs : e.plan.rootStreamed = false) :
    e.Ends (e.run.emitted.map (·.1)) e.run.outcome := by
  have hno : ¬e.plan.rootStreamed = true := Bool.eq_false_iff.mp hs
  have hquiet : ((List.range e.plan.passes).foldlM e.runPass e.initial).emitted = [] :=
    hp.passes_quiet (fun h => absurd h hno) _
  have hone : e.plan.outputChunks = 1 := if_neg hno
  unfold run
  cases hpasses : ((List.range e.plan.passes).foldlM e.runPass e.initial).outcome with
  | error f =>
    rw [emitted_bind_error hpasses, bind_error hpasses, hquiet]
    exact .early fun h => absurd h hno
  | ok state =>
    rw [emitted_bind_ok hpasses, bind_ok hpasses, hquiet, List.nil_append, if_neg hno]
    have hindices := emitSettled_indices e state
    cases hsettled : (e.emitSettled state).outcome with
    | error f =>
      rw [hsettled] at hindices
      rw [emitted_bind_error hsettled, bind_error hsettled, hindices]
      exact .early fun h => absurd h hno
    | ok u =>
      rw [hsettled] at hindices
      rw [emitted_bind_ok hsettled, bind_ok hsettled, List.map_append, hindices]
      have hcomplete := Ends.complete (e := e)
      rwa [hone] at hcomplete

/-- When all passes are over, all chunks of a streamed output were given out, by the last one. -/
theorem Passed.passes_indices (hp : e.Passed) (hs : e.plan.rootStreamed = true) {state : RunState}
    (h : ((List.range e.plan.passes).foldlM e.runPass e.initial).outcome = .ok state) :
    ((List.range e.plan.passes).foldlM e.runPass e.initial).emitted.map (·.1) = List.range e.plan.chunks.length := by
  obtain ⟨last, hlast⟩ : ∃ last, e.plan.passes = last + 1 := ⟨_, by rw [hp.passes, if_pos hs]⟩
  have hemits : e.emitsRoot last = true := hp.emitsRoot_iff.mpr ⟨hs, hlast.symm⟩
  have hindices := indices_foldlM (g := fun pass => if e.emitsRoot pass then List.range e.plan.chunks.length else [])
    (fun _ _ _ _ => runPass_ok) h
  have hbefore : (List.range last).flatMap (fun pass =>
      if e.emitsRoot pass then List.range e.plan.chunks.length else []) = [] := by
    refine List.flatMap_eq_nil_iff.mpr fun pass hpass => if_neg fun h => ?_
    rw [List.mem_range] at hpass
    have := (hp.emitsRoot_iff.mp h).2
    omega
  rw [hindices, hlast, List.range_succ, List.flatMap_append, hbefore, List.flatMap_singleton, if_pos hemits,
    List.nil_append]

/-- A streamed output is given out by the last pass, chunk by chunk. -/
theorem run_ends_streamed (hp : e.Passed) (hs : e.plan.rootStreamed = true) :
    e.Ends (e.run.emitted.map (·.1)) e.run.outcome := by
  obtain ⟨last, hlast⟩ : ∃ last, e.plan.passes = last + 1 := ⟨_, by rw [hp.passes, if_pos hs]⟩
  have hemits : e.emitsRoot last = true := hp.emitsRoot_iff.mpr ⟨hs, hlast.symm⟩
  have hpred : e.plan.passes - 1 = last := by omega
  unfold run
  cases hpasses : ((List.range e.plan.passes).foldlM e.runPass e.initial).outcome with
  | error f =>
    rw [emitted_bind_error hpasses, bind_error hpasses]
    obtain ⟨done, pass, rest, state, hall, hdone, hpass, hemitted⟩ := foldlM_error hpasses
    have hlt := (eq_length_of_range hall).2
    rw [prefix_range hall] at hdone hemitted
    have hfails : e.FailsIn pass f := ⟨state, ⟨Nat.le_of_lt hlt, hdone⟩, hpass⟩
    rw [hemitted, hp.passes_quiet (fun _ => hlt), List.nil_append]
    rcases Nat.lt_or_eq_of_le (Nat.le_of_lt_succ (hlast ▸ hlt)) with hearly | rfl
    · rw [hp.quiet (fun _ => by omega)]
      exact .early fun _ => ⟨pass, by omega, hfails⟩
    · rw [← hpred] at hfails
      have hgiven := runPass_error hp.chunks hpass
      generalize (e.runPass state pass).emitted.map (·.1) = given at hgiven
      cases hgiven with
      | chunk hlt hgiven =>
        rw [if_pos hemits] at hgiven
        rw [hgiven]
        exact .chunk hs hlt hfails
      | finish hsinks hgiven =>
        rw [if_pos hemits] at hgiven
        rw [hgiven]
        exact .finish hs (hpred.symm ▸ hsinks) hfails
  | ok state =>
    have hcount : e.plan.outputChunks = e.plan.chunks.length := if_pos hs
    rw [emitted_bind_ok hpasses, bind_ok hpasses, if_pos hs, List.map_append, hp.passes_indices hs hpasses, ← hcount]
    show e.Ends (List.range e.plan.outputChunks ++ []) (.ok e.plan.outputChunks)
    rw [List.append_nil]
    exact .complete

theorem run_ends (hp : e.Passed) : e.Ends (e.run.emitted.map (·.1)) e.run.outcome := by
  cases hs : e.plan.rootStreamed with
  | true => exact run_ends_streamed hp hs
  | false => exact run_ends_whole hp hs

/-! ### Runs with a consumer -/

section
variable {σ : Type} {consume : Nat → Grid Double → σ → σ × Option Failure} {s : σ}

/-- How a run with a consumer ends, with the chunks that it was handed: it took them, and the run has ended as
    it does on its own; or it refused the last one, and its refusal is the outcome. -/
inductive Concludes (e : Engine) (consume : Nat → Grid Double → σ → σ × Option Failure) (s : σ)
    (d : Delivery σ Failure Nat) : List (Nat × Grid Double) → Prop
  | taken {calls : List (Nat × Grid Double)} (htakes : Takes consume calls s d.state)
      (hends : e.Ends (calls.map (·.1)) d.outcome) : Concludes e consume s d calls
  | refused {calls : List (Nat × Grid Double)} {index : Nat} {value : Grid Double} {s' : σ} {x : Failure}
      (htakes : Takes consume calls s s') (hrefused : consume index value s' = (d.state, some x))
      (houtcome : d.outcome = .error x) (hcount : index < e.plan.outputChunks)
      (hlate : if e.plan.rootStreamed then ∃ state, e.Enters (e.plan.passes - 1) state
        else e.run.outcome = .ok e.plan.outputChunks) :
      Concludes e consume s d (calls ++ [(index, value)])

theorem Ends.indices {given : List Nat} {outcome : Except Failure Nat} (h : e.Ends given outcome) :
    ∃ n ≤ e.plan.outputChunks, given = List.range n := by
  cases h with
  | complete => exact ⟨_, Nat.le_refl _, rfl⟩
  | early _ => exact ⟨0, Nat.zero_le _, rfl⟩
  | chunk hs hlt _ => exact ⟨_, by rw [Plan.outputChunks, if_pos hs]; exact Nat.le_of_lt hlt, rfl⟩
  | finish hs _ _ => exact ⟨_, Nat.le_of_eq (if_pos hs).symm, rfl⟩

/-- When a chunk is given out, the passes before the last one are over; an output as a whole is given out when
    the run has succeeded. -/
theorem Passed.late (hp : e.Passed) (hgiven : e.run.emitted ≠ []) :
    if e.plan.rootStreamed then ∃ state, e.Enters (e.plan.passes - 1) state
    else e.run.outcome = .ok e.plan.outputChunks := by
  have hends := run_ends hp
  have hne : e.run.emitted.map (·.1) ≠ [] := fun h => hgiven (List.map_eq_nil_iff.mp h)
  generalize e.run.emitted.map (·.1) = given at hends hne
  generalize houtcome : e.run.outcome = outcome at hends ⊢
  cases hends with
  | early _ => exact absurd rfl hne
  | chunk hs _ h =>
    rw [if_pos hs]
    exact h.imp fun _ => And.left
  | finish hs _ h =>
    rw [if_pos hs]
    exact h.imp fun _ => And.left
  | complete =>
    split
    · obtain ⟨state, hpasses, -⟩ := bind_outcome_ok houtcome
      obtain ⟨rest, hrest⟩ := range_split (Nat.sub_le e.plan.passes 1)
      rw [hrest, List.foldlM_append] at hpasses
      obtain ⟨before, hbefore, -⟩ := bind_outcome_ok hpasses
      exact ⟨before, Nat.sub_le .., hbefore⟩
    · rfl

/-- A consumer is handed the chunks in order, and each at most once. -/
theorem Passed.concludes (hp : e.Passed) (consume : Nat → Grid Double → σ → σ × Option Failure) (s : σ) :
    ∃ calls, calls.map (·.1) = List.range calls.length ∧ e.Concludes consume s (e.run.deliver consume s) calls := by
  have hends := run_ends hp
  obtain ⟨n, hn, hindices⟩ := hends.indices
  rcases deliver_cases e.run s with ⟨htakes, houtcome⟩ |
    ⟨taken, index, value, rest, s', x, hsplit, htakes, hrefused, houtcome⟩
  · rw [← houtcome] at hends
    refine ⟨e.run.emitted, ?_, .taken htakes hends⟩
    have hlen := congrArg List.length hindices
    rw [List.length_map, List.length_range] at hlen
    rw [hindices, hlen]
  · rw [hsplit, List.map_append, List.map_cons] at hindices
    obtain ⟨hindex, hlt⟩ := eq_length_of_range hindices.symm
    have htaken := prefix_range hindices.symm
    rw [List.length_map] at hindex
    refine ⟨taken ++ [(index, value)], ?_,
      .refused htakes hrefused houtcome (Nat.lt_of_lt_of_le hlt hn) (hp.late ?_)⟩
    · rw [List.map_append, htaken, List.length_append, ← hindex]
      exact List.range_succ.symm
    · rw [hsplit]
      exact List.append_ne_nil_of_right_ne_nil _ (List.cons_ne_nil _ _)

end

/-! ### Resolved variables -/

variable {c : Resolution.Context} {Fit : String → CallOptions → Prop} {v : ResolvedVariable} {plan : Plan}
  {config : Config}

theorem passed_of_planned {functions : Functions} (h : Plan.Planned functions v plan) (source : Source)
    (converter : Measure.Converter) : (Engine.ofVariable v plan source converter).Passed := by
  obtain ⟨length, hpos, hchunks⟩ := h.chunks
  refine ⟨h.passes, ?_⟩
  show 0 < plan.chunks.length
  rw [hchunks]
  exact Plan.cut_pos _ hpos

/-- A resolved variable is handed to any consumer chunk by chunk, without gaps or repeats, until it refuses one or
    the run ends. The passes but the last one give out nothing, and none does if the output comes as a whole. No
    reduction ends with the last pass if functions that take away an axis have one array. -/
theorem run_concludes {σ : Type} (hv : Resolution.Resolved c Fit v) (hplan : Plan.build v c.functions config = .ok plan)
    (source : Source) (converter : Measure.Converter) (consume : Nat → Grid Double → σ → σ × Option Failure) (s : σ) :
    let e := Engine.ofVariable v plan source converter
    (∃ calls, calls.map (·.1) = List.range calls.length ∧ e.Concludes consume s (e.run.deliver consume s) calls) ∧
      (∀ pass state, (plan.rootStreamed = true → pass + 1 < plan.passes) → (e.runPass state pass).emitted = []) ∧
      ((∀ f ∈ c.functions.specs, f.shape = .reduce → f.arity = 1) → plan.rootStreamed = true →
        e.sinks (plan.passes - 1) = []) := by
  have hplanned := Plan.build_planned (fun i p hp => hv.typed.parents_lt hp) hplan
  have hp := passed_of_planned hplanned source converter
  refine ⟨hp.concludes consume s, fun pass state h => hp.quiet h state, fun hreduce hs => ?_⟩
  refine sinks_of_emitsRoot (ordered_of_reductions hv hplanned hreduce source converter) (hp.emitsRoot_iff.mpr ⟨hs, ?_⟩)
  show plan.passes - 1 + 1 = plan.passes
  have hpasses : plan.passes = (plan.role plan.root).level + if plan.rootStreamed then 1 else 0 := hplanned.passes
  rw [if_pos hs] at hpasses
  omega

end Engine

namespace Conformance

open Engine

theorem prepare_built {t : Conformance} {name : String} {target : Target} {j : Job}
    (h : t.prepare t.compile name target = .ok j) :
    Resolution.Resolved t.resolution (fun _ _ => True) j.resolved ∧
      Plan.build j.resolved t.functions t.config = .ok j.plan := by
  have hresolved : Resolution.Resolved t.resolution (fun _ _ => True) j.resolved :=
    And.left (prepare_planned (fun _ _ _ _ _ => trivial) h)
  obtain ⟨v, plan, -, hplan, rfl⟩ := prepare_eq_ok h
  exact ⟨hresolved, hplan⟩

/-- A consumer that notes the indices, and refuses the second chunk. -/
def refusing (index : Nat) (_ : Grid Double) (seen : List Nat) : List Nat × Option Failure :=
  (seen ++ [index], if index = 1 then some .cancelled else none)

theorem run_concludes_refused :
    let e := Engine.ofVariable anomalyJob.resolved anomalyJob.plan anomaly.source anomaly.converter
    let d := e.run.deliver refusing []
    d.state = [0, 1] ∧ d.outcome = .error .cancelled ∧
      (∃ calls, calls.map (·.1) = List.range calls.length ∧ e.Concludes refusing [] d calls) ∧
      e.sinks (anomalyJob.plan.passes - 1) = [] := by
  intro e d
  have hj : anomaly.prepare anomaly.compile "anomaly" ⟨["time"], "K", .empty⟩ = .ok anomalyJob :=
    toOption_eq_some.mp (Option.some_get _).symm
  obtain ⟨hresolved, hplan⟩ := prepare_built hj
  obtain ⟨hcalls, -, hsinks⟩ := run_concludes hresolved hplan anomaly.source anomaly.converter refusing []
  have hone : ∀ f ∈ anomaly.functions.specs, f.shape = .reduce → f.arity = 1 := fun f hf hshape =>
    Functions.builtins_single f hf (.inl hshape)
  exact ⟨by decide +kernel, by decide +kernel, hcalls, hsinks hone (by decide +kernel)⟩

/-- Takes away an axis of the first of two arrays. -/
def lateFunctions : Functions :=
  ⟨Functions.builtins.specs ++
    [⟨"f", [Functions.arrayParam "x", Functions.arrayParam "y", Functions.textParam "dim"], .reduce, .preserve,
        .reduce .sum, true⟩,
      ⟨"w", [Functions.arrayParam "x", Functions.textParam "dim"], .passThrough, .preserve, .reduce .sum, true⟩]⟩

/-- Values that are not there, of two times. -/
def lateInputs : Dataset :=
  .ofList [("a", ⟨⟨[⟨"time", some 2⟩, ⟨"lat", some 0⟩], "K", .empty⟩, ⟨[2, 0], #[], rfl⟩⟩)]

def late : Conformance where
  standard := .ofList [("out", ⟨["time", "lat"], "K", .empty⟩)]
  definitions := .ofList
    [("out", "a - f(a, mean(w(a - mean(a, dim='time'), dim='time'), dim='time'), dim='time')")]
  source := lateInputs.source
  config := { Config.standard with chunkLength := some 1 }
  functions := lateFunctions
  converter := Measure.linear

/-- A reduction of two arrays ends with the last pass, and it fails with the number of a chunk that was given
    out. -/
theorem given_before_failure : ∃ j, late.prepare late.compile "out" ⟨["time", "lat"], "K", .empty⟩ = .ok j ∧
    j.plan.rootStreamed = true ∧
      let e := Engine.ofVariable j.resolved j.plan late.source late.converter
      e.FailsIn (j.plan.passes - 1) (.chunkEvaluation 1 Accumulator.emptyMessage) ∧
        e.run.outcome = .error (.chunkEvaluation 1 Accumulator.emptyMessage) ∧ e.run.emitted.map (·.1) = [0, 1] := by
  have hfacts : ∃ j ∈ (late.prepare late.compile "out" ⟨["time", "lat"], "K", .empty⟩).toOption,
      j.plan.rootStreamed = true ∧
        let run := (Engine.ofVariable j.resolved j.plan late.source late.converter).run
        run.outcome = .error (.chunkEvaluation 1 Accumulator.emptyMessage) ∧ run.emitted.map (·.1) = [0, 1] := by
    decide +kernel
  obtain ⟨j, hj, hs, houtcome, hgiven⟩ := hfacts
  have hj' := toOption_eq_some.mp hj
  obtain ⟨hresolved, hplan⟩ := prepare_built hj'
  have hplanned := Plan.build_planned (fun i p hp => hresolved.typed.parents_lt hp) hplan
  refine ⟨j, hj', hs, ?_, houtcome, hgiven⟩
  have hends := run_ends (passed_of_planned hplanned late.source late.converter)
  rw [houtcome, hgiven] at hends
  generalize hg : [0, 1] = given at hends
  generalize ho : (.error (.chunkEvaluation 1 Accumulator.emptyMessage) : Except Failure Nat) = outcome at hends
  cases hends with
  | complete => cases ho
  | early _ => cases hg
  | chunk _ _ h =>
    cases ho
    exact h
  | finish _ _ h =>
    have heq := Except.error.inj ho
    rw [heq]
    exact h

end Conformance
end Concord
