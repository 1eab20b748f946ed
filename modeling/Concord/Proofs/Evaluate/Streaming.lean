import Concord.Proofs.Evaluate.AllInputs
import Concord.Proofs.Evaluate.Runs
import Concord.Proofs.Evaluate.Emission

/-! A chunk on its own does what it does in a run. If chunks do not depend on each other, the values that a run has
    settled in earlier chunks are those that the chunk settles for itself, so both give the same chunk or fail alike. -/

namespace Concord

namespace Engine

open Traced NodeStore

variable {e : Engine} {c id : Nat} {done rest : List Nat} {x y : Ledger (Grid Double) × RunState}

/-! ### Steps -/

/-- The values of the parents of a node that do not depend on the chunk. -/
def Backed (e : Engine) (id : Nat) : Prop :=
  ∀ p ∈ e.store.parents id, e.plan.streamed p = false → (e.value p none).isSome = true

/-- What a step settles is there if it has a value. -/
theorem Stepped.settles (ho : e.Ordered) (hsteps : (e.schedule 0).steps = done ++ id :: rest) (hbacked : e.Backed id)
    (hx : e.Stepped 0 c done (id :: rest) x) :
    ∃ settled, (e.settleAll (e.store.parents id) x.2.settled).outcome = .ok settled ∧
      ∀ p ∈ e.store.parents id, e.plan.streamed p = false → settled.getD p none = e.value p none := by
  have hmem : id ∈ (e.schedule 0).steps := hsteps ▸ List.mem_append_right _ List.mem_cons_self
  have hmeets : (e.settleAll (e.store.parents id) x.2.settled).Meets _ (e.inputs id (some c) = none) :=
    settleAll_meets ho hx.knows (step_facts ho hmem).1 fun p hp => steps_parents ho hmem hp
  cases hsettle : (e.settleAll (e.store.parents id) x.2.settled).outcome with
  | ok settled =>
    obtain ⟨hk, -, hall⟩ := hmeets.ok hsettle
    refine ⟨settled, rfl, fun p hp hsp => ?_⟩
    obtain ⟨g, hg⟩ := Option.isSome_iff_exists.mp (hall p hp hsp)
    rw [hg, hk.sound p g hg]
  | error f =>
    obtain ⟨p, hp, hnone⟩ := exists_of_mapM_eq_none (hmeets.error hsettle)
    unfold keyFor at hnone
    split at hnone
    · rename_i hsp
      have hsome := hx.valued p (parent_done ho.below hsteps hp hsp)
      rw [hnone] at hsome
      cases hsome
    · rename_i hsp
      have hsome := hbacked p hp (Bool.eq_false_iff.mpr hsp)
      rw [hnone] at hsome
      cases hsome

/-- A step does the same whatever was settled before. -/
theorem stepNode_same (ho : e.Ordered) (hi : e.Independent) (hsteps : (e.schedule 0).steps = done ++ id :: rest)
    (hbacked : e.Backed id) (hx : e.Stepped 0 c done (id :: rest) x) (hy : e.Stepped 0 c done (id :: rest) y)
    (hledger : x.1 = y.1) :
    (e.stepNode c x id).outcome.map (·.1) = (e.stepNode c y id).outcome.map (·.1) := by
  obtain ⟨sx, hsx, hvx⟩ := hx.settles ho hsteps hbacked
  obtain ⟨sy, hsy, hvy⟩ := hy.settles ho hsteps hbacked
  have hinputs : e.inputsOf x.1 sx (e.store.parents id) = e.inputsOf y.1 sy (e.store.parents id) := by
    refine mapM_congr fun p hp => ?_
    rw [hledger]
    cases hsp : e.plan.streamed p with
    | true => rfl
    | false => rw [if_neg Bool.false_ne_true, if_neg Bool.false_ne_true, hvx p hp hsp, hvy p hp hsp]
  unfold stepNode
  rw [bind_ok hsx, bind_ok hsy, hinputs]
  cases e.inputsOf y.1 sy (e.store.parents id) with
  | error f => rfl
  | ok gs =>
    -- Without state to carry, the value is that of the node alone.
    have hvalue : ∀ scans, e.stepValue c id gs scans =
        e.evaluate id gs (some c) >>= fun value => pure (value, scans) := by
      intro scans
      unfold stepValue
      rw [hi.carried id]
    show ((e.stepValue c id gs x.2.scans >>= _).outcome).map _ = ((e.stepValue c id gs y.2.scans >>= _).outcome).map _
    rw [hvalue, hvalue, hledger]
    cases hg : (e.evaluate id gs (some c)).outcome with
    | error f => rw [bind_error (bind_error hg), bind_error (bind_error hg)]
    | ok g => rw [bind_ok ((bind_ok hg).trans rfl), bind_ok ((bind_ok hg).trans rfl)]; rfl

/-- All steps of a chunk do. -/
theorem steps_same (ho : e.Ordered) (hi : e.Independent) (hbacked : ∀ id ∈ (e.schedule 0).steps, e.Backed id) :
    ∀ {rest done : List Nat} {x y : Ledger (Grid Double) × RunState}, (e.schedule 0).steps = done ++ rest →
      e.Stepped 0 c done rest x → e.Stepped 0 c done rest y → x.1 = y.1 →
      (rest.foldlM (e.stepNode c) x).outcome.map (·.1) = (rest.foldlM (e.stepNode c) y).outcome.map (·.1)
  | [], _, _, _, _, _, _, hledger => congrArg Except.ok hledger
  | id :: rest, done, x, y, hsteps, hx, hy, hledger => by
    have hmem : id ∈ (e.schedule 0).steps := hsteps ▸ List.mem_append_right _ List.mem_cons_self
    have hsame := stepNode_same ho hi hsteps (hbacked id hmem) hx hy hledger
    rw [List.foldlM_cons, List.foldlM_cons]
    rcases map_eq_map hsame with ⟨x', y', hx', hy', hledger'⟩ | ⟨f, hx', hy'⟩
    · rw [bind_ok hx', bind_ok hy']
      exact steps_same ho hi hbacked (by rw [hsteps, List.append_assoc]; rfl) ((stepNode_meets ho hsteps hx).ok hx')
        ((stepNode_meets ho hsteps hy).ok hy') hledger'
    · rw [bind_error hx', bind_error hy']

/-! ### Chunks -/

/-- Once a chunk has succeeded, the values that do not depend on it are there. -/
theorem backed_of_value (ho : e.Ordered) (hi : e.Independent) (hv : (e.value e.plan.root (some c)).isSome = true) :
    ∀ id ∈ (e.schedule 0).steps, e.Backed id := by
  intro id hid p hp hsp
  rw [Option.isSome_iff_ne_none]
  intro hnone
  have hinputs : e.inputs id (some c) = none := inputs_eq_none hp (by unfold keyFor; rw [hsp]; exact hnone)
  have hsome := hi.valued ho hv id hid
  rw [value_plain ho.below (hi.carried id), hinputs] at hsome
  cases hsome

/-- The steps of a chunk do the same in a run as from the start. -/
theorem stepChunk_same (ho : e.Ordered) (hi : e.Independent) {s : RunState × List (Nat × Accumulator)}
    (h : e.Begins 0 c s) :
    (e.stepChunk c (e.schedule 0) s.1).outcome.map (·.1) =
      (e.stepChunk c (e.schedule 0) e.initial).outcome.map (·.1) := by
  obtain ⟨hp, es, hgiven⟩ := h.passing ho
  cases c with
  | zero =>
    obtain ⟨-, -, state, as, ⟨-, hstate⟩, -, hs⟩ := h
    cases hstate
    cases hs
    rw [hi.resetScans]
  | succ n =>
    unfold GivenIn at hgiven
    rw [if_pos (hi.emitsRoot ho)] at hgiven
    have hfirst : (0 : Nat) ∈ es.map (·.1) := hgiven.1 ▸ List.mem_range.mpr (Nat.succ_pos n)
    obtain ⟨p, hp', hzero⟩ := List.mem_map.mp hfirst
    have hvalue := hgiven.2 p hp'
    rw [hzero] at hvalue
    refine steps_same ho hi (backed_of_value ho hi (by rw [hvalue]; rfl)) (List.nil_append _).symm ?_ ?_ rfl
    · exact stepped_nil ho hp.knows hp.size fun id _ => hi.scanAt _ id _
    · exact stepped_nil ho (knows_initial ho) List.length_replicate fun id _ => hi.scanAt _ id _

/-- A chunk of a run gives out what it gives on its own, and fails as it does on its own. -/
theorem runChunkOfPass_same (ho : e.Ordered) (hi : e.Independent) (hc : c < e.plan.chunks.length)
    {s : RunState × List (Nat × Accumulator)} (h : e.Begins 0 c s) :
    ((e.runChunkOfPass (e.schedule 0) s c).outcome.map fun _ => (e.runChunkOfPass (e.schedule 0) s c).emitted) =
      (e.runChunk c).outcome.map fun g => [(c, g)] := by
  have hsame := stepChunk_same ho hi h
  have hnil : s.2 = [] := List.map_eq_nil_iff.mp ((h.passing ho).1.sinks.trans (hi.sinks 0))
  have hemits : (e.schedule 0).emitsRoot = true := hi.emitsRoot ho
  have hchunk : e.runChunkOfPass (e.schedule 0) s c =
      (e.stepChunk c (e.schedule 0) s.1).mapError (inChunk c) >>= fun r =>
        Traced.ofExcept (e.output c r.1) >>= fun g => Traced.emit c g >>= fun _ => pure (r.2, []) := by
    unfold runChunkOfPass
    rw [hnil, hemits]
    rfl
  have hquiet : ((e.stepChunk c (e.schedule 0) s.1).mapError (inChunk c)).emitted = [] := stepChunk_quiet ..
  have houtcome : ∀ state, ((e.stepChunk c (e.schedule 0) state).mapError (inChunk c)).outcome =
      (e.stepChunk c (e.schedule 0) state).outcome.mapError (inChunk c) := fun _ => rfl
  rw [runChunk_eq (independent_iff.mpr hi) hc, hchunk]
  rcases map_eq_map hsame with ⟨x, y, hx, hy, hledger⟩ | ⟨f, hx, hy⟩
  · have hx' := (houtcome _).trans (congrArg _ hx)
    rw [bind_ok hx', emitted_bind_ok hx', bind_ok ((houtcome _).trans (congrArg _ hy)), hquiet, hledger]
    cases e.output c y.1 <;> rfl
  · rw [bind_error ((houtcome _).trans (congrArg _ hx)), bind_error ((houtcome _).trans (congrArg _ hy))]
    rfl

/-! ### Runs -/

/-- How a run in independent chunks ends: it has given out what the first chunks give on their own; if these are not
    all, it has failed as the next one does. -/
structure Streams (e : Engine) (given : List (Nat × Grid Double)) (outcome : Except Failure Nat) : Prop where
  indices : given.map (·.1) = List.range given.length
  same : ∀ p ∈ given, (e.runChunk p.1).outcome = .ok p.2
  all : ∀ n, outcome = .ok n → n = e.plan.chunks.length ∧ given.length = e.plan.chunks.length
  fails : ∀ f, outcome = .error f → given.length < e.plan.chunks.length ∧ (e.runChunk given.length).outcome = .error f

/-- The chunks of a run give out what they give on their own, as long as they succeed. -/
theorem chunks_same (ho : e.Ordered) (hi : e.Independent) {s : RunState × List (Nat × Accumulator)}
    (hs : e.Begins 0 0 s) {n : Nat} (hn : n ≤ e.plan.chunks.length) {s' : RunState × List (Nat × Accumulator)}
    (h : ((List.range n).foldlM (e.runChunkOfPass (e.schedule 0)) s).outcome = .ok s') :
    e.Begins 0 n s' ∧
      ((List.range n).foldlM (e.runChunkOfPass (e.schedule 0)) s).emitted.map (·.1) = List.range n ∧
      ∀ p ∈ ((List.range n).foldlM (e.runChunkOfPass (e.schedule 0)) s).emitted,
        (e.runChunk p.1).outcome = .ok p.2 := by
  have hfold := emits_foldlM (P := fun done es s => e.Begins 0 done.length s ∧ es.map (·.1) = List.range done.length ∧
      ∀ p ∈ es, (e.runChunk p.1).outcome = .ok p.2) (B := fun _ => True) (f := e.runChunkOfPass (e.schedule 0))
    (List.range n) ?_ (List.nil_append _).symm ⟨hs, rfl, fun _ h => absurd h List.not_mem_nil⟩
  · have hok := hfold.ok h
    rwa [List.length_range] at hok
  · rintro done c rest es x hall ⟨hx, hindices, hsame⟩
    obtain ⟨rfl, hlt⟩ := eq_length_of_range hall
    have hc := Nat.lt_of_lt_of_le hlt hn
    have hchunk := runChunkOfPass_same ho hi hc hx
    refine emits_iff.mpr ⟨fun x' hx' => ?_, fun _ _ => trivial⟩
    rw [hx'] at hchunk
    obtain ⟨g, hg, hgiven⟩ := map_eq_ok.mp hchunk.symm
    have hemitted : (e.runChunkOfPass (e.schedule 0) x done.length).emitted = [(done.length, g)] := hgiven.symm
    rw [hemitted, List.length_append, List.length_singleton, List.map_append, hindices, List.range_succ]
    refine ⟨hx.succ hc hx', rfl, fun p hp => ?_⟩
    rcases List.mem_append.mp hp with hp | hp
    · exact hsame p hp
    · cases List.mem_singleton.mp hp
      exact hg

/-- What goes through all chunks in the one pass that there is. -/
def chunkLoop (e : Engine) : Traced Failure (RunState × List (Nat × Accumulator)) :=
  (List.range e.plan.chunks.length).foldlM (e.runChunkOfPass (e.schedule 0)) (e.initial, [])

theorem run_eq_chunkLoop (hi : e.Independent) :
    e.run = e.chunkLoop >>= fun s => Traced.ofExcept (s.2.foldlM e.finish s.1.settled) >>= fun _ =>
      pure e.plan.chunks.length := by
  have haccumulators : ((e.schedule 0).sinks.mapM e.accumulator).mapError (inChunk 0) = .ok [] := by
    have hsinks : (e.schedule 0).sinks = [] := hi.sinks 0
    rw [hsinks]
    rfl
  unfold run runPass chunkLoop
  simp only [hi.passes, List.range_one, List.foldlM_cons, List.foldlM_nil, hi.streamed, if_true, haccumulators,
    hi.resetScans, bind_assoc]
  rfl

theorem begins_first (hi : e.Independent) : e.Begins 0 0 (e.initial, []) := by
  refine ⟨hi.passes.symm ▸ Nat.one_pos, Nat.zero_le _, e.initial, [], ⟨Nat.zero_le _, rfl⟩, ?_, ?_⟩
  · have hsinks : (e.schedule 0).sinks = [] := hi.sinks 0
    rw [hsinks]
    rfl
  · rw [hi.resetScans]
    rfl

/-- A run gives out chunk after chunk what these give on their own, until one fails on its own. -/
theorem run_streams (ho : e.Ordered) (hi : e.Independent) : e.Streams e.run.emitted e.run.outcome := by
  have hlength : ∀ {es : List (Nat × Grid Double)} {n : Nat}, es.map (·.1) = List.range n → es.length = n := by
    intro es n h
    have := congrArg List.length h
    rwa [List.length_map, List.length_range] at this
  rw [run_eq_chunkLoop hi]
  cases hloop : e.chunkLoop.outcome with
  | error f =>
    obtain ⟨done, c, rest, s, hall, hdone, hchunk, hemitted⟩ := foldlM_error hloop
    obtain ⟨-, hc⟩ := eq_length_of_range hall
    rw [prefix_range hall] at hdone hemitted
    obtain ⟨hbegins, hindices, hsame⟩ := chunks_same ho hi (begins_first hi) (Nat.le_of_lt hc) hdone
    have hfails := runChunkOfPass_same ho hi hc hbegins
    rw [hchunk] at hfails
    rw [(runChunkOfPass_error hchunk).1, List.append_nil] at hemitted
    rw [emitted_bind_error hloop, bind_error hloop]
    have hgiven : e.chunkLoop.emitted = _ := hemitted
    rw [hgiven]
    refine ⟨(hlength hindices).symm ▸ hindices, hsame, fun _ h => (by cases h), fun f' h => ?_⟩
    rw [hlength hindices]
    cases h
    exact ⟨hc, map_eq_error.mp hfails.symm⟩
  | ok s =>
    obtain ⟨hbegins, hindices, hsame⟩ := chunks_same ho hi (begins_first hi) (Nat.le_refl _) hloop
    have hnil : s.2 = [] := List.map_eq_nil_iff.mp ((hbegins.passing ho).1.sinks.trans (hi.sinks 0))
    have hgiven : e.chunkLoop.emitted.length = e.plan.chunks.length := hlength hindices
    rw [emitted_bind_ok hloop, bind_ok hloop, hnil]
    show e.Streams (e.chunkLoop.emitted ++ []) (.ok e.plan.chunks.length)
    rw [List.append_nil]
    refine ⟨hgiven.symm ▸ hindices, hsame, fun n h => ⟨(Except.ok.inj h).symm, hgiven⟩, fun _ h => (by cases h)⟩

/-- Chunks that depend on each other are not evaluated on their own. -/
theorem runChunk_dependent (h : ¬e.Independent) (c : Nat) : e.runChunk c = Traced.fail (inChunk c .dependent) := by
  have hnot : e.plan.independent = false := Bool.eq_false_iff.mpr fun hind => h (independent_iff.mp hind)
  unfold runChunk
  rw [hnot]
  rfl

theorem runChunk_error {f : Failure} (h : (e.runChunk c).outcome = .error f) :
    ∃ message, f = .chunkEvaluation c message := by
  unfold runChunk at h
  split at h
  · cases h
    exact ⟨_, rfl⟩
  split at h
  · cases h
    exact ⟨_, rfl⟩
  rcases bind_outcome_error h with ⟨hsteps, -⟩ | ⟨⟨ledger, state⟩, -, h, -⟩
  · exact mapError_inChunk hsteps
  · change e.output c ledger = .error f at h
    unfold output at h
    split at h
    · cases h
    · cases h
      exact ⟨_, rfl⟩

/-! ### Resolved variables -/

variable {context : Resolution.Context} {Fit : String → CallOptions → Prop} {v : ResolvedVariable} {plan : Plan}
  {config : Config}

/-- Where chunks do not depend on each other, nothing accumulates, so the plan orders the nodes. -/
theorem Independent.ordered (hv : Resolution.Resolved context Fit v)
    (hplan : Plan.Planned context.functions v plan) {source : Source} {converter : Measure.Converter}
    (hi : (Engine.ofVariable v plan source converter).Independent) :
    (Engine.ofVariable v plan source converter).Ordered :=
  ordered_of_fed hv hplan (fun i ha => by cases ha.symm.trans (hi.accumulates i)) source converter

/-- Chunks that do not depend on each other are the same on their own as in a run, and so are their failures. Others,
    which wait for a later pass or carry state, are refused. -/
theorem runChunk_streaming (hv : Resolution.Resolved context Fit v)
    (hplan : Plan.build v context.functions config = .ok plan) (source : Source) (converter : Measure.Converter) :
    let e := Engine.ofVariable v plan source converter
    (plan.independent = true →
      e.Streams e.run.emitted e.run.outcome ∧ ∀ c < plan.chunks.length, ∀ s, e.Begins 0 c s →
        ((e.runChunkOfPass (e.schedule 0) s c).outcome.map fun _ => (e.runChunkOfPass (e.schedule 0) s c).emitted) =
          (e.runChunk c).outcome.map fun g => [(c, g)]) ∧
      (∀ c f, (e.runChunk c).outcome = .error f → ∃ message, f = .chunkEvaluation c message) ∧
      (plan.rootStreamed = false ∨ plan.passes ≠ 1 ∨ (∃ i, (plan.role i).carried ≠ none) →
        ∀ c, e.runChunk c = Traced.fail (inChunk c .dependent)) := by
  intro e
  have hplanned := Plan.build_planned (fun i p hp => hv.typed.parents_lt hp) hplan
  refine ⟨fun hind => ?_, fun c f h => runChunk_error h, fun hdepends => runChunk_dependent fun hi => ?_⟩
  · have hi : e.Independent := independent_iff.mp hind
    have ho : e.Ordered := hi.ordered hv hplanned
    exact ⟨run_streams ho hi, fun c hc s hs => runChunkOfPass_same ho hi hc hs⟩
  · rcases hdepends with hs | hpasses | ⟨i, hcarried⟩
    · cases hs.symm.trans hi.streamed
    · exact hpasses hi.passes
    · exact hcarried (hi.carried i)

end Engine

namespace Conformance

open Engine

/-- Temperatures of three times, in chunks of two, less one that does not depend on the time. -/
def shifted : Conformance where
  standard := .ofList [("out", ⟨["time"], "K", .empty⟩)]
  definitions := .ofList [("out", "tas - base")]
  source := Dataset.source (anomalyInputs.insert "base" ⟨⟨[], "K", .empty⟩, Grid.scalar 1⟩)
  config := { Config.standard with chunkLength := some 2 }
  functions := .builtins
  converter := Measure.linear

/-- The second chunk of a run that has settled an input in the first one, and a chunk that has to wait for a mean. -/
theorem runChunk_streaming_shifted :
    (∃ j, shifted.prepare shifted.compile "out" ⟨["time"], "K", .empty⟩ = .ok j ∧
      let e := Engine.ofVariable j.resolved j.plan shifted.source shifted.converter
      e.Streams e.run.emitted e.run.outcome ∧ e.run.outcome = .ok 2 ∧ ∃ s, e.Begins 0 1 s ∧
        ((e.runChunkOfPass (e.schedule 0) s 1).outcome.map fun _ => (e.runChunkOfPass (e.schedule 0) s 1).emitted) =
          (e.runChunk 1).outcome.map fun g => [(1, g)]) ∧
      (Engine.ofVariable anomalyJob.resolved anomalyJob.plan anomaly.source anomaly.converter).runChunk 1 =
        Traced.fail (inChunk 1 .dependent) := by
  have hfacts : ∃ j ∈ (shifted.prepare shifted.compile "out" ⟨["time"], "K", .empty⟩).toOption,
      (Engine.ofVariable j.resolved j.plan shifted.source shifted.converter).run.outcome = .ok 2 ∧
        j.plan.independent = true ∧ j.plan.passes = 1 ∧ j.plan.chunks.length = 2 := by
    decide +kernel
  obtain ⟨j, hj, hrun, hind, hpasses, hchunks⟩ := hfacts
  have hj' := toOption_eq_some.mp hj
  obtain ⟨hresolved, hplan⟩ := prepare_built hj'
  obtain ⟨hsame, -, -⟩ := runChunk_streaming hresolved hplan shifted.source shifted.converter
  obtain ⟨hstreams, hchunk⟩ := hsame hind
  have hlt : 1 < j.plan.chunks.length := hchunks.symm ▸ Nat.one_lt_two
  obtain ⟨s, s', hbegins, -⟩ := begins_of_run hrun (hpasses.symm ▸ Nat.one_pos) hlt
  refine ⟨⟨j, hj', hstreams, hrun, s, hbegins, hchunk 1 hlt s hbegins⟩, ?_⟩
  have ha : anomaly.prepare anomaly.compile "anomaly" ⟨["time"], "K", .empty⟩ = .ok anomalyJob :=
    toOption_eq_some.mp (Option.some_get _).symm
  obtain ⟨hresolved, hplan⟩ := prepare_built ha
  obtain ⟨-, -, hrefused⟩ := runChunk_streaming hresolved hplan anomaly.source anomaly.converter
  have htwo : anomalyJob.plan.passes ≠ 1 := by decide +kernel
  exact hrefused (.inr (.inl htwo)) 1

end Conformance
end Concord
