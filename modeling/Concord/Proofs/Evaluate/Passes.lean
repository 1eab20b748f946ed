import Concord.Proofs.Evaluate.Steps

/-! Passes and runs. A pass settles the reductions of the next level, and the last one gives out the
    values of the root, chunk by chunk. A run fails only if some node lacks a value. -/

namespace Concord.Engine

open Traced NodeStore

variable {e : Engine} {pass c id n : Nat} {s : RunState × List (Nat × Accumulator)} {a : Nat × Accumulator}

/-! ### Feeding -/

/-- A reduction has been fed with some chunks. -/
def FedAt (e : Engine) (a : Nat × Accumulator) (n : Nat) : Prop :=
  ∃ p axis r, e.store.parents a.1 = [p] ∧ (e.plan.role a.1).carried = some axis ∧
    (e.plan.role a.1).kernel = some (.reduce r) ∧ fedTo r axis (fun c => e.value p (some c)) n = some a.2

theorem carried_of_accumulates (h : e.plan.accumulates id = true) :
    ∃ axis, (e.plan.role id).carried = some axis :=
  Option.isSome_iff_exists.mp (Bool.and_eq_true_iff.mp h).1

theorem FedAt.value (ho : e.Ordered) (ha : e.plan.accumulates a.1 = true) (h : e.FedAt a e.plan.chunks.length) :
    e.value a.1 none = a.2.finish.toOption := by
  obtain ⟨p, axis, r, hp, hc, hk, hfed⟩ := h
  rw [value_reduced ho.below ha hp]
  unfold reducedValue
  rw [hc, hk]
  dsimp only
  rw [hfed, Option.bind_some]

theorem accumulator_eq_ok (ho : e.Ordered) (hid : id ∈ e.sinks pass) (h : e.accumulator id = .ok a) :
    a.1 = id ∧ e.FedAt a 0 := by
  obtain ⟨-, ha, -⟩ := mem_sinks.mp hid
  obtain ⟨p, hp, -, -⟩ := ho.fed id ha
  obtain ⟨axis, hc⟩ := carried_of_accumulates ha
  unfold accumulator at h
  split at h
  · rename_i r hk
    cases h
    exact ⟨rfl, p, axis, r, hp, hc, hk, rfl⟩
  · cases h

theorem accumulator_eq_error (ho : e.Ordered) (hid : id ∈ e.sinks pass) {f : EvaluationFault}
    (h : e.accumulator id = .error f) : e.value id none = none := by
  obtain ⟨-, ha, -⟩ := mem_sinks.mp hid
  obtain ⟨p, hp, -, -⟩ := ho.fed id ha
  rw [value_reduced ho.below ha hp]
  unfold accumulator at h
  unfold reducedValue
  split at h
  · cases h
  · rename_i hk
    split
    · rename_i hk'
      exact absurd hk' (hk _)
    · rfl

/-- The accumulators of a pass are those of its reductions. -/
theorem mapM_accumulator_ids {as : List (Nat × Accumulator)} (h : (e.sinks pass).mapM e.accumulator = .ok as) :
    as.map (·.1) = e.sinks pass := by
  have key : ∀ {l : List Nat} {as : List (Nat × Accumulator)},
      List.Forall₂ (fun id a => e.accumulator id = .ok a) l as → as.map (·.1) = l := by
    intro l as hl
    induction hl with
    | nil => rfl
    | cons ha _ ih =>
      unfold accumulator at ha
      split at ha
      · cases ha
        rw [List.map_cons, ih]
      · cases ha
  exact key (mapM_eq_ok.mp h)

/-- The reductions of a pass before the first chunk. -/
theorem accumulators_meets (ho : e.Ordered) :
    (Traced.ofExcept (((e.sinks pass).mapM e.accumulator).mapError (inChunk 0))).Meets
      (fun as => as.map (·.1) = e.sinks pass ∧ ∀ a ∈ as, e.FedAt a 0)
      (∃ id ∈ e.sinks pass, e.value id none = none) := by
  refine meets_ofExcept (fun as h => ?_) fun f h => ?_
  · have hall := mapM_eq_ok.mp (mapError_eq_ok.mp h)
    have key : ∀ {l : List Nat} {as : List (Nat × Accumulator)},
        List.Forall₂ (fun id a => e.accumulator id = .ok a) l as → l ⊆ e.sinks pass →
        as.map (·.1) = l ∧ ∀ a ∈ as, e.FedAt a 0 := by
      intro l as hl
      induction hl with
      | nil => exact fun _ => ⟨rfl, fun _ h => absurd h List.not_mem_nil⟩
      | cons ha hl ih =>
        intro hsub
        obtain ⟨hid, hsub⟩ := List.cons_subset.mp hsub
        obtain ⟨heq, hfed⟩ := accumulator_eq_ok ho hid ha
        obtain ⟨hids, hall⟩ := ih hsub
        refine ⟨by rw [List.map_cons, heq, hids], fun a hmem => ?_⟩
        rcases List.mem_cons.mp hmem with rfl | hmem
        · exact hfed
        · exact hall a hmem
    exact key hall (List.Subset.refl _)
  · obtain ⟨f', hf'⟩ := mapError_eq_error h
    obtain ⟨id, hid, hf'⟩ := mapM_eq_error hf'
    exact ⟨id, hid, accumulator_eq_error ho hid hf'⟩

theorem sink_parent_step (hb : e.store.ParentsBelow) (hid : id ∈ e.sinks pass) {p : Nat} (hp : p ∈ e.store.parents id)
    (hs : e.plan.streamed p = true) : p ∈ (e.schedule pass).steps :=
  start_mem_reachedThrough (parent_lt hb hp)
    (List.mem_append_left _ (List.mem_flatMap.mpr ⟨id, hid, hp⟩)) hs

/-- All reductions of a pass are fed with a chunk. -/
theorem feed_eq_ok (ho : e.Ordered) {root : List Nat}
    (hvalued : ∀ id ∈ (e.schedule pass).steps, (e.value id (some c)).isSome = true) :
    ∀ (as out : List (Nat × Accumulator)) {l : Ledger (Grid Double)},
      (∀ a ∈ as, a.1 ∈ e.sinks pass ∧ e.FedAt a c) →
      l.Serves (fun id => e.value id (some c)) (e.schedule pass).steps
        (((as.map (·.1)).flatMap e.store.parents ++ root).filter e.plan.streamed) →
      ∃ l' as', as.foldlM e.feedOne (l, out) = .ok (l', out ++ as') ∧
        l'.Serves (fun id => e.value id (some c)) (e.schedule pass).steps (root.filter e.plan.streamed) ∧
        as'.map (·.1) = as.map (·.1) ∧ ∀ a ∈ as', e.FedAt a (c + 1)
  | [], out, l, _, hl => ⟨l, [], by rw [List.append_nil]; rfl, hl, rfl, fun _ h => absurd h List.not_mem_nil⟩
  | (id, acc) :: as, out, l, has, hl => by
    obtain ⟨hid, p, axis, r, hp, hc, hk, hfed⟩ := has _ List.mem_cons_self
    obtain ⟨p', hp', hs, -⟩ := ho.fed id (mem_sinks.mp hid).2.1
    cases (List.cons.inj (hp.symm.trans hp')).1
    have hstep := sink_parent_step ho.below hid (hp ▸ List.mem_singleton_self p) hs
    obtain ⟨g, hg⟩ := Option.isSome_iff_exists.mp (hvalued p hstep)
    rw [List.map_cons, List.flatMap_cons, show e.store.parents id = [p] from hp, List.singleton_append,
      List.cons_append, List.filter_cons, if_pos hs] at hl
    have hget := hl.get? hstep List.mem_cons_self
    have hone : e.feedOne (l, out) (id, acc) = .ok (l.release p, out ++ [(id, acc.feed g axis)]) := by
      have hfirst : e.firstParent id = .ok p := by
        unfold firstParent
        rw [show e.store.parents id = [p] from hp]
      have hcarried : (e.plan.role id).carried = some axis := hc
      simp only [feedOne, hfirst, hcarried, hget, hg, Bind.bind, Except.bind]
    obtain ⟨l', as', has', hl', hids, hfed'⟩ :=
      feed_eq_ok ho hvalued as _ (fun a ha => has a (List.mem_cons_of_mem _ ha)) hl.release
    refine ⟨l', (id, acc.feed g axis) :: as', ?_, hl', congrArg (id :: ·) hids, fun a ha => ?_⟩
    · rw [List.foldlM_cons, hone]
      show as.foldlM e.feedOne _ = _
      rw [has', List.append_assoc]
      rfl
    · rcases List.mem_cons.mp ha with rfl | ha
      · refine ⟨p, axis, r, hp, hc, hk, ?_⟩
        rw [fedTo_succ, show fedTo r axis (fun c => e.value p (some c)) c = some acc from hfed, Option.bind_some, hg]
        rfl
      · exact hfed' a ha

/-- The reductions of a pass stay the same ones when they are fed. -/
theorem feed_ids {ledger : Ledger (Grid Double)} {accumulators : List (Nat × Accumulator)}
    {r : Ledger (Grid Double) × List (Nat × Accumulator)} (h : e.feed ledger accumulators = .ok r) :
    r.2.map (·.1) = accumulators.map (·.1) := by
  have hone : ∀ {s s' : Ledger (Grid Double) × List (Nat × Accumulator)} {a : Nat × Accumulator},
      e.feedOne s a = .ok s' → s'.2.map (·.1) = s.2.map (·.1) ++ [a.1] := by
    intro s s' a h
    obtain ⟨parent, -, h⟩ := bind_eq_ok.mp h
    split at h
    · cases h
    · cases h
    · cases h
      rw [List.map_append, List.map_singleton]
  refine foldlM_induction (P := fun done s => s.2.map (·.1) = done.map (·.1)) accumulators ?_
    (List.nil_append _).symm rfl h
  intro done a rest s s' _ hs hstep
  rw [hone hstep, hs, List.map_append, List.map_singleton]

/-! ### Chunks -/

/-- The values of the root for the first chunks were given out, in order. -/
def Given (e : Engine) (n : Nat) (es : List (Nat × Grid Double)) : Prop :=
  es.map (·.1) = List.range n ∧ ∀ p ∈ es, e.value e.plan.root (some p.1) = some p.2

theorem given_nil (e : Engine) : e.Given 0 [] := ⟨rfl, fun _ h => absurd h List.not_mem_nil⟩

theorem Given.succ {es : List (Nat × Grid Double)} {g : Grid Double} (h : e.Given n es)
    (hg : e.value e.plan.root (some n) = some g) : e.Given (n + 1) (es ++ [(n, g)]) := by
  refine ⟨by rw [List.map_append, h.1, List.range_succ]; rfl, fun p hp => ?_⟩
  rcases List.mem_append.mp hp with hp | hp
  · exact h.2 p hp
  · rw [List.mem_singleton.mp hp]
    exact hg

/-- What a pass has given out after some chunks. -/
def GivenIn (e : Engine) (pass n : Nat) (es : List (Nat × Grid Double)) : Prop :=
  e.Given (if e.emitsRoot pass then n else 0) es

theorem givenIn_nil (e : Engine) (pass : Nat) : e.GivenIn pass 0 [] := by
  unfold GivenIn
  split <;> exact given_nil e

/-- A node lacks a value that the run needs: a step of a pass for a chunk, or a reduction or the root as a
    whole. -/
inductive Lacks (e : Engine) : Prop
  | step {pass c id : Nat} (hpass : pass < e.plan.passes) (hc : c < e.plan.chunks.length)
      (hid : id ∈ (e.schedule pass).steps) (h : e.value id (some c) = none)
  | whole {id : Nat} (hid : id < e.store.count) (hs : e.plan.streamed id = false)
      (hneeded : e.plan.accumulates id = true ∨ id = e.plan.root) (h : e.value id none = none)

/-- A pass is under way. -/
structure Passing (e : Engine) (pass c : Nat) (s : RunState × List (Nat × Accumulator)) : Prop where
  knows : e.Knows pass s.1.settled
  size : s.1.scans.length = e.store.count
  scans : ∀ id ∈ (e.schedule pass).steps, e.ScanAt s.1.scans id c
  sinks : s.2.map (·.1) = e.sinks pass
  fed : ∀ a ∈ s.2, e.FedAt a c

theorem root_step (hroot : e.plan.root < e.store.count) (he : e.emitsRoot pass = true) :
    e.plan.root ∈ (e.schedule pass).steps := by
  refine start_mem_reachedThrough hroot (List.mem_append_right _ ?_) (emitsRoot_iff.mp he).1
  rw [if_pos he]
  exact List.mem_singleton_self _

theorem output_eq_ok (ho : e.Ordered) (he : e.emitsRoot pass = true) {l : Ledger (Grid Double)} {g : Grid Double}
    (hl : l.Serves (fun id => e.value id (some c)) (e.schedule pass).steps ([e.plan.root].filter e.plan.streamed))
    (hg : e.value e.plan.root (some c) = some g) : e.output c l = .ok g := by
  have hs : e.plan.streamed e.plan.root = true := (emitsRoot_iff.mp he).1
  have hget := hl.get? (root_step ho.root he) (by rw [List.filter_cons, if_pos hs]; exact List.mem_cons_self)
  unfold output Ledger.take
  rw [hget, hg]

/-- What has succeeded in a chunk of a pass that succeeds. -/
theorem runChunkOfPass_eq_ok {schedule : Schedule} {s' : RunState × List (Nat × Accumulator)}
    (h : (e.runChunkOfPass schedule s c).outcome = .ok s') :
    ∃ ledger ledger', (e.stepChunk c schedule s.1).outcome = .ok (ledger, s'.1) ∧
      e.feed ledger s.2 = .ok (ledger', s'.2) ∧
      (schedule.emitsRoot = true → ∃ g, e.output c ledger' = .ok g) := by
  unfold runChunkOfPass at h
  obtain ⟨⟨ledger, state⟩, hsteps, h⟩ := bind_outcome_ok h
  obtain ⟨⟨ledger', accumulators⟩, hfeed, h⟩ := bind_outcome_ok h
  have hsteps' := mapError_eq_ok.mp hsteps
  have hfeed' := mapError_eq_ok.mp hfeed
  dsimp only at h
  split at h
  · obtain ⟨g, hg, h⟩ := bind_outcome_ok h
    cases h
    exact ⟨ledger, ledger', hsteps', hfeed', fun _ => ⟨g, hg⟩⟩
  · rename_i hnot
    cases h
    exact ⟨ledger, ledger', hsteps', hfeed', fun he => absurd he hnot⟩

theorem runChunkOfPass_ids {schedule : Schedule} {s' : RunState × List (Nat × Accumulator)}
    (h : (e.runChunkOfPass schedule s c).outcome = .ok s') : s'.2.map (·.1) = s.2.map (·.1) := by
  obtain ⟨_, _, -, hfeed, -⟩ := runChunkOfPass_eq_ok h
  exact feed_ids hfeed

theorem runChunkOfPass_emits (ho : e.Ordered) (hpass : pass < e.plan.passes) (hc : c < e.plan.chunks.length)
    (hs : e.Passing pass c s) {es : List (Nat × Grid Double)} (hes : e.GivenIn pass c es) :
    (e.runChunkOfPass (e.schedule pass) s c).Emits
      (fun es' s' => e.Passing pass (c + 1) s' ∧ e.GivenIn pass (c + 1) (es ++ es'))
      fun es' => e.GivenIn pass c (es ++ es') ∧ e.Lacks := by
  have hsteps := (stepChunk_meets ho hs.knows hs.size hs.scans).mapError (f := inChunk c)
  unfold runChunkOfPass
  refine hsteps.emits.bind ?_ ?_
  · rintro es' ⟨rfl, id, hid, hnone⟩
    exact ⟨by rwa [List.append_nil], .step hpass hc hid hnone⟩
  rintro es₁ ⟨l, state⟩ ⟨rfl, hst⟩
  have hserves := hst.ledger
  unfold readings at hserves
  rw [List.nil_append, ← hs.sinks] at hserves
  obtain ⟨l', as', hfeed, hl', hids, hfed⟩ := feed_eq_ok ho hst.valued s.2 []
    (fun a ha => ⟨hs.sinks ▸ List.mem_map_of_mem ha, hs.fed a ha⟩) hserves
  have hpassing : e.Passing pass (c + 1) (state, as') :=
    ⟨hst.knows, hst.size, hst.scanned, hids.trans hs.sinks, hfed⟩
  have hfeed' : (e.feed l s.2).mapError (inChunk c) = .ok (l', as') := mapError_eq_ok.mpr hfeed
  dsimp only
  rw [hfeed']
  show (if e.emitsRoot pass = true then do
      let value ← Traced.ofExcept (e.output c l')
      Traced.emit c value
      pure (state, as')
    else pure (state, as') : Traced Failure (RunState × List (Nat × Accumulator))).Emits _ _
  unfold GivenIn at hes ⊢
  by_cases he : e.emitsRoot pass = true
  · obtain ⟨g, hg⟩ := Option.isSome_iff_exists.mp (hst.valued _ (root_step ho.root he))
    rw [if_pos he] at hl'
    rw [if_pos he] at hes
    simp only [if_pos he]
    rw [output_eq_ok ho he hl' hg]
    exact ⟨hpassing, hes.succ hg⟩
  · rw [if_neg he] at hes
    simp only [if_neg he]
    refine ⟨hpassing, ?_⟩
    exact (List.append_nil es).symm ▸ hes

/-! ### The end of a pass -/

theorem foldlM_finish (ho : e.Ordered) {level : Nat} :
    ∀ (as : List (Nat × Accumulator)) {settled : List (Option (Grid Double))},
      (∀ a ∈ as, e.plan.accumulates a.1 = true ∧ e.FedAt a e.plan.chunks.length) → e.Knows level settled →
      match as.foldlM e.finish settled with
      | .ok s => e.Knows level s ∧ Extends settled s ∧ ∀ a ∈ as, (s.getD a.1 none).isSome = true
      | .error _ => ∃ a ∈ as, e.value a.1 none = none
  | [], settled, _, hk => ⟨hk, .refl _, fun _ h => absurd h List.not_mem_nil⟩
  | a :: as, settled, has, hk => by
    obtain ⟨ha, hfed⟩ := has a List.mem_cons_self
    have hvalue := hfed.value ho ha
    rw [List.foldlM_cons]
    unfold finish
    cases hf : a.2.finish with
    | error reason =>
      refine ⟨a, List.mem_cons_self, ?_⟩
      rw [hvalue, hf]
      rfl
    | ok g =>
      obtain ⟨hk', hext⟩ := hk.set (ho.inside _ ha) (hvalue.trans (by rw [hf]; rfl))
      have ih := foldlM_finish ho as (fun b hb => has b (List.mem_cons_of_mem _ hb)) hk'
      have hlt : a.1 < settled.length := hk.length.symm ▸ ho.inside _ ha
      show match as.foldlM e.finish (settled.set a.1 (some g)) with
        | .ok s => _
        | .error _ => _
      cases hrest : as.foldlM e.finish (settled.set a.1 (some g)) with
      | error f =>
        rw [hrest] at ih
        obtain ⟨b, hb, hnone⟩ := ih
        exact ⟨b, List.mem_cons_of_mem _ hb, hnone⟩
      | ok s =>
        rw [hrest] at ih
        obtain ⟨hks, hexts, hall⟩ := ih
        refine ⟨hks, hext.trans hexts, fun b hb => ?_⟩
        rcases List.mem_cons.mp hb with rfl | hb
        · refine hexts.isSome ?_
          rw [getD_set hlt, if_pos rfl]
          rfl
        · exact hall b hb

/-- With its reductions settled, a pass leaves what the next one needs. -/
theorem Knows.next {settled : List (Option (Grid Double))} (hk : e.Knows pass settled) (ho : e.Ordered)
    (h : ∀ id ∈ e.sinks pass, (settled.getD id none).isSome = true) : e.Knows (pass + 1) settled := by
  refine ⟨hk.length, hk.sound, fun i ha hl => ?_⟩
  rcases Nat.lt_or_eq_of_le hl with hl | hl
  · exact hk.ready i ha (Nat.le_of_lt_succ hl)
  · exact h i (mem_sinks.mpr ⟨ho.inside i ha, ha, hl⟩)

theorem resetScans_getD {scans : List ScanState} {steps : List Nat} (h : id < scans.length)
    (hmem : id ∈ steps) {axis : Nat} (hc : (e.plan.role id).carried = some axis) :
    (e.resetScans steps scans).getD id none = none := by
  unfold resetScans
  rw [List.getD_eq_getElem?_getD, List.getElem?_map, List.getElem?_zipIdx, List.getElem?_eq_getElem h]
  have hc' : (steps.contains id && (e.plan.role id).carried.isSome) = true := by
    rw [Bool.and_eq_true, List.contains_iff_mem, hc]
    exact ⟨hmem, rfl⟩
  simp only [Option.map_some, Option.getD_some, Nat.zero_add, hc', if_true]

/-- Scans start again with each pass. -/
theorem Passing.start (ho : e.Ordered) {state : RunState} {as : List (Nat × Accumulator)}
    (hk : e.Knows pass state.settled) (hsize : state.scans.length = e.store.count)
    (hids : as.map (·.1) = e.sinks pass) (hfed : ∀ a ∈ as, e.FedAt a 0) :
    e.Passing pass 0 (⟨state.settled, e.resetScans (e.schedule pass).steps state.scans⟩, as) := by
  refine ⟨hk, ?_, fun id hid axis sc hc _ => ?_, hids, hfed⟩
  · simp only [resetScans, List.length_map, List.length_zipIdx, hsize]
  · dsimp only
    rw [resetScans_getD (hsize.symm ▸ (step_facts ho hid).1) hid hc]
    rfl

/-- A pass that gives out the output feeds nothing. -/
theorem sinks_of_emitsRoot (ho : e.Ordered) (he : e.emitsRoot pass = true) : e.sinks pass = [] := by
  refine List.eq_nil_iff_forall_not_mem.mpr fun id hid => ?_
  obtain ⟨-, ha, hl⟩ := mem_sinks.mp hid
  have := ho.last id ha
  have := (emitsRoot_iff.mp he).2
  omega

theorem eq_length_of_range {n i : Nat} {done rest : List Nat} (h : List.range n = done ++ i :: rest) :
    i = done.length ∧ i < n := by
  have hlen := congrArg List.length h
  rw [List.length_range, List.length_append, List.length_cons] at hlen
  have hget : (List.range n)[done.length]? = some i := by rw [h, List.getElem?_append_right (Nat.le_refl _)]; simp
  rw [List.getElem?_range (by omega)] at hget
  have := Option.some.inj hget
  omega

/-- A pass settles the reductions of the next level. If it fails, some node lacks a value, and not all
    of the output was given out. -/
theorem runPass_emits (ho : e.Ordered) (hpass : pass < e.plan.passes) {state : RunState} (hk : e.Knows pass state.settled)
    (hsize : state.scans.length = e.store.count) :
    (e.runPass state pass).Emits
      (fun es s => e.Knows (pass + 1) s.settled ∧ s.scans.length = e.store.count ∧
        e.GivenIn pass e.plan.chunks.length es)
      fun es => (∃ m < e.plan.chunks.length, e.GivenIn pass m es) ∧ e.Lacks := by
  have hlacks : (∃ id ∈ e.sinks pass, e.value id none = none) → e.Lacks := by
    rintro ⟨id, hid, hnone⟩
    obtain ⟨hlt, ha, -⟩ := mem_sinks.mp hid
    refine .whole hlt ?_ (.inl ha) hnone
    rw [Bool.eq_false_iff]
    intro h
    rw [not_accumulates h] at ha
    cases ha
  unfold runPass
  refine (accumulators_meets ho).emits.bind ?_ ?_
  · rintro es ⟨rfl, h⟩
    exact ⟨⟨0, ho.chunks, givenIn_nil e pass⟩, hlacks h⟩
  rintro _ as ⟨rfl, hids, hfed⟩
  have hstart := Passing.start ho hk hsize hids hfed
  have hchunks := emits_foldlM (P := fun done es s => e.Passing pass done.length s ∧ e.GivenIn pass done.length es)
    (B := fun es => (∃ m < e.plan.chunks.length, e.GivenIn pass m es) ∧ e.Lacks)
    (f := e.runChunkOfPass (e.schedule pass)) (List.range e.plan.chunks.length) ?_ (List.nil_append _).symm
    ⟨hstart, givenIn_nil e pass⟩
  · refine hchunks.bind (fun es h => h) ?_
    rintro es ⟨state', as'⟩ ⟨hp, hgiven⟩
    rw [List.length_range] at hp hgiven
    have hsinks : ∀ a ∈ as', e.plan.accumulates a.1 = true ∧ e.FedAt a e.plan.chunks.length := fun a ha =>
      ⟨(mem_sinks.mp (hp.sinks ▸ List.mem_map_of_mem ha)).2.1, hp.fed a ha⟩
    have hfinish := foldlM_finish ho as' hsinks hp.knows
    dsimp only at hfinish ⊢
    cases hf : as'.foldlM e.finish state'.settled with
    | error f =>
      rw [hf] at hfinish
      obtain ⟨a, ha, hnone⟩ := hfinish
      have he : ¬e.emitsRoot pass = true := by
        intro he
        have hnil : as' = [] := List.map_eq_nil_iff.mp (hp.sinks.trans (sinks_of_emitsRoot ho he))
        rw [hnil] at ha
        cases ha
      refine ⟨⟨0, ho.chunks, ?_⟩, hlacks ⟨a.1, hp.sinks ▸ List.mem_map_of_mem ha, hnone⟩⟩
      unfold GivenIn at hgiven ⊢
      rw [if_neg he] at hgiven ⊢
      exact (List.append_nil es).symm ▸ hgiven
    | ok settled =>
      rw [hf] at hfinish
      obtain ⟨hks, -, hall⟩ := hfinish
      refine ⟨hks.next ho fun id hid => ?_, hp.size, (List.append_nil es).symm ▸ hgiven⟩
      rw [← hp.sinks] at hid
      obtain ⟨a, ha, rfl⟩ := List.mem_map.mp hid
      exact hall a ha
  · rintro done c rest es s hall ⟨hp, hgiven⟩
    obtain ⟨rfl, hc⟩ := eq_length_of_range hall
    refine (runChunkOfPass_emits ho hpass hc hp hgiven).imp (fun es' s' h => ?_) fun es' h => ⟨⟨_, hc, h.1⟩, h.2⟩
    rw [List.length_append, List.length_singleton]
    exact h

end Concord.Engine
