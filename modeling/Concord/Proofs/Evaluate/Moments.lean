import Concord.Proofs.Evaluate.Runs

/-! What happens in a run: the states in which passes, chunks and steps begin, the calls of `settle`, and the
    values that are computed. All of them are as the invariants of runs say, so every value that is
    computed is the one that its node has. -/

namespace Concord

namespace Traced

variable {ε ι σ : Type}

/-- What holds at the start and is kept by every step that succeeds holds after some steps. -/
theorem foldlM_ok {P : List ι → σ → Prop} {f : σ → ι → Traced ε σ} (all : List ι)
    (hstep : ∀ done i rest s s', all = done ++ i :: rest → P done s → (f s i).outcome = .ok s' → P (done ++ [i]) s')
    {l rest : List ι} {s s' : σ} (hall : all = l ++ rest) (hs : P [] s) (h : (l.foldlM f s).outcome = .ok s') :
    P l s' := by
  have key : ∀ (l done : List ι) (s : σ), all = done ++ (l ++ rest) → P done s → (l.foldlM f s).outcome = .ok s' →
      P (done ++ l) s' := by
    intro l
    induction l with
    | nil =>
      intro done s _ hs h
      cases h
      rwa [List.append_nil]
    | cons i l ih =>
      intro done s hall hs h
      rw [List.foldlM_cons] at h
      obtain ⟨mid, hmid, h⟩ := bind_outcome_ok h
      have hall' : all = (done ++ [i]) ++ (l ++ rest) := by rw [hall, List.append_assoc]; rfl
      have := ih (done ++ [i]) mid hall' (hstep done i (l ++ rest) s mid hall hs hmid) h
      rwa [List.append_assoc] at this
  exact key l [] s hall hs h

theorem Emits.ok {α : Type} {t : Traced ε α} {Q : List (Nat × Grid Double) → α → Prop}
    {B : List (Nat × Grid Double) → Prop} {a : α} (h : t.Emits Q B) (ha : t.outcome = .ok a) : Q t.emitted a :=
  (emits_iff.mp h).1 a ha

end Traced

namespace Engine

open Traced NodeStore

variable {e : Engine} {pass c id fuel level : Nat} {done rest : List Nat} {settled : List (Option (Grid Double))}

/-! ### Moments -/

/-- A pass begins in a state: that in which the passes before it left the run. -/
def Enters (e : Engine) (pass : Nat) (state : RunState) : Prop :=
  pass ≤ e.plan.passes ∧ ((List.range pass).foldlM e.runPass e.initial).outcome = .ok state

/-- So many chunks of a pass are done. -/
def Begins (e : Engine) (pass c : Nat) (s : RunState × List (Nat × Accumulator)) : Prop :=
  pass < e.plan.passes ∧ c ≤ e.plan.chunks.length ∧ ∃ state accumulators, e.Enters pass state ∧
    (e.schedule pass).sinks.mapM e.accumulator = .ok accumulators ∧
    ((List.range c).foldlM (e.runChunkOfPass (e.schedule pass))
      (⟨state.settled, e.resetScans (e.schedule pass).steps state.scans⟩, accumulators)).outcome = .ok s

/-- Some steps of a pass are done for a chunk, and others are to come. -/
def Reaches (e : Engine) (pass c : Nat) (done rest : List Nat) (s : Ledger (Grid Double) × RunState) : Prop :=
  c < e.plan.chunks.length ∧ (e.schedule pass).steps = done ++ rest ∧ ∃ start, e.Begins pass c start ∧
    (done.foldlM (e.stepNode c) (Ledger.ofUses (e.schedule pass).uses, start.1)).outcome = .ok s

/-- A node is to be settled, with so much fuel, when some values are settled: for a step, for the output, or
    below a node that is to be settled itself. -/
inductive Settles (e : Engine) : Nat → Nat → List (Option (Grid Double)) → Prop
  | step {pass c id p : Nat} {done rest before after : List Nat} {s : Ledger (Grid Double) × RunState}
      {settled : List (Option (Grid Double))} (hs : e.Reaches pass c done (id :: rest) s)
      (hp : ((e.store.parents id).filter fun p => !e.plan.streamed p) = before ++ p :: after)
      (hbefore : (before.foldlM (fun settled p => e.settle (e.store.count + 1) p settled) s.2.settled).outcome =
        .ok settled) :
      Settles e (e.store.count + 1) p settled
  | output {state : RunState} (hwhole : e.plan.rootStreamed = false) (hs : e.Enters e.plan.passes state) :
      Settles e (e.store.count + 1) e.plan.root state.settled
  | parent {fuel id p : Nat} {before after : List Nat} {settled settled' : List (Option (Grid Double))}
      (hs : Settles e (fuel + 1) id settled) (hnone : (settled.getD id none).isSome = false)
      (hplain : e.plan.accumulates id = false) (hp : e.store.parents id = before ++ p :: after)
      (hbefore : (before.foldlM (fun settled p => e.settle fuel p settled) settled).outcome = .ok settled') :
      Settles e fuel p settled'

/-- A value is computed in a run for a node: as a whole when it is settled, for a chunk in a step, or from all
    chunks at the end of a pass. -/
inductive Computes (e : Engine) : Option Nat → Nat → Grid Double → Prop
  | settled {fuel id : Nat} {settled settled' : List (Option (Grid Double))} {inputs : List (Grid Double)}
      {g : Grid Double} (hs : e.Settles (fuel + 1) id settled) (hnone : (settled.getD id none).isSome = false)
      (hplain : e.plan.accumulates id = false)
      (hparents : ((e.store.parents id).foldlM (fun settled p => e.settle fuel p settled) settled).outcome =
        .ok settled')
      (hinputs : settledInputs settled' (e.store.parents id) = .ok inputs)
      (hg : (e.evaluate id inputs none).outcome = .ok g) :
      Computes e none id g
  | stepped {pass c id : Nat} {done rest : List Nat} {s : Ledger (Grid Double) × RunState}
      {settled : List (Option (Grid Double))} {inputs : List (Grid Double)} {g : Grid Double}
      {scans : List ScanState} (hs : e.Reaches pass c done (id :: rest) s)
      (hsettled : (e.settleAll (e.store.parents id) s.2.settled).outcome = .ok settled)
      (hinputs : e.inputsOf s.1 settled (e.store.parents id) = .ok inputs)
      (hg : (e.stepValue c id inputs s.2.scans).outcome = .ok (g, scans)) :
      Computes e (some c) id g
  | reduced {pass : Nat} {s : RunState × List (Nat × Accumulator)} {a : Nat × Accumulator} {g : Grid Double}
      (hs : e.Begins pass e.plan.chunks.length s) (ha : a ∈ s.2) (hg : a.2.finish = .ok g) :
      Computes e none a.1 g

/-! ### One moment after another -/

theorem range_split {m n : Nat} (h : m ≤ n) : ∃ rest, List.range n = List.range m ++ rest := by
  obtain ⟨k, rfl⟩ := Nat.exists_eq_add_of_le h
  exact ⟨_, List.range_add⟩

theorem chunks_ids {schedule : Schedule} {n : Nat} {s s' : RunState × List (Nat × Accumulator)}
    (h : ((List.range n).foldlM (e.runChunkOfPass schedule) s).outcome = .ok s') : s'.2.map (·.1) = s.2.map (·.1) :=
  foldlM_ok (P := fun _ t => t.2.map (·.1) = s.2.map (·.1)) _ (fun _ _ _ _ _ _ hs hs' => (runChunkOfPass_ids hs').trans hs)
    (List.append_nil _).symm rfl h

/-- The accumulators of a pass are those of its reductions. -/
theorem Begins.ids {s : RunState × List (Nat × Accumulator)} (h : e.Begins pass c s) : s.2.map (·.1) = e.sinks pass := by
  obtain ⟨-, -, state, as, -, has, h⟩ := h
  exact (chunks_ids h).trans (mapM_accumulator_ids has)

/-- A chunk more is done. -/
theorem Begins.succ {s s' : RunState × List (Nat × Accumulator)} (h : e.Begins pass c s)
    (hc : c < e.plan.chunks.length) (hs : (e.runChunkOfPass (e.schedule pass) s c).outcome = .ok s') :
    e.Begins pass (c + 1) s' := by
  obtain ⟨hpass, -, state, as, hstate, has, h⟩ := h
  refine ⟨hpass, hc, state, as, hstate, has, ?_⟩
  rw [List.range_succ, List.foldlM_append, bind_ok h, List.foldlM_cons, bind_ok hs]
  rfl

/-- If all of some steps succeed, so does each of them. -/
theorem range_ok {σ : Type} {f : σ → Nat → Traced Failure σ} {n i : Nat} {s s' : σ}
    (h : ((List.range n).foldlM f s).outcome = .ok s') (hi : i < n) :
    ∃ mid next, ((List.range i).foldlM f s).outcome = .ok mid ∧ (f mid i).outcome = .ok next := by
  obtain ⟨later, hsplit⟩ := range_split (Nat.succ_le_of_lt hi)
  rw [hsplit, List.range_succ, List.append_assoc, List.foldlM_append] at h
  obtain ⟨mid, hmid, h⟩ := bind_outcome_ok h
  obtain ⟨next, hnext, -⟩ := bind_outcome_ok h
  exact ⟨mid, next, hmid, hnext⟩

/-- A run that succeeds comes to every chunk of every pass, and gets through it. -/
theorem begins_of_run {n : Nat} (h : e.run.outcome = .ok n) (hpass : pass < e.plan.passes)
    (hc : c < e.plan.chunks.length) :
    ∃ start s', e.Begins pass c start ∧ (e.runChunkOfPass (e.schedule pass) start c).outcome = .ok s' := by
  obtain ⟨state, hpasses, -⟩ := bind_outcome_ok h
  obtain ⟨before, after, hbefore, hafter⟩ := range_ok hpasses hpass
  obtain ⟨as, has, hafter⟩ := bind_outcome_ok hafter
  obtain ⟨last, hlast, -⟩ := bind_outcome_ok hafter
  obtain ⟨start, s', hstart, hs'⟩ := range_ok hlast hc
  exact ⟨start, s', ⟨hpass, Nat.le_of_lt hc, before, as, ⟨Nat.le_of_lt hpass, hbefore⟩, mapError_eq_ok.mp has, hstart⟩, hs'⟩

/-! ### What is known then -/

theorem Enters.knows (ho : e.Ordered) {state : RunState} (h : e.Enters pass state) :
    e.Knows pass state.settled ∧ state.scans.length = e.store.count := by
  obtain ⟨hle, h⟩ := h
  obtain ⟨rest, hall⟩ := range_split hle
  have hfold := foldlM_ok (P := fun done s => e.Knows done.length s.settled ∧ s.scans.length = e.store.count)
    (List.range e.plan.passes) ?_ hall ⟨knows_initial ho, List.length_replicate⟩ h
  · rwa [List.length_range] at hfold
  · rintro done pass rest s s' hall ⟨hk, hsize⟩ hs'
    obtain ⟨rfl, hlt⟩ := eq_length_of_range hall
    obtain ⟨hk', hsize', -⟩ := (runPass_emits ho hlt hk hsize).ok hs'
    rw [List.length_append]
    exact ⟨hk', hsize'⟩

theorem Begins.passing (ho : e.Ordered) {s : RunState × List (Nat × Accumulator)} (h : e.Begins pass c s) :
    e.Passing pass c s ∧ ∃ es, e.GivenIn pass c es := by
  obtain ⟨hpass, hle, state, as, henters, has, h⟩ := h
  obtain ⟨hk, hsize⟩ := henters.knows ho
  obtain ⟨hids, hfed⟩ := (accumulators_meets ho).ok (show _ = Except.ok as from mapError_eq_ok.mpr has)
  have hstart := Passing.start ho hk hsize hids hfed
  obtain ⟨rest, hall⟩ := range_split hle
  have hfold := foldlM_ok (P := fun done s => e.Passing pass done.length s ∧ ∃ es, e.GivenIn pass done.length es)
    (List.range e.plan.chunks.length) ?_ hall ⟨hstart, [], givenIn_nil e pass⟩ h
  · rwa [List.length_range] at hfold
  · rintro done c rest s s' hall ⟨hp, es, hes⟩ hs'
    obtain ⟨rfl, hlt⟩ := eq_length_of_range hall
    obtain ⟨hp', hes'⟩ := (runChunkOfPass_emits ho hpass hlt hp hes).ok hs'
    rw [List.length_append]
    exact ⟨hp', _, hes'⟩

theorem Reaches.stepped (ho : e.Ordered) {s : Ledger (Grid Double) × RunState} (h : e.Reaches pass c done rest s) :
    e.Stepped pass c done rest s := by
  obtain ⟨-, hsteps, start, hbegins, h⟩ := h
  obtain ⟨hp, -⟩ := hbegins.passing ho
  have hfold := foldlM_ok (P := fun done s => ∀ rest, (e.schedule pass).steps = done ++ rest →
    e.Stepped pass c done rest s) (e.schedule pass).steps ?_ hsteps ?_ h
  · exact hfold rest hsteps
  · intro done id rest s s' hall hs hs' rest' hall'
    have hnext := (stepNode_meets ho hall (hs _ hall)).ok hs'
    rw [hall, List.append_assoc] at hall'
    cases List.append_cancel_left hall'
    exact hnext
  · intro rest hall
    rw [List.nil_append] at hall
    subst hall
    exact stepped_nil ho hp.knows hp.size hp.scans

/-- Settling some nodes one after the other. -/
theorem settle_each (ho : e.Ordered) {ids : List Nat} {settled' : List (Option (Grid Double))}
    (hk : e.Knows level settled)
    (hids : ∀ p ∈ ids, p < fuel ∧ p < e.store.count ∧ (e.plan.role p).level ≤ level)
    (h : (ids.foldlM (fun settled p => e.settle fuel p settled) settled).outcome = .ok settled') :
    e.Knows level settled' ∧ ∀ p ∈ ids, (settled'.getD p none).isSome = true := by
  have hmeets := foldlM_settle_meets (B := True) hk fun p hp s hs => by
    obtain ⟨hfuel, hlt, hlevel⟩ := hids p hp
    exact (settle_meets ho fuel p hs hfuel hlt hlevel).imp (fun _ h => h) fun _ => trivial
  obtain ⟨hk', -, hall⟩ := hmeets.ok h
  exact ⟨hk', hall⟩

/-- What is known when a node is to be settled. -/
structure Settling (e : Engine) (fuel id : Nat) (settled : List (Option (Grid Double))) (level : Nat) : Prop where
  knows : e.Knows level settled
  fuel : id < fuel
  lt : id < e.store.count
  level : (e.plan.role id).level ≤ level

theorem Settling.parent (ho : e.Ordered) (h : e.Settling (fuel + 1) id settled level)
    (hplain : e.plan.accumulates id = false) {p : Nat} (hp : p ∈ e.store.parents id) :
    p < fuel ∧ p < e.store.count ∧ (e.plan.role p).level ≤ level := by
  have hlt := ho.below id p hp
  have := h.fuel
  exact ⟨by omega, Nat.lt_trans hlt h.lt, Nat.le_trans (ho.level id hplain p hp) h.level⟩

theorem Reaches.parent (ho : e.Ordered) {s : Ledger (Grid Double) × RunState}
    (h : e.Reaches pass c done (id :: rest) s) {p : Nat} (hp : p ∈ e.store.parents id) :
    p < e.store.count + 1 ∧ p < e.store.count ∧ (e.plan.role p).level ≤ pass := by
  have hmem : id ∈ (e.schedule pass).steps := h.2.1 ▸ List.mem_append_right _ List.mem_cons_self
  have hlt := ho.parent_lt hp
  exact ⟨Nat.lt_succ_of_lt hlt, hlt, steps_parents ho hmem hp⟩

theorem Settles.settling (ho : e.Ordered) (h : e.Settles fuel id settled) : ∃ level, e.Settling fuel id settled level := by
  induction h with
  | @step _ _ id p _ _ before after _ _ hs hp hbefore =>
    have hparent : ∀ q ∈ before ++ p :: after, _ := fun q hq =>
      hs.parent ho (p := q) (List.mem_filter.mp (hp.symm ▸ hq)).1
    obtain ⟨hk, -⟩ := settle_each ho (hs.stepped ho).knows
      (fun q hq => hparent q (List.mem_append_left _ hq)) hbefore
    obtain ⟨hfuel, hlt, hlevel⟩ := hparent p (List.mem_append_right _ List.mem_cons_self)
    exact ⟨_, hk, hfuel, hlt, hlevel⟩
  | output hwhole hs =>
    refine ⟨_, (hs.knows ho).1, Nat.lt_succ_of_lt ho.root, ho.root, ?_⟩
    rw [ho.passes]
    exact Nat.le_add_right ..
  | parent _ _ hplain hp hbefore ih =>
    obtain ⟨level, ih⟩ := ih
    have hparent : ∀ q ∈ _, _ := fun q hq => ih.parent ho hplain (p := q) (hp ▸ hq)
    obtain ⟨hk, -⟩ := settle_each ho ih.knows (fun q hq => hparent q (List.mem_append_left _ hq)) hbefore
    obtain ⟨hfuel, hlt, hlevel⟩ := hparent _ (List.mem_append_right _ List.mem_cons_self)
    exact ⟨level, hk, hfuel, hlt, hlevel⟩

/-- Once the parents of a node are settled, their values are there for it. -/
theorem Settling.inputs (ho : e.Ordered) {settled' : List (Option (Grid Double))}
    (h : e.Settling (fuel + 1) id settled level) (hplain : e.plan.accumulates id = false)
    (hparents : ((e.store.parents id).foldlM (fun settled p => e.settle fuel p settled) settled).outcome =
      .ok settled') :
    ∃ gs, settledInputs settled' (e.store.parents id) = .ok gs ∧ e.inputs id none = some gs := by
  obtain ⟨hk, hall⟩ := settle_each ho h.knows (fun p hp => h.parent ho hplain hp) hparents
  have hin := settledInputs_toOption hk hall
  cases hgs : settledInputs settled' (e.store.parents id) with
  | ok gs =>
    rw [hgs] at hin
    exact ⟨gs, rfl, hin.symm⟩
  | error f =>
    obtain ⟨p, hp, hf⟩ := mapM_eq_error hgs
    obtain ⟨g, hg⟩ := Option.isSome_iff_exists.mp (hall p hp)
    rw [hg] at hf
    cases hf

/-- Once what a step needs is settled, the values of its parents are there for it. -/
theorem Reaches.inputs (ho : e.Ordered) {s : Ledger (Grid Double) × RunState}
    {settled : List (Option (Grid Double))} (h : e.Reaches pass c done (id :: rest) s)
    (hsettled : (e.settleAll (e.store.parents id) s.2.settled).outcome = .ok settled) :
    ∃ gs, e.inputsOf s.1 settled (e.store.parents id) = .ok gs ∧ e.inputs id (some c) = some gs := by
  have hs := h.stepped ho
  have hid : id < e.store.count := (step_facts ho (h.2.1 ▸ List.mem_append_right _ List.mem_cons_self)).1
  have hlevels : ∀ p ∈ e.store.parents id, (e.plan.role p).level ≤ pass := fun p hp => (h.parent ho hp).2.2
  have hmeets : (e.settleAll (e.store.parents id) s.2.settled).Meets _ (e.inputs id (some c) = none) :=
    settleAll_meets ho hs.knows hid hlevels
  obtain ⟨hk, -, hall⟩ := hmeets.ok hsettled
  have hledger : ∀ p ∈ e.store.parents id, e.plan.streamed p = true →
      s.1.get? p = e.value p (some c) ∧ (e.value p (some c)).isSome = true := by
    intro p hp hsp
    have hdone := parent_done ho.below h.2.1 hp hsp
    refine ⟨hs.ledger.get? hdone ?_, hs.valued p hdone⟩
    rw [readings_cons]
    exact List.mem_append_left _ (List.mem_filter.mpr ⟨hp, hsp⟩)
  have hplain : ∀ p ∈ e.store.parents id, e.plan.streamed p = false → settled.getD p none = e.value p none := by
    intro p hp hsp
    obtain ⟨g, hg⟩ := Option.isSome_iff_exists.mp (hall p hp hsp)
    rw [hg, hk.sound p g hg]
  have hin : (e.inputsOf s.1 settled (e.store.parents id)).toOption = e.inputs id (some c) :=
    inputsOf_toOption (fun p hp hsp => (hledger p hp hsp).1) hplain
  cases hgs : e.inputsOf s.1 settled (e.store.parents id) with
  | ok gs =>
    rw [hgs] at hin
    exact ⟨gs, rfl, hin.symm⟩
  | error f =>
    obtain ⟨p, hp, hf⟩ := mapM_eq_error hgs
    cases hsp : e.plan.streamed p with
    | true =>
      obtain ⟨hget, hsome⟩ := hledger p hp hsp
      obtain ⟨g, hg⟩ := Option.isSome_iff_exists.mp hsome
      rw [hsp, if_pos rfl, hget, hg] at hf
      cases hf
    | false =>
      obtain ⟨g, hg⟩ := Option.isSome_iff_exists.mp (hall p hp hsp)
      rw [hsp, if_neg Bool.false_ne_true, hg] at hf
      cases hf

/-! ### What is computed -/

/-- What is computed for a node is the value that it has. A value for a chunk is one of a streamed node. -/
theorem Computes.value (ho : e.Ordered) {key : Option Nat} {g : Grid Double} (h : e.Computes key id g) :
    e.value id key = some g ∧ (∀ n, key = some n → n < e.plan.chunks.length) ∧
      (key = none ∨ e.plan.streamed id = true) := by
  cases h with
  | settled hs _ hplain hparents hinputs hg =>
    obtain ⟨level, hsettling⟩ := hs.settling ho
    obtain ⟨gs, hgs, hin⟩ := hsettling.inputs ho hplain hparents
    cases hgs.symm.trans hinputs
    refine ⟨?_, fun n hn => (by cases hn), .inl rfl⟩
    rw [value_whole ho.below hplain, hin, Option.bind_some, hg]
    rfl
  | stepped hs hsettled hinputs hg =>
    obtain ⟨gs, hgs, hin⟩ := hs.inputs ho hsettled
    cases hgs.symm.trans hinputs
    have hstepped := hs.stepped ho
    obtain ⟨hid, hstreamed, -⟩ := step_facts ho (hs.2.1 ▸ List.mem_append_right _ List.mem_cons_self)
    obtain ⟨hvalue, -⟩ := (stepValue_meets ho hin (hstepped.size.symm ▸ hid)
      (hstepped.waiting id List.mem_cons_self)).ok hg
    exact ⟨hvalue, fun n hn => Option.some.inj hn ▸ hs.1, .inr hstreamed⟩
  | reduced hs ha hg =>
    obtain ⟨hp, -⟩ := hs.passing ho
    obtain ⟨-, hacc, -⟩ := mem_sinks.mp (hp.sinks ▸ List.mem_map_of_mem ha)
    refine ⟨?_, fun n hn => (by cases hn), .inl rfl⟩
    rw [(hp.fed _ ha).value ho hacc, hg]
    rfl

/-- The first value of a run is computed by its first step, if that has no parents. -/
theorem computes_first {as : List (Nat × Accumulator)} {g : Grid Double} {scans : List ScanState}
    (hpasses : 0 < e.plan.passes) (hchunks : 0 < e.plan.chunks.length)
    (has : (e.sinks 0).mapM e.accumulator = .ok as) (hsteps : (e.schedule 0).steps = id :: rest)
    (hparents : e.store.parents id = [])
    (hg : (e.stepValue 0 id [] (e.resetScans (e.schedule 0).steps e.initial.scans)).outcome = .ok (g, scans)) :
    e.Computes (some 0) id g := by
  have hbegins : e.Begins 0 0 (⟨e.initial.settled, e.resetScans (e.schedule 0).steps e.initial.scans⟩, as) :=
    ⟨hpasses, Nat.zero_le _, e.initial, as, ⟨Nat.zero_le _, rfl⟩, has, rfl⟩
  have hreaches : e.Reaches 0 0 [] (id :: rest) (Ledger.ofUses (e.schedule 0).uses,
      ⟨e.initial.settled, e.resetScans (e.schedule 0).steps e.initial.scans⟩) := ⟨hchunks, hsteps, _, hbegins, rfl⟩
  exact .stepped hreaches (by rw [hparents]; rfl) (by rw [hparents]; rfl) hg

end Engine
end Concord
