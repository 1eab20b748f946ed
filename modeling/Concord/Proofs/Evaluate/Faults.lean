import Concord.Proofs.Evaluate.Moments

/-! What can go wrong in a run. If the nodes of an engine are sane, the one fault that is left is a reduction
    of nothing: whatever is settled, read from the ledger, fed or given out is there when it is needed. -/

namespace Concord

namespace Traced

variable {ε ε' α β ι σ : Type} {B : ε → Prop}

/-- It fails with certain errors only. -/
def Throws (t : Traced ε α) (B : ε → Prop) : Prop := ∀ f, t.outcome = .error f → B f

theorem throws_pure {a : α} : (pure a : Traced ε α).Throws B := fun _ h => by cases h

theorem throws_ofExcept {x : Except ε α} (h : ∀ f, x = .error f → B f) : (ofExcept x).Throws B := h

theorem throws_of_ok {t : Traced ε α} {a : α} (h : t.outcome = .ok a) : t.Throws B := fun f hf => by
  rw [h] at hf
  cases hf

theorem Throws.bind {t : Traced ε α} {f : α → Traced ε β} (h : t.Throws B)
    (hf : ∀ a, t.outcome = .ok a → (f a).Throws B) : (t >>= f).Throws B := by
  intro g hg
  cases ht : t.outcome with
  | error g' =>
    rw [bind_error ht] at hg
    cases hg
    exact h g ht
  | ok a =>
    rw [bind_ok ht] at hg
    exact hf a ht g hg

theorem Throws.mapError {t : Traced ε α} {f : ε → ε'} {B' : ε' → Prop} (h : t.Throws B) (hf : ∀ g, B g → B' (f g)) :
    (t.mapError f).Throws B' := by
  intro g hg
  change t.outcome.mapError f = .error g at hg
  cases ht : t.outcome with
  | ok a =>
    rw [ht] at hg
    cases hg
  | error g' =>
    rw [ht] at hg
    cases hg
    exact hf g' (h g' ht)

theorem foldlM_snoc_ok {f : σ → ι → Traced ε σ} {i : ι} {s' s'' : σ} :
    ∀ {done : List ι} {s : σ}, (done.foldlM f s).outcome = .ok s' → (f s' i).outcome = .ok s'' →
      ((done ++ [i]).foldlM f s).outcome = .ok s''
  | [], s, h, hi => by
    cases h
    show (f _ i >>= pure).outcome = _
    rw [bind_ok hi]
    rfl
  | j :: done, s, h, hi => by
    rw [List.foldlM_cons] at h
    obtain ⟨mid, hmid, h⟩ := bind_outcome_ok h
    rw [List.cons_append, List.foldlM_cons, bind_ok hmid]
    exact foldlM_snoc_ok h hi

/-- Each step fails with such errors only, in the state that the steps before it left. -/
theorem throws_foldlM {f : σ → ι → Traced ε σ} {start : σ} {all : List ι}
    (h : ∀ done i rest s, all = done ++ i :: rest → (done.foldlM f start).outcome = .ok s → (f s i).Throws B) :
    (all.foldlM f start).Throws B := by
  have key : ∀ (rest done : List ι) (s : σ), all = done ++ rest → (done.foldlM f start).outcome = .ok s →
      (rest.foldlM f s).Throws B := by
    intro rest
    induction rest with
    | nil => exact fun _ _ _ _ => throws_pure
    | cons i rest ih =>
      intro done s hall hs
      rw [List.foldlM_cons]
      refine (h done i rest s hall hs).bind fun s' hs' => ?_
      exact ih (done ++ [i]) s' (by rw [hall, List.append_assoc]; rfl) (foldlM_snoc_ok hs hs')
  exact key all [] start rfl rfl

end Traced

namespace Engine

open Traced NodeStore

variable {e : Engine} {pass c id fuel level : Nat} {done rest : List Nat} {settled : List (Option (Grid Double))}

/-- A reduction of nothing. -/
def Emptiness (f : EvaluationFault) : Prop := f = .kernel Accumulator.emptyMessage

/-- It ends a run. -/
def EmptinessInChunk (f : Failure) : Prop := ∃ chunk, f = .chunkEvaluation chunk Accumulator.emptyMessage

theorem emptinessInChunk (chunk : Nat) {f : EvaluationFault} (h : Emptiness f) : EmptinessInChunk (inChunk chunk f) :=
  ⟨chunk, by rw [h]; rfl⟩

theorem finish_eq_error {a : Accumulator} {reason : String} (h : a.finish = .error reason) :
    reason = Accumulator.emptyMessage := by
  unfold Accumulator.finish at h
  split at h
  · cases h
  · exact (Except.error.inj h).symm

/-- What an engine has to be for a run to go wrong in one way only: its levels follow the graph, what carries
    state is a reduction or a scan of something, and the evaluation of a node whose parents have values
    can fail for emptiness only. -/
structure Sane (e : Engine) : Prop where
  ordered : e.Ordered
  reduces : ∀ id, e.plan.accumulates id = true → ∃ r, (e.plan.role id).kernel = some (.reduce r)
  scans : ∀ id axis, e.plan.streamed id = true → (e.plan.role id).carried = some axis →
    (∃ s, (e.plan.role id).kernel = some (.scan s)) ∧ ∃ p, e.store.parents id = [p]
  evaluates : ∀ id key gs, id < e.store.count → (∀ n, key = some n → n < e.plan.chunks.length) →
    (key = none ∨ e.plan.streamed id = true) → (key = none ∨ (e.plan.role id).carried = none) →
    e.inputs id key = some gs → (e.evaluate id gs key).Throws Emptiness

/-! ### Settling -/

theorem settle_throws (h : e.Sane) : ∀ (fuel : Nat) {id : Nat} {settled : List (Option (Grid Double))},
    e.Settles fuel id settled → (e.settle fuel id settled).Throws Emptiness
  | 0, id, settled, hs => by
    obtain ⟨level, hsettling⟩ := hs.settling h.ordered
    exact absurd hsettling.fuel (Nat.not_lt_zero id)
  | fuel + 1, id, settled, hs => by
    obtain ⟨level, hsettling⟩ := hs.settling h.ordered
    unfold settle
    split
    · exact throws_pure
    split
    · rename_i hnone ha
      exact absurd (hsettling.knows.ready id ha hsettling.level) hnone
    · rename_i hnone hplain
      rw [Bool.not_eq_true] at hnone hplain
      refine Throws.bind (throws_foldlM fun before p after s hp hbefore => ?_) fun settled' hsettled => ?_
      · exact settle_throws h fuel (.parent hs hnone hplain hp hbefore)
      obtain ⟨gs, hgs, hin⟩ := hsettling.inputs h.ordered hplain hsettled
      refine Throws.bind (throws_of_ok (show (ofExcept _).outcome = .ok gs from hgs)) fun gs' hgs' => ?_
      cases hgs.symm.trans hgs'
      exact (h.evaluates id none gs hsettling.lt (fun n hn => by cases hn) (.inl rfl) (.inl rfl) hin).bind
        fun g _ => throws_pure

/-! ### Steps -/

theorem stepValue_throws (h : e.Sane) (hid : id < e.store.count) (hs : e.plan.streamed id = true)
    (hc : c < e.plan.chunks.length) {gs : List (Grid Double)} (hgs : e.inputs id (some c) = some gs)
    (scans : List ScanState) : (e.stepValue c id gs scans).Throws Emptiness := by
  unfold stepValue
  split
  · rename_i axis sc hcarried _
    obtain ⟨-, p, hp⟩ := h.scans id axis hs hcarried
    have hlen := (mapM_eq_some.mp hgs).length_eq
    rw [hp] at hlen
    obtain ⟨g, rfl⟩ := List.length_eq_one_iff.mp hlen.symm
    exact throws_pure
  · rename_i axis hcarried hnot
    obtain ⟨⟨sc, hsc⟩, -⟩ := h.scans id axis hs hcarried
    exact absurd hsc (hnot sc)
  · rename_i hcarried
    exact (h.evaluates id (some c) gs hid (fun n hn => Option.some.inj hn ▸ hc) (.inr hs) (.inr hcarried) hgs).bind
      fun g _ => throws_pure

theorem stepNode_throws (h : e.Sane) {s : Ledger (Grid Double) × RunState}
    (hs : e.Reaches pass c done (id :: rest) s) : (e.stepNode c s id).Throws Emptiness := by
  have hmem : id ∈ (e.schedule pass).steps := hs.2.1 ▸ List.mem_append_right _ List.mem_cons_self
  obtain ⟨hid, hstreamed, -⟩ := step_facts h.ordered hmem
  unfold stepNode
  refine Throws.bind (throws_foldlM fun before p after settled hp hbefore => ?_) fun settled hsettled => ?_
  · exact settle_throws h _ (.step hs hp hbefore)
  obtain ⟨gs, hgs, hin⟩ := hs.inputs h.ordered hsettled
  refine Throws.bind (throws_of_ok (show (ofExcept _).outcome = .ok gs from hgs)) fun gs' hgs' => ?_
  cases hgs.symm.trans hgs'
  exact (stepValue_throws h hid hstreamed hs.1 hin _).bind fun _ _ => throws_pure

theorem stepChunk_throws (h : e.Sane) {s : RunState × List (Nat × Accumulator)} (hs : e.Begins pass c s)
    (hc : c < e.plan.chunks.length) : (e.stepChunk c (e.schedule pass) s.1).Throws Emptiness := by
  refine throws_foldlM fun done id rest s' hall hs' => ?_
  exact stepNode_throws h ⟨hc, hall, s, hs, hs'⟩

/-! ### Passes -/

/-- All steps of a pass are done for a chunk. -/
theorem Begins.stepped (ho : e.Ordered) {s : RunState × List (Nat × Accumulator)} (hs : e.Begins pass c s)
    (hc : c < e.plan.chunks.length) {s' : Ledger (Grid Double) × RunState}
    (h : (e.stepChunk c (e.schedule pass) s.1).outcome = .ok s') :
    e.Stepped pass c (e.schedule pass).steps [] s' :=
  Reaches.stepped ho ⟨hc, (List.append_nil _).symm, s, hs, h⟩

theorem runChunkOfPass_throws (h : e.Sane) {s : RunState × List (Nat × Accumulator)} (hs : e.Begins pass c s)
    (hc : c < e.plan.chunks.length) : (e.runChunkOfPass (e.schedule pass) s c).Throws EmptinessInChunk := by
  have ho := h.ordered
  unfold runChunkOfPass
  refine Throws.bind ((stepChunk_throws h hs hc).mapError fun _ => emptinessInChunk c) fun ⟨l, state⟩ hstep => ?_
  replace hstep := mapError_eq_ok.mp hstep
  have hst := hs.stepped ho hc hstep
  obtain ⟨hp, -⟩ := hs.passing ho
  have hserves := hst.ledger
  unfold readings at hserves
  rw [List.nil_append, ← hp.sinks] at hserves
  obtain ⟨l', as', hfeed, hl', -, -⟩ := feed_eq_ok ho hst.valued s.2 []
    (fun a ha => ⟨hp.sinks ▸ List.mem_map_of_mem ha, hp.fed a ha⟩) hserves
  have hfeed' : (e.feed l s.2).mapError (inChunk c) = .ok (l', as') := mapError_eq_ok.mpr hfeed
  refine Throws.bind (throws_of_ok (show (ofExcept _).outcome = _ from hfeed')) fun r hr => ?_
  cases hfeed'.symm.trans hr
  dsimp only
  split
  · rename_i he
    replace he : e.emitsRoot pass = true := he
    obtain ⟨g, hg⟩ := Option.isSome_iff_exists.mp (hst.valued _ (root_step ho.root he))
    rw [if_pos he] at hl'
    refine Throws.bind (throws_of_ok (show (ofExcept _).outcome = _ from output_eq_ok ho he hl' hg)) fun _ _ => ?_
    exact Throws.bind (throws_of_ok rfl) fun _ _ => throws_pure
  · exact throws_pure

theorem finish_throws {settled : List (Option (Grid Double))} {a : Nat × Accumulator} {f : Failure}
    (h : e.finish settled a = .error f) : EmptinessInChunk f := by
  unfold finish at h
  split at h
  · cases h
  · rename_i reason hreason
    cases h
    rw [finish_eq_error hreason]
    exact ⟨_, rfl⟩

theorem foldlM_finish_throws : ∀ {as : List (Nat × Accumulator)} {settled : List (Option (Grid Double))} {f : Failure},
    as.foldlM e.finish settled = .error f → EmptinessInChunk f
  | [], _, _, h => by cases h
  | a :: as, settled, f, h => by
    rw [List.foldlM_cons] at h
    cases ha : e.finish settled a with
    | error f' =>
      rw [ha] at h
      cases h
      exact finish_throws ha
    | ok settled' =>
      rw [ha] at h
      exact foldlM_finish_throws h

theorem accumulators_ok (h : e.Sane) (pass : Nat) : ∃ as, (e.sinks pass).mapM e.accumulator = .ok as := by
  cases has : (e.sinks pass).mapM e.accumulator with
  | ok as => exact ⟨as, rfl⟩
  | error f =>
    obtain ⟨id, hid, hf⟩ := mapM_eq_error has
    obtain ⟨r, hr⟩ := h.reduces id (mem_sinks.mp hid).2.1
    unfold accumulator at hf
    rw [hr] at hf
    cases hf

theorem prefix_range {n i : Nat} {done rest : List Nat} (h : List.range n = done ++ i :: rest) : done = List.range i := by
  obtain ⟨rfl, hlt⟩ := eq_length_of_range h
  have htake := congrArg (List.take done.length) h
  rwa [List.take_left, List.take_range, Nat.min_eq_left (Nat.le_of_lt hlt), eq_comm] at htake

theorem runPass_throws (h : e.Sane) {state : RunState} (hs : e.Enters pass state) (hpass : pass < e.plan.passes) :
    (e.runPass state pass).Throws EmptinessInChunk := by
  obtain ⟨as, has⟩ := accumulators_ok h pass
  have has' : ((e.schedule pass).sinks.mapM e.accumulator).mapError (inChunk 0) = .ok as := mapError_eq_ok.mpr has
  unfold runPass
  refine Throws.bind (throws_of_ok (show (ofExcept _).outcome = _ from has')) fun as' h' => ?_
  cases has'.symm.trans h'
  refine Throws.bind (throws_foldlM fun done c rest s hall hdone => ?_) fun s _ => ?_
  · obtain ⟨-, hlt⟩ := eq_length_of_range hall
    rw [prefix_range hall] at hdone
    exact runChunkOfPass_throws h ⟨hpass, Nat.le_of_lt hlt, state, as, hs, has, hdone⟩ hlt
  · exact Throws.bind (throws_ofExcept fun f => foldlM_finish_throws) fun _ _ => throws_pure

theorem emitSettled_throws (h : e.Sane) {state : RunState} (hs : e.Enters e.plan.passes state)
    (hwhole : e.plan.rootStreamed = false) : (e.emitSettled state).Throws EmptinessInChunk := by
  have hsettles : e.Settles (e.store.count + 1) e.plan.root state.settled := .output hwhole hs
  unfold emitSettled
  refine Throws.bind ((settle_throws h _ hsettles).mapError fun _ => emptinessInChunk 0) fun settled hsettled => ?_
  obtain ⟨level, hsettling⟩ := hsettles.settling h.ordered
  obtain ⟨-, -, hsome⟩ := (settle_meets h.ordered _ _ hsettling.knows hsettling.fuel hsettling.lt hsettling.level).ok
    (mapError_eq_ok.mp hsettled)
  obtain ⟨g, hg⟩ := Option.isSome_iff_exists.mp hsome
  rw [hg]
  exact throws_of_ok rfl

/-- A run of a sane engine fails for emptiness only. -/
theorem run_throws (h : e.Sane) : e.run.Throws EmptinessInChunk := by
  unfold run
  refine Throws.bind (throws_foldlM fun done pass rest state hall hdone => ?_) fun state hstate => ?_
  · obtain ⟨-, hlt⟩ := eq_length_of_range hall
    rw [prefix_range hall] at hdone
    exact runPass_throws h ⟨Nat.le_of_lt hlt, hdone⟩ hlt
  · split
    · exact throws_pure
    · rename_i hwhole
      rw [Bool.not_eq_true] at hwhole
      exact (emitSettled_throws h ⟨Nat.le_refl _, hstate⟩ hwhole).bind fun _ _ => throws_pure

end Engine
end Concord
