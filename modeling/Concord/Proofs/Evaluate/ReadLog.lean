import Concord.Proofs.Evaluate.AllInputs
import Concord.Proofs.Evaluate.Coverage
import Concord.Proofs.Evaluate.Emission
import Concord.Proofs.Evaluate.WorkingSet

/-! The log of what a run reads of an input. An input that is streamed is read chunk by chunk, once in each pass that it
    bears on; what does not depend on the chunk is read when it is settled, and it is settled once. -/

namespace Concord

namespace Traced

variable {ε ε' α β σ ι : Type} {name : String}

/-- The parts of an input that are read, in order. -/
def parts (t : Traced ε α) (name : String) : List Bounds :=
  t.reads.filterMap fun r => if r.1 = name then r.2 else none

/-- How often an input is read as a whole. -/
def wholes (t : Traced ε α) (name : String) : Nat := t.reads.count (name, none)

section
variable {t : Traced ε α} {f : α → Traced ε β}

theorem parts_bind_ok {a : α} (h : t.outcome = .ok a) (name : String) :
    (t >>= f).parts name = t.parts name ++ (f a).parts name := by
  unfold parts
  rw [reads_bind_ok h, List.filterMap_append]

theorem wholes_bind_ok {a : α} (h : t.outcome = .ok a) (name : String) :
    (t >>= f).wholes name = t.wholes name + (f a).wholes name := by
  unfold wholes
  rw [reads_bind_ok h, List.count_append]

/-- What is not read has no parts that are. -/
theorem parts_of_unread (h : t.Reads fun r => r.1 ≠ name) : t.parts name = [] :=
  List.filterMap_eq_nil_iff.mpr fun r hr => if_neg (h r hr)

theorem wholes_of_unread (h : t.Reads fun r => r.1 ≠ name) : t.wholes name = 0 :=
  List.count_eq_zero.mpr fun hmem => h _ hmem rfl

theorem parts_of_whole (h : t.Reads fun r => r.2 = none) : t.parts name = [] :=
  List.filterMap_eq_nil_iff.mpr fun r hr => by rw [h r hr, ite_self]

end

/-- What each step reads of an input comes together. -/
theorem parts_foldlM (name : String) {f : σ → ι → Traced ε σ} {g : ι → List Bounds} {s' : σ} : ∀ {l : List ι} {s : σ},
    (∀ i ∈ l, ∀ s s', (f s i).outcome = .ok s' → (f s i).parts name = g i) →
      (l.foldlM f s).outcome = .ok s' → (l.foldlM f s).parts name = l.flatMap g
  | [], _, _, _ => rfl
  | i :: l, s, hstep, h => by
    rw [List.foldlM_cons] at h ⊢
    obtain ⟨mid, hmid, h⟩ := bind_outcome_ok h
    rw [parts_bind_ok hmid, List.flatMap_cons, hstep i List.mem_cons_self s mid hmid,
      parts_foldlM name (fun j hj => hstep j (List.mem_cons_of_mem _ hj)) h]

/-- What each step reads of an input as a whole adds up. -/
theorem wholes_foldlM (name : String) {f : σ → ι → Traced ε σ} {m : σ → Nat} {P : σ → Prop} {s' : σ} :
    ∀ {l : List ι} {s : σ},
    (∀ i ∈ l, ∀ s s', P s → (f s i).outcome = .ok s' → P s' ∧ (f s i).wholes name + m s = m s') → P s →
      (l.foldlM f s).outcome = .ok s' → P s' ∧ (l.foldlM f s).wholes name + m s = m s'
  | [], s, _, hs, h => by
    cases h
    exact ⟨hs, Nat.zero_add _⟩
  | i :: l, s, hstep, hs, h => by
    rw [List.foldlM_cons] at h ⊢
    obtain ⟨mid, hmid, h⟩ := bind_outcome_ok h
    obtain ⟨hs', hfirst⟩ := hstep i List.mem_cons_self s mid hs hmid
    obtain ⟨hs'', hrest⟩ := wholes_foldlM name (fun j hj => hstep j (List.mem_cons_of_mem _ hj)) hs' h
    refine ⟨hs'', ?_⟩
    rw [wholes_bind_ok hmid]
    omega

end Traced

namespace Engine

open Traced NodeStore

variable {e : Engine} {id i pass c : Nat} {name : String}

/-! ### What an input bears on -/

/-- A streamed node bears on a pass: on one of its reductions or on the output that it gives out, through streamed
    nodes. -/
inductive Bears (e : Engine) (pass : Nat) : Nat → Prop
  | sink {i p : Nat} (hi : i ∈ e.sinks pass) (hp : p ∈ e.store.parents i) (hs : e.plan.streamed p = true) :
      Bears e pass p
  | output (he : e.emitsRoot pass = true) : Bears e pass e.plan.root
  | parent {i p : Nat} (hi : Bears e pass i) (hp : p ∈ e.store.parents i) (hs : e.plan.streamed p = true) :
      Bears e pass p

/-- These are the steps of the pass. -/
theorem mem_steps_iff_bears (hb : e.store.ParentsBelow) (hroot : e.plan.root < e.store.count) :
    id ∈ (e.schedule pass).steps ↔ e.Bears pass id := by
  constructor
  · intro h
    refine reachedThrough_induction (P := fun i => e.plan.streamed i = true → e.Bears pass i)
      (fun i hi hsi p hp hsp => .parent (hi hsi) hp hsp) (fun i hi hsi => ?_) id (mem_steps_iff.mp h) (streamed_of_step h)
    rcases List.mem_append.mp hi with hi | hi
    · obtain ⟨sink, hsink, hp⟩ := List.mem_flatMap.mp hi
      exact .sink hsink hp hsi
    · split at hi
      · rename_i he
        exact List.mem_singleton.mp hi ▸ .output he
      · cases hi
  · intro h
    induction h with
    | sink hi hp hs => exact sink_parent_step hb hi hp hs
    | output he => exact root_step hroot he
    | parent _ hp hs ih => exact parent_mem_reachedThrough hb ih hp hs

/-! ### One node -/

/-- An input of a graph: one node reads it, in parts within some bounds if it is streamed. -/
structure Input (e : Engine) (id : Nat) (name : String) (bounds : Nat → Bounds) : Prop where
  kind : e.store.kind? id = some (.operand name)
  leaf : e.store.parents id = []
  unique : ∀ i, e.store.kind? i = some (.operand name) → i = id
  carried : (e.plan.role id).carried = none
  bounds : e.plan.streamed id = true → ∀ a c, e.layout id = .ok a →
    e.boundsFor id name a.dims (some c) = .ok (some (bounds c))

variable {bounds : Nat → Bounds}

/-- Other nodes do not read it. -/
theorem Input.unread (h : e.Input id name bounds) (hne : i ≠ id) (inputs : List (Grid Double)) (key : Option Nat) :
    (e.evaluate i inputs key).Reads fun r => r.1 ≠ name := by
  unfold evaluate
  split
  · exact reads_pure
  · rename_i name' hk
    exact readInput_reads fun _ _ _ _ heq => hne (h.unique i (heq ▸ hk))
  · exact reads_ofExcept
  · exact reads_ofExcept
  · exact reads_ofExcept
  · exact reads_fail

/-- Its node reads it once. -/
theorem Input.read (h : e.Input id name bounds) {inputs : List (Grid Double)} {key : Option Nat} {g : Grid Double}
    (hg : (e.evaluate id inputs key).outcome = .ok g) :
    ∃ a b, e.layout id = .ok a ∧ e.boundsFor id name a.dims key = .ok b ∧
      (e.evaluate id inputs key).reads = [(name, b)] := by
  unfold evaluate at hg ⊢
  rw [h.kind] at hg ⊢
  obtain ⟨a, ha, hg⟩ := bind_outcome_ok hg
  obtain ⟨b, hb, hg⟩ := bind_outcome_ok hg
  obtain ⟨value, hvalue, hg⟩ := bind_outcome_ok hg
  refine ⟨a, b, ha, hb, ?_⟩
  show (e.readInput id name key).reads = _
  unfold readInput
  rw [reads_bind_ok ha, reads_bind_ok hb, reads_bind_ok hvalue]
  split <;> rfl

theorem evaluate_whole (e : Engine) (i : Nat) (inputs : List (Grid Double)) :
    (e.evaluate i inputs none).Reads fun r => r.2 = none := by
  unfold evaluate
  split
  · exact reads_pure
  · exact readInput_reads fun _ _ _ hb => (Except.ok.inj hb).symm
  · exact reads_ofExcept
  · exact reads_ofExcept
  · exact reads_ofExcept
  · exact reads_fail

/-! ### Parts -/

/-- What is settled is read as a whole. -/
theorem settle_whole (e : Engine) : ∀ (fuel i : Nat) (settled : List (Option (Grid Double))),
    (e.settle fuel i settled).Reads fun r => r.2 = none
  | 0, _, _ => reads_fail
  | fuel + 1, i, settled => by
    unfold settle
    split
    · exact reads_pure
    split
    · exact reads_fail
    · exact (reads_foldlM fun p _ s => settle_whole e fuel p s).bind fun _ _ =>
        reads_ofExcept.bind fun inputs _ => (evaluate_whole e i inputs).bind fun _ _ => reads_pure

theorem settleAll_whole (e : Engine) (ids : List Nat) (settled : List (Option (Grid Double))) :
    (e.settleAll ids settled).Reads fun r => r.2 = none := reads_foldlM fun p _ s => settle_whole e _ p s

/-- A step reads a part of the input if it is that of its node, and nothing of it else. -/
theorem stepValue_log (h : e.Input id name bounds) (hs : e.plan.streamed i = true) {inputs : List (Grid Double)}
    {scans : List ScanState} {r : Grid Double × List ScanState} (hr : (e.stepValue c i inputs scans).outcome = .ok r) :
    (e.stepValue c i inputs scans).parts name = (if i = id then [bounds c] else []) ∧
      (e.stepValue c i inputs scans).wholes name = 0 := by
  by_cases hi : i = id
  · subst hi
    unfold stepValue at hr ⊢
    rw [h.carried] at hr ⊢
    dsimp only at hr ⊢
    obtain ⟨g, hg, hr⟩ := bind_outcome_ok hr
    obtain ⟨a, b, ha, hb, hread⟩ := h.read hg
    cases (h.bounds hs a c ha).symm.trans hb
    rw [parts_bind_ok hg, wholes_bind_ok hg, if_pos rfl]
    unfold parts wholes
    rw [hread]
    simp [reads, Pure.pure]
  · rw [if_neg hi]
    have hunread : (e.stepValue c i inputs scans).Reads fun r => r.1 ≠ name := by
      unfold stepValue
      split
      · exact reads_ofExcept.bind fun _ _ => reads_pure
      · exact reads_fail
      · exact (h.unread hi inputs _).bind fun _ _ => reads_pure
    exact ⟨parts_of_unread hunread, wholes_of_unread hunread⟩

theorem stepNode_parts (h : e.Input id name bounds) (hs : e.plan.streamed i = true)
    {s s' : Ledger (Grid Double) × RunState} (hs' : (e.stepNode c s i).outcome = .ok s') :
    (e.stepNode c s i).parts name = if i = id then [bounds c] else [] := by
  unfold stepNode at hs' ⊢
  obtain ⟨settled, hsettled, hs'⟩ := bind_outcome_ok hs'
  obtain ⟨inputs, hinputs, hs'⟩ := bind_outcome_ok hs'
  obtain ⟨value, hvalue, hs'⟩ := bind_outcome_ok hs'
  rw [parts_bind_ok hsettled, parts_bind_ok hinputs, parts_bind_ok hvalue, parts_of_whole (settleAll_whole e _ _),
    (stepValue_log h hs hvalue).1]
  exact List.append_nil _

/-- One of some steps, if they are all different. -/
theorem flatMap_ite {α : Type} {l : List Nat} (hl : l.Nodup) (x : α) :
    (l.flatMap fun i => if i = id then [x] else []) = if id ∈ l then [x] else [] := by
  induction hl with
  | nil => rfl
  | @cons i l hi _ ih =>
    rw [List.flatMap_cons, ih]
    by_cases heq : i = id
    · subst heq
      have hnot : i ∉ l := fun hmem => hi i hmem rfl
      simp [hnot]
    · simp [heq, Ne.symm heq]

/-- A chunk reads what its steps read. -/
theorem runChunkOfPass_log {s s' : RunState × List (Nat × Accumulator)}
    (hok : (e.runChunkOfPass (e.schedule pass) s c).outcome = .ok s') :
    (e.runChunkOfPass (e.schedule pass) s c).reads = (e.stepChunk c (e.schedule pass) s.1).reads := by
  obtain ⟨ledger, ledger', hsteps, hfeed, houtput⟩ := runChunkOfPass_eq_ok hok
  have hsteps' : ((e.stepChunk c (e.schedule pass) s.1).mapError (inChunk c)).outcome = .ok (ledger, s'.1) :=
    mapError_eq_ok.mpr hsteps
  have hfeed' : (Traced.ofExcept ((e.feed ledger s.2).mapError (inChunk c))).outcome = .ok (ledger', s'.2) :=
    mapError_eq_ok.mpr hfeed
  unfold runChunkOfPass
  rw [reads_bind_ok hsteps', reads_bind_ok hfeed']
  dsimp only
  split
  · rename_i he
    obtain ⟨g, hg⟩ := houtput he
    rw [reads_bind_ok (show (Traced.ofExcept (e.output c ledger')).outcome = .ok g from hg)]
    exact List.append_nil _
  · exact List.append_nil _

/-- A chunk of a pass reads its part of an input that bears on the pass. -/
theorem runChunkOfPass_parts (h : e.Input id name bounds) {s s' : RunState × List (Nat × Accumulator)}
    (hok : (e.runChunkOfPass (e.schedule pass) s c).outcome = .ok s') :
    (e.runChunkOfPass (e.schedule pass) s c).parts name = if id ∈ (e.schedule pass).steps then [bounds c] else [] := by
  obtain ⟨ledger, ledger', hsteps, -⟩ := runChunkOfPass_eq_ok hok
  have hall : (e.stepChunk c (e.schedule pass) s.1).parts name = _ :=
    parts_foldlM name (fun i hi _ _ => stepNode_parts h (streamed_of_step hi)) hsteps
  unfold parts at hall ⊢
  rw [runChunkOfPass_log hok, hall]
  exact flatMap_ite nodup_steps _

/-- All chunks of a pass do. -/
theorem chunks_parts (h : e.Input id name bounds) {n : Nat} {s s' : RunState × List (Nat × Accumulator)}
    (hs' : ((List.range n).foldlM (e.runChunkOfPass (e.schedule pass)) s).outcome = .ok s') :
    ((List.range n).foldlM (e.runChunkOfPass (e.schedule pass)) s).parts name =
      if id ∈ (e.schedule pass).steps then (List.range n).map bounds else [] := by
  have hall := parts_foldlM name (g := fun c => if id ∈ (e.schedule pass).steps then [bounds c] else [])
    (fun c _ s s' hs' => runChunkOfPass_parts h hs') hs'
  rw [hall]
  split
  · exact List.map_eq_flatMap.symm
  · exact List.flatMap_eq_nil_iff.mpr fun _ _ => rfl

/-- A pass reads what its chunks read. -/
theorem runPass_log {state state' : RunState} (hok : (e.runPass state pass).outcome = .ok state') :
    ∃ as last, (e.sinks pass).mapM e.accumulator = .ok as ∧
      let chunks := (List.range e.plan.chunks.length).foldlM (e.runChunkOfPass (e.schedule pass))
        (⟨state.settled, e.resetScans (e.schedule pass).steps state.scans⟩, as)
      chunks.outcome = .ok last ∧ last.2.foldlM e.finish last.1.settled = .ok state'.settled ∧
        (e.runPass state pass).reads = chunks.reads := by
  unfold runPass at hok ⊢
  obtain ⟨as, has, hok⟩ := bind_outcome_ok hok
  obtain ⟨last, hlast, hok⟩ := bind_outcome_ok hok
  obtain ⟨settled, hsettled, hok⟩ := bind_outcome_ok hok
  cases hok
  refine ⟨as, last, mapError_eq_ok.mp has, hlast, hsettled, ?_⟩
  rw [reads_bind_ok has, reads_bind_ok hlast, reads_bind_ok hsettled]
  exact List.append_nil _

/-- A pass reads all parts of an input that bears on it, in order, and none of others. -/
theorem runPass_parts (h : e.Input id name bounds) {state state' : RunState}
    (hok : (e.runPass state pass).outcome = .ok state') :
    (e.runPass state pass).parts name =
      if id ∈ (e.schedule pass).steps then (List.range e.plan.chunks.length).map bounds else [] := by
  obtain ⟨as, last, -, hlast, -, hreads⟩ := runPass_log hok
  rw [← chunks_parts h hlast]
  unfold parts
  rw [hreads]

/-! ### The whole -/

/-- One if a node is settled, else nothing. -/
def known (id : Nat) (settled : List (Option (Grid Double))) : Nat := (settled.getD id none).isSome.toNat

theorem known_set_ne {settled : List (Option (Grid Double))} (h : i ≠ id) (g : Option (Grid Double)) :
    known id (settled.set i g) = known id settled := by
  unfold known
  rw [List.getD_eq_getElem?_getD, List.getD_eq_getElem?_getD, List.getElem?_set_ne h]

theorem known_set_self {settled : List (Option (Grid Double))} (h : id < settled.length) (g : Grid Double) :
    known id (settled.set id (some g)) = 1 := by
  unfold known
  rw [List.getD_eq_getElem?_getD, List.getElem?_set_self h]
  rfl

/-- Settling a node reads the input as a whole if it settles the input. -/
theorem settle_wholes (h : e.Input id name bounds) : ∀ (fuel i : Nat) {settled settled' : List (Option (Grid Double))},
    settled.length = e.store.count → (e.settle fuel i settled).outcome = .ok settled' →
      settled'.length = e.store.count ∧ (e.settle fuel i settled).wholes name + known id settled = known id settled'
  | 0, _, _, _, _, hok => by cases hok
  | fuel + 1, i, settled, settled', hlength, hok => by
    unfold settle at hok ⊢
    split at hok
    · rename_i hsome
      cases hok
      rw [if_pos hsome]
      exact ⟨hlength, Nat.zero_add _⟩
    rename_i hnone
    rw [if_neg hnone]
    split at hok
    · cases hok
    rename_i ha
    rw [if_neg ha]
    obtain ⟨mid, hmid, hok⟩ := bind_outcome_ok hok
    obtain ⟨inputs, hinputs, hok⟩ := bind_outcome_ok hok
    obtain ⟨g, hg, hok⟩ := bind_outcome_ok hok
    cases hok
    have hparents := wholes_foldlM name (m := known id) (P := fun s => s.length = e.store.count)
      (fun p _ s s' hs hs' => settle_wholes h fuel p hs hs') hlength hmid
    rw [wholes_bind_ok hmid, wholes_bind_ok hinputs, wholes_bind_ok hg]
    refine ⟨(List.length_set ..).trans hparents.1, ?_⟩
    show _ + (0 + ((e.evaluate i inputs none).wholes name + 0)) + _ = _
    by_cases hi : i = id
    · subst hi
      rw [h.leaf] at hmid hparents ⊢
      cases hmid
      obtain ⟨a, b, -, hb, hread⟩ := h.read hg
      cases hb
      have hzero : known i settled = 0 := by
        unfold known
        rw [Bool.eq_false_iff.mpr hnone]
        rfl
      have hone : (e.evaluate i inputs none).wholes name = 1 := by
        unfold wholes
        rw [hread]
        exact List.count_singleton_self
      rw [known_set_self (hlength.symm ▸ lt_of_kind h.kind), hzero, hone]
      rfl
    · rw [known_set_ne hi, wholes_of_unread (h.unread hi inputs none)]
      exact hparents.2

theorem settleAll_wholes (h : e.Input id name bounds) {ids : List Nat} {settled settled' : List (Option (Grid Double))}
    (hlength : settled.length = e.store.count) (hok : (e.settleAll ids settled).outcome = .ok settled') :
    settled'.length = e.store.count ∧ (e.settleAll ids settled).wholes name + known id settled = known id settled' := by
  unfold settleAll at hok ⊢
  exact wholes_foldlM name (f := fun s i => e.settle (e.store.count + 1) i s) (m := known id)
    (P := fun s => s.length = e.store.count) (fun i _ _ _ hs hs' => settle_wholes h _ i hs hs') hlength hok

/-- The steps of a chunk read the input as a whole if they settle it. -/
theorem stepChunk_wholes (h : e.Input id name bounds) {state : RunState} {s' : Ledger (Grid Double) × RunState}
    (hlength : state.settled.length = e.store.count)
    (hok : (e.stepChunk c (e.schedule pass) state).outcome = .ok s') :
    s'.2.settled.length = e.store.count ∧
      (e.stepChunk c (e.schedule pass) state).wholes name + known id state.settled = known id s'.2.settled := by
  refine wholes_foldlM name (m := fun s : Ledger (Grid Double) × RunState => known id s.2.settled)
    (P := fun s => s.2.settled.length = e.store.count) (fun i hi s s' hs hs' => ?_) hlength hok
  unfold stepNode at hs' ⊢
  obtain ⟨settled, hsettled, hs'⟩ := bind_outcome_ok hs'
  obtain ⟨inputs, hinputs, hs'⟩ := bind_outcome_ok hs'
  obtain ⟨value, hvalue, hs'⟩ := bind_outcome_ok hs'
  cases hs'
  obtain ⟨hlength', hcount⟩ := settleAll_wholes h hs hsettled
  refine ⟨hlength', ?_⟩
  rw [wholes_bind_ok hsettled, wholes_bind_ok hinputs, wholes_bind_ok hvalue,
    (stepValue_log h (streamed_of_step hi) hvalue).2]
  exact hcount

theorem runChunkOfPass_wholes (h : e.Input id name bounds) {s s' : RunState × List (Nat × Accumulator)}
    (hlength : s.1.settled.length = e.store.count)
    (hok : (e.runChunkOfPass (e.schedule pass) s c).outcome = .ok s') :
    s'.1.settled.length = e.store.count ∧
      (e.runChunkOfPass (e.schedule pass) s c).wholes name + known id s.1.settled = known id s'.1.settled := by
  obtain ⟨ledger, ledger', hsteps, -⟩ := runChunkOfPass_eq_ok hok
  have hwholes : (e.runChunkOfPass (e.schedule pass) s c).wholes name =
      (e.stepChunk c (e.schedule pass) s.1).wholes name := congrArg _ (runChunkOfPass_log hok)
  rw [hwholes]
  exact stepChunk_wholes h hlength hsteps

theorem foldlM_finish_known {as : List (Nat × Accumulator)} (has : ∀ a ∈ as, a.1 ≠ id)
    {settled settled' : List (Option (Grid Double))} (h : as.foldlM e.finish settled = .ok settled') :
    settled'.length = settled.length ∧ known id settled' = known id settled := by
  refine foldlM_induction (P := fun _ s => s.length = settled.length ∧ known id s = known id settled) as ?_
    (List.nil_append _).symm ⟨rfl, rfl⟩ h
  rintro done a rest s s' hall ⟨hlength, hknown⟩ hs'
  unfold finish at hs'
  split at hs'
  · cases hs'
    have hne := has a (hall ▸ List.mem_append_right _ List.mem_cons_self)
    exact ⟨(List.length_set ..).trans hlength, (known_set_ne hne _).trans hknown⟩
  · cases hs'

/-- A pass reads the input as a whole if it settles it. -/
theorem runPass_wholes (h : e.Input id name bounds) {state state' : RunState}
    (hlength : state.settled.length = e.store.count) (hok : (e.runPass state pass).outcome = .ok state') :
    state'.settled.length = e.store.count ∧
      (e.runPass state pass).wholes name + known id state.settled = known id state'.settled := by
  obtain ⟨as, last, has, hlast, hsettled, hreads⟩ := runPass_log hok
  obtain ⟨hlength', hcount⟩ := wholes_foldlM name
    (m := fun s : RunState × List (Nat × Accumulator) => known id s.1.settled)
    (P := fun s => s.1.settled.length = e.store.count)
    (fun c _ s s' hs hs' => runChunkOfPass_wholes h hs hs') hlength hlast
  have hids : ∀ a ∈ last.2, a.1 ≠ id := by
    rintro a ha rfl
    have hmem : a.1 ∈ e.sinks pass := by
      rw [← mapM_accumulator_ids has, ← chunks_ids hlast]
      exact List.mem_map_of_mem ha
    have hcarried := (mem_sinks.mp hmem).2.1
    unfold Plan.accumulates at hcarried
    rw [h.carried] at hcarried
    cases hcarried
  obtain ⟨hsame, hknown⟩ := foldlM_finish_known hids hsettled
  refine ⟨hsame.trans hlength', ?_⟩
  unfold wholes at hcount ⊢
  rw [hreads, hknown, ← hcount]

/-! ### Runs -/

theorem known_le_one (id : Nat) (settled : List (Option (Grid Double))) : known id settled ≤ 1 := Bool.toNat_le _

/-- What a run reads when it gives out an output that does not depend on the chunk: no parts, and the input as a whole
    if it settles it. -/
theorem emitSettled_log (h : e.Input id name bounds) {state : RunState} (hlength : state.settled.length = e.store.count)
    (hok : (e.emitSettled state).outcome = .ok ()) :
    (e.emitSettled state).parts name = [] ∧ (e.emitSettled state).wholes name + known id state.settled ≤ 1 := by
  unfold emitSettled at hok ⊢
  obtain ⟨settled, hsettled, hok⟩ := bind_outcome_ok hok
  obtain ⟨-, hcount⟩ := settle_wholes h _ _ hlength (mapError_eq_ok.mp hsettled)
  have hwhole : ((e.settle (e.store.count + 1) e.plan.root state.settled).mapError (inChunk 0)).parts name = [] :=
    parts_of_whole (settle_whole e _ _ _).mapError
  rw [parts_bind_ok hsettled, wholes_bind_ok hsettled, hwhole]
  cases hg : settled.getD e.plan.root none with
  | none =>
    rw [hg] at hok
    cases hok
  | some g => exact ⟨rfl, hcount.symm ▸ known_le_one id settled⟩

/-- A run that succeeds reads the parts of an input pass by pass, and the whole once at most. -/
theorem run_log (h : e.Input id name bounds) {n : Nat} (hok : e.run.outcome = .ok n) :
    e.run.parts name = ((List.range e.plan.passes).flatMap fun pass =>
      if id ∈ (e.schedule pass).steps then (List.range e.plan.chunks.length).map bounds else []) ∧
      e.run.wholes name ≤ 1 := by
  unfold run at hok ⊢
  obtain ⟨state, hstate, hok⟩ := bind_outcome_ok hok
  have hparts := parts_foldlM name (g := fun pass => if id ∈ (e.schedule pass).steps then
    (List.range e.plan.chunks.length).map bounds else []) (fun pass _ s s' hs' => runPass_parts h hs') hstate
  obtain ⟨hlength, hcount⟩ := wholes_foldlM name (f := e.runPass) (m := fun s => known id s.settled)
    (P := fun s => s.settled.length = e.store.count) (fun pass _ s s' hs hs' => runPass_wholes h hs hs')
    List.length_replicate hstate
  rw [parts_bind_ok hstate, wholes_bind_ok hstate, hparts]
  split at hok
  · rename_i hs
    rw [if_pos hs]
    refine ⟨List.append_nil _, ?_⟩
    have hle := known_le_one id state.settled
    show _ + 0 ≤ 1
    omega
  · rename_i hs
    rw [if_neg hs]
    obtain ⟨⟨⟩, hemitted, hok⟩ := bind_outcome_ok hok
    obtain ⟨hnone, hle⟩ := emitSettled_log h hlength hemitted
    rw [parts_bind_ok hemitted, wholes_bind_ok hemitted, hnone]
    refine ⟨List.append_nil _, ?_⟩
    show _ + (_ + 0) ≤ 1
    omega

/-! ### Resolved variables -/

section
variable {context : Resolution.Context} {Fit : String → CallOptions → Prop} {v : ResolvedVariable} {plan : Plan}
  {config : Config} {source : Source} {converter : Measure.Converter}

/-- A streamed input has the dimension that is cut, by the name of an axis that it has at the source. -/
structure Native (context : Resolution.Context) (plan : Plan) (name native : String) : Prop where
  axis : ∃ m x axis a, context.source.describe name = some m ∧ plan.dimension = some x ∧
    (Signature.renamed m.dims context.dimensionMap).position x = some axis ∧ m.dims[axis]? = some a ∧ a.name = native

/-- The parts in which it is to be read. -/
def chunkBounds (plan : Plan) (native : String) (c : Nat) : Bounds :=
  ⟨native, (plan.chunks.getD c (0, 0)).1, (plan.chunks.getD c (0, 0)).2⟩

theorem map_chunkBounds (plan : Plan) (native : String) :
    (List.range plan.chunks.length).map (chunkBounds plan native) =
      plan.chunks.map fun chunk => ⟨native, chunk.1, chunk.2⟩ := by
  refine List.ext_getElem (by simp) fun c hc hc' => ?_
  rw [List.length_map] at hc'
  simp [chunkBounds, List.getD_eq_getElem?_getD, List.getElem?_eq_getElem hc']

section
variable (hv : Resolution.Resolved context Fit v) (hplanned : Plan.Planned context.functions v plan)
  (hk : v.store.kind? id = some (.operand name))
include hv hplanned hk

variable (source converter) in
theorem exists_native (hs : plan.streamed id = true) :
    ∃ native, Native context plan name native ∧ ∀ a c, (Engine.ofVariable v plan source converter).layout id = .ok a →
      (Engine.ofVariable v plan source converter).boundsFor id name a.dims (some c) =
        .ok (some (chunkBounds plan native c)) := by
  obtain ⟨m, hm, hnative⟩ := hv.native id name hk
  obtain ⟨-, m', hm', hdims⟩ := hv.typed.operand hk
  cases hm.symm.trans hm'
  obtain ⟨x, hx, hmem⟩ := hplanned.streamed_iff.mp hs
  rw [hdims] at hmem
  have hpos := Signature.position_of_mem hmem
  obtain ⟨a, ha, -⟩ := Signature.position_renamed hpos
  refine ⟨a.name, ⟨m, x, _, a, hm, hx, hpos, ha, rfl⟩, fun l c hl => ?_⟩
  rw [← dims_of_layout hl, ← hdims] at *
  exact Prepared.boundsFor_chunk hx hs hpos hnative ha c

/-- An input of a resolved variable. -/
theorem input_of_resolved {bounds : Nat → Bounds} (hbounds : plan.streamed id = true → ∀ a c,
    (Engine.ofVariable v plan source converter).layout id = .ok a →
      (Engine.ofVariable v plan source converter).boundsFor id name a.dims (some c) = .ok (some (bounds c))) :
    (Engine.ofVariable v plan source converter).Input id name bounds := by
  obtain ⟨n, hn, hkind⟩ := Option.map_eq_some_iff.mp hk
  obtain ⟨hleaf, -⟩ := hv.typed.operand hk
  refine ⟨hk, hleaf, fun i hi => ?_, ?_, hbounds⟩
  · have hi : v.store.kind? i = some (.operand name) := hi
    obtain ⟨n', hn', hkind'⟩ := Option.map_eq_some_iff.mp hi
    obtain ⟨hleaf', -⟩ := hv.typed.operand hi
    rw [parents_of_node hn] at hleaf
    rw [parents_of_node hn'] at hleaf'
    exact Resolution.key_inj hv.typed hn' hn (hkind'.trans hkind.symm) (hleaf'.trans hleaf.symm)
  · exact (hplanned.other hn fun function options h => by rw [hkind] at h; cases h).2.1

end

/-- An input is read as often as the passes need: its chunks in order in each pass that it bears on, none in the
    others, and the whole once at most. -/
structure ReadAsNeeded (e : Engine) (id : Nat) (name : String) (chunks : List Bounds) : Prop where
  steps : ∀ pass, id ∈ (e.schedule pass).steps ↔ e.Bears pass id
  pass : ∀ pass < e.plan.passes, ∃ state state', e.Enters pass state ∧ (e.runPass state pass).outcome = .ok state' ∧
    (e.runPass state pass).parts name = if id ∈ (e.schedule pass).steps then chunks else []
  parts : e.run.parts name =
    (List.range e.plan.passes).flatMap fun pass => if id ∈ (e.schedule pass).steps then chunks else []
  once : e.run.wholes name ≤ 1

theorem readAsNeeded (hsup : e.Supplied) (h : e.Input id name bounds) {n : Nat} (hok : e.run.outcome = .ok n) :
    e.ReadAsNeeded id name ((List.range e.plan.chunks.length).map bounds) where
  steps pass := mem_steps_iff_bears hsup.below hsup.root
  pass pass hpass := by
    obtain ⟨state, hpasses, -⟩ := bind_outcome_ok hok
    obtain ⟨before, after, hbefore, hafter⟩ := range_ok hpasses hpass
    exact ⟨before, after, ⟨Nat.le_of_lt hpass, hbefore⟩, hafter, runPass_parts h hafter⟩
  parts := (run_log h hok).1
  once := (run_log h hok).2

/-- Where arrays are broadcast or alone, inputs that are streamed are not read as a whole, and the others are. -/
theorem wholes_of_oneArray (hv : Resolution.Resolved context Fit v) (hplanned : Plan.Planned context.functions v plan)
    (hone : context.functions.OneArray) (hk : v.store.kind? id = some (.operand name))
    (h : (Engine.ofVariable v plan source converter).Input id name bounds) {n : Nat}
    (hok : (Engine.ofVariable v plan source converter).run.outcome = .ok n) :
    (Engine.ofVariable v plan source converter).run.wholes name = if plan.streamed id then 0 else 1 := by
  have hconf := confined_of_planned hv hplanned hone source converter
  have hlog := run_log h hok
  cases hs : plan.streamed id with
  | true =>
    refine List.count_eq_zero.mpr fun hmem => ?_
    have hasks := run_reads hconf _ hmem
    generalize hr : ((name, none) : Reading) = r at hasks
    cases hasks with
    | @chunk i c _ a _ hk' _ ha hb =>
      cases hr
      cases h.unique i hk'
      cases (h.bounds hs a c ha).symm.trans hb
    | @whole i _ hk' hs' =>
      cases hr
      cases h.unique i hk'
      cases hs.symm.trans hs'
  | false =>
    have ho : (Engine.ofVariable v plan source converter).Ordered := by
      refine ordered_of_fed hv hplanned (fun i ha => ?_) source converter
      obtain ⟨f, p, others, hmem, hshape, harity, hp, -⟩ := reduction_call hv.typed hplanned ha
      have hle := hone f hmem (by rw [hshape]; decide)
      rw [hp]
      rw [harity, List.length_cons] at hle
      rw [List.length_cons]
      omega
    have hconn : Resolution.Connected v.store plan.root := hplanned.root ▸ hv.connected
    obtain ⟨b, hread⟩ := read_of_run ho hconn hconf hok hk h.carried
    have hnone : b = none := by
      cases b with
      | none => rfl
      | some b =>
        have hmem : b ∈ (Engine.ofVariable v plan source converter).run.parts name :=
          List.mem_filterMap.mpr ⟨_, hread, if_pos rfl⟩
        rw [hlog.1, List.mem_flatMap] at hmem
        obtain ⟨pass, -, hmem⟩ := hmem
        split at hmem
        · rename_i hstep
          cases hs.symm.trans (streamed_of_step hstep)
        · cases hmem
    subst hnone
    exact Nat.le_antisymm hlog.2 (List.count_pos_iff.mpr hread)

/-- Each input of a resolved variable is read as often as the passes of a run need it, in its chunks by the name that
    the dimension has at the source. What does not depend on the chunk is not read in parts. If arrays are broadcast or
    alone, it is read once, and what depends on the chunk is read in parts only. -/
theorem run_readAsNeeded (hv : Resolution.Resolved context Fit v)
    (hplan : Plan.build v context.functions config = .ok plan) (source : Source) (converter : Measure.Converter)
    {n : Nat} (hok : (Engine.ofVariable v plan source converter).run.outcome = .ok n)
    (hk : v.store.kind? id = some (.operand name)) :
    let e := Engine.ofVariable v plan source converter
    (plan.streamed id = true → ∃ native, Native context plan name native ∧
      e.ReadAsNeeded id name (plan.chunks.map fun chunk => ⟨native, chunk.1, chunk.2⟩)) ∧
      (plan.streamed id = false → e.run.parts name = [] ∧ e.run.wholes name ≤ 1) ∧
      (context.functions.OneArray → e.run.wholes name = if plan.streamed id then 0 else 1) := by
  intro e
  have hplanned := Plan.build_planned (fun i p hp => hv.typed.parents_lt hp) hplan
  have hsup := supplied_of_planned hv hplanned source converter
  cases hs : plan.streamed id with
  | true =>
    obtain ⟨native, hnative, hbounds⟩ := exists_native source converter hv hplanned hk hs
    have hinput := input_of_resolved hv hplanned hk fun _ => hbounds
    refine ⟨fun _ => ⟨native, hnative, ?_⟩, fun h => by (cases h), fun hone => ?_⟩
    · rw [← map_chunkBounds]
      exact readAsNeeded hsup hinput hok
    · exact hs ▸ wholes_of_oneArray hv hplanned hone hk hinput hok
  | false =>
    have hinput : e.Input id name (chunkBounds plan "") :=
      input_of_resolved hv hplanned hk fun h => by cases hs.symm.trans h
    refine ⟨fun h => by (cases h), fun _ => ⟨?_, (run_log hinput hok).2⟩, fun hone => ?_⟩
    · rw [(run_log hinput hok).1]
      refine List.flatMap_eq_nil_iff.mpr fun pass _ => if_neg fun hstep => ?_
      cases hs.symm.trans (streamed_of_step hstep)
    · exact hs ▸ wholes_of_oneArray hv hplanned hone hk hinput hok

end

end Engine

namespace Conformance

open Engine

/-- Two passes need the temperatures: one for the mean, one for the output. -/
theorem run_readAsNeeded_anomaly :
    let e := Engine.ofVariable anomalyJob.resolved anomalyJob.plan anomaly.source anomaly.converter
    e.ReadAsNeeded 0 "tas" [⟨"time", 0, 2⟩, ⟨"time", 2, 3⟩] ∧ e.Bears 0 0 ∧ e.Bears 1 0 ∧
      e.run.wholes "tas" = if anomalyJob.plan.streamed 0 then 0 else 1 := by
  intro e
  have hj : anomaly.prepare anomaly.compile "anomaly" ⟨["time"], "K", .empty⟩ = .ok anomalyJob :=
    toOption_eq_some.mp (Option.some_get _).symm
  obtain ⟨hresolved, hplan⟩ := prepare_built hj
  have hrun : e.run.outcome = .ok 2 := by decide +kernel
  have hkind : anomalyJob.resolved.store.kind? 0 = some (.operand "tas") := by decide +kernel
  obtain ⟨hparts, -, hwholes⟩ := run_readAsNeeded hresolved hplan anomaly.source anomaly.converter hrun hkind
  obtain ⟨native, ⟨m, x, axis, a, hm, -, -, ha, rfl⟩, hneeded⟩ := hparts (by decide +kernel)
  have hdims : (anomaly.source.describe "tas").map (·.dims) = some [⟨"time", some 3⟩] := by decide +kernel
  have hchunks : anomalyJob.plan.chunks = [(0, 2), (2, 3)] := by decide +kernel
  have hm : anomaly.source.describe "tas" = some m := hm
  rw [hm] at hdims
  have hdims : m.dims = [⟨"time", some 3⟩] := Option.some.inj hdims
  rw [hdims, List.getElem?_singleton] at ha
  split at ha
  · cases ha
    rw [hchunks] at hneeded
    have hsteps : 0 ∈ (e.schedule 0).steps ∧ 0 ∈ (e.schedule 1).steps := by decide +kernel
    exact ⟨hneeded, (hneeded.steps 0).mp hsteps.1, (hneeded.steps 1).mp hsteps.2, hwholes Functions.builtins_oneArray⟩
  · cases ha

theorem pair_volume (x y : Double) : #[x, y].size = volume [2] := rfl

/-- Reductions of two arrays: one along another dimension, with the streamed input as its second array, and one along
    the dimension that is cut, with the input that is not streamed as its second array. -/
def regional : Conformance where
  standard := .ofList [("out", ⟨["time"], "K", .empty⟩), ("total", ⟨[], "K", .empty⟩)]
  definitions := .ofList [("out", "a + f(b, a, dim='lat')"), ("total", "f(a, b, dim='time')")]
  source := Dataset.source (.ofList [("a", ⟨⟨[⟨"time", some 2⟩], "K", .empty⟩, ⟨[2], #[1, 2], pair_volume 1 2⟩⟩),
    ("b", ⟨⟨[⟨"lat", some 2⟩], "K", .empty⟩, ⟨[2], #[10, 20], pair_volume 10 20⟩⟩)])
  config := Config.standard
  functions := lateFunctions
  converter := Measure.linear

/-- A streamed input is read in its chunk, and again as a whole. Another one is not read at all. -/
theorem read_again_or_never :
    (∃ j, regional.prepare regional.compile "out" ⟨["time"], "K", .empty⟩ = .ok j ∧
      let e := Engine.ofVariable j.resolved j.plan regional.source regional.converter
      j.resolved.store.kind? 0 = some (.operand "a") ∧ j.plan.streamed 0 = true ∧ e.run.outcome = .ok 1 ∧
        e.run.reads = [("a", some ⟨"time", 0, 2⟩), ("b", none), ("a", none)]) ∧
      ∃ j, regional.prepare regional.compile "total" ⟨[], "K", .empty⟩ = .ok j ∧
        let e := Engine.ofVariable j.resolved j.plan regional.source regional.converter
        j.resolved.store.kind? 1 = some (.operand "b") ∧ j.plan.streamed 1 = false ∧ e.run.outcome = .ok 1 ∧
          e.run.reads = [("a", some ⟨"time", 0, 2⟩)] := by
  have hagain : ∃ j ∈ (regional.prepare regional.compile "out" ⟨["time"], "K", .empty⟩).toOption,
      let e := Engine.ofVariable j.resolved j.plan regional.source regional.converter
      j.resolved.store.kind? 0 = some (.operand "a") ∧ j.plan.streamed 0 = true ∧ e.run.outcome = .ok 1 ∧
        e.run.reads = [("a", some ⟨"time", 0, 2⟩), ("b", none), ("a", none)] := by
    decide +kernel
  have hnever : ∃ j ∈ (regional.prepare regional.compile "total" ⟨[], "K", .empty⟩).toOption,
      let e := Engine.ofVariable j.resolved j.plan regional.source regional.converter
      j.resolved.store.kind? 1 = some (.operand "b") ∧ j.plan.streamed 1 = false ∧ e.run.outcome = .ok 1 ∧
        e.run.reads = [("a", some ⟨"time", 0, 2⟩)] := by
    decide +kernel
  obtain ⟨j, hj, hreads⟩ := hagain
  obtain ⟨j', hj', hreads'⟩ := hnever
  exact ⟨⟨j, toOption_eq_some.mp hj, hreads⟩, j', toOption_eq_some.mp hj', hreads'⟩

end Conformance
end Concord
