import Concord.Proofs.Evaluate.AllInputs
import Concord.Proofs.Evaluate.Emission
import Concord.Proofs.Evaluate.Holding

/-! The values that are live while a chunk is evaluated: those that were computed for the chunk and are still awaited.
    Readings are counted for all parents of a reduction, but it gives up its first one only. -/

namespace Concord

namespace Engine

open Traced NodeStore

variable {e : Engine} {pass c id : Nat} {done rest fed unfed : List Nat}

/-! ### Graphs -/

/-- What any plan gives its graph: parents stand before their children, and a reduction along the dimension that is
    cut works on a streamed array. -/
structure Supplied (e : Engine) : Prop where
  below : e.store.ParentsBelow
  root : e.plan.root < e.store.count
  first : ∀ i, e.plan.accumulates i = true → ∃ p others, e.store.parents i = p :: others ∧ e.plan.streamed p = true

/-! ### Readings to come -/

/-- The readings that are to come when some reductions of a pass are fed and others are not. -/
def left (e : Engine) (pass : Nat) (fed unfed : List Nat) : List Nat :=
  (unfed.flatMap e.store.parents ++ fed.flatMap (fun id => (e.store.parents id).tail) ++
    if e.emitsRoot pass then [e.plan.root] else []).filter e.plan.streamed

theorem left_nil : e.left pass [] (e.sinks pass) = e.readings pass [] := by
  unfold left readings
  rw [List.flatMap_nil, List.append_nil, List.nil_append]

/-- Feeding a reduction is a reading of its first parent. -/
theorem left_cons {p : Nat} {others : List Nat} (hp : e.store.parents id = p :: others)
    (hs : e.plan.streamed p = true) : (e.left pass fed (id :: unfed)).Perm (p :: e.left pass (fed ++ [id]) unfed) := by
  unfold left
  rw [List.flatMap_cons, hp, List.flatMap_append, List.flatMap_singleton, hp, List.tail_cons, List.cons_append,
    List.cons_append, List.cons_append, List.filter_cons, if_pos hs]
  refine List.Perm.cons p (List.Perm.filter _ (List.Perm.append_right _ ?_))
  rw [List.append_assoc, ← List.append_assoc (unfed.flatMap _)]
  exact List.perm_append_comm

/-! ### Steps -/

/-- The ledger holds what is done and will be read. -/
theorem Reaches.holds (hsup : e.Supplied) {s : Ledger (Grid Double) × RunState} (h : e.Reaches pass c done rest s) :
    s.1.Holds done (e.readings pass rest) := by
  obtain ⟨-, hsteps, start, -, h⟩ := h
  refine foldlM_ok (P := fun done s => ∀ rest, (e.schedule pass).steps = done ++ rest →
    s.1.Holds done (e.readings pass rest)) (e.schedule pass).steps ?_ hsteps ?_ h rest hsteps
  · intro done id rest s s' hall hs hs' rest' hall'
    have hnodup : (done ++ id :: rest).Nodup := hall ▸ nodup_steps
    have hid : id ∉ done := fun hmem => (List.nodup_append.mp hnodup).2.2 id hmem id List.mem_cons_self rfl
    have hnow := hs _ hall
    rw [hall, List.append_assoc] at hall'
    cases List.append_cancel_left hall'
    rw [readings_cons] at hnow
    obtain ⟨settled, -, hs'⟩ := bind_outcome_ok hs'
    obtain ⟨inputs, -, hs'⟩ := bind_outcome_ok hs'
    obtain ⟨value, -, hs'⟩ := bind_outcome_ok hs'
    cases hs'
    exact hnow.releases.insert hid
  · intro rest hall
    rw [List.nil_append] at hall
    subst hall
    exact Ledger.holds_ofUses (count_uses hsup.below hsup.root)

/-- The streamed parents of the next step are there. -/
theorem Reaches.parents_held (hsup : e.Supplied) {s : Ledger (Grid Double) × RunState}
    (h : e.Reaches pass c done (id :: rest) s) {p : Nat} (hp : p ∈ e.store.parents id)
    (hs : e.plan.streamed p = true) : (s.1.get? p).isSome = true := by
  refine (h.holds hsup).isSome (parent_done hsup.below h.2.1 hp hs) ?_
  rw [readings_cons]
  exact List.mem_append_left _ (List.mem_filter.mpr ⟨hp, hs⟩)

/-! ### Reductions -/

/-- Some reductions of a pass are fed with a chunk, and others are to come. -/
def Feeds (e : Engine) (pass c : Nat) (fed unfed : List Nat) (l : Ledger (Grid Double)) : Prop :=
  c < e.plan.chunks.length ∧ ∃ start s before after out, e.Begins pass c start ∧
    (e.stepChunk c (e.schedule pass) start.1).outcome = .ok s ∧ start.2 = before ++ after ∧
    before.map (·.1) = fed ∧ after.map (·.1) = unfed ∧ e.feed s.1 before = .ok (l, out)

theorem Feeds.ids {l : Ledger (Grid Double)} (h : e.Feeds pass c fed unfed l) : fed ++ unfed = e.sinks pass := by
  obtain ⟨-, start, s, before, after, out, hbegins, -, hall, rfl, rfl, -⟩ := h
  rw [← List.map_append, ← hall, hbegins.ids]

/-- The ledger holds what will be read, and the arrays of reductions that are not given up. -/
theorem Feeds.holds (hsup : e.Supplied) {l : Ledger (Grid Double)} (h : e.Feeds pass c fed unfed l) :
    l.Holds (e.schedule pass).steps (e.left pass fed unfed) := by
  obtain ⟨hc, start, s, before, after, out, hbegins, hsteps, hall, rfl, rfl, hfeed⟩ := h
  have hreaches : e.Reaches pass c (e.schedule pass).steps [] s :=
    ⟨hc, (List.append_nil _).symm, start, hbegins, hsteps⟩
  have hids : (before ++ after).map (·.1) = e.sinks pass := hall ▸ hbegins.ids
  refine foldlM_induction (P := fun done t => ∀ rest, before ++ after = done ++ rest →
    t.1.Holds (e.schedule pass).steps (e.left pass (done.map (·.1)) (rest.map (·.1)))) before ?_
    (List.nil_append _).symm (fun rest hrest => ?_) hfeed after rfl
  · intro done a rest t t' _ ht hstep rest' hrest'
    rw [List.append_assoc] at hrest'
    have hmem : a.1 ∈ e.sinks pass := by
      rw [← hids, hrest']
      exact List.mem_map_of_mem (List.mem_append_right _ List.mem_cons_self)
    obtain ⟨p, others, hp, hs⟩ := hsup.first a.1 (mem_sinks.mp hmem).2.1
    have hnow := ht _ hrest'
    obtain ⟨parent, hparent, hstep⟩ := bind_eq_ok.mp hstep
    unfold firstParent at hparent
    rw [hp] at hparent
    cases hparent
    split at hstep
    · cases hstep
    · cases hstep
    · cases hstep
      rw [List.map_append, List.map_singleton]
      exact (hnow.perm (left_cons hp hs)).release
  · rw [List.nil_append] at hrest
    rw [← hrest, hids, List.map_nil, left_nil]
    exact hreaches.holds hsup

/-- The array that the next reduction is fed with is there. -/
theorem Feeds.parent_held (hsup : e.Supplied) {l : Ledger (Grid Double)} (h : e.Feeds pass c fed (id :: unfed) l) :
    ∃ p, e.firstParent id = .ok p ∧ (l.get? p).isSome = true := by
  have hholds := h.holds hsup
  obtain ⟨-, start, s, before, after, out, hbegins, -, hall, -, hafter, -⟩ := h
  have hmem : id ∈ e.sinks pass := by
    rw [← hbegins.ids, hall, List.map_append, hafter]
    exact List.mem_append_right _ List.mem_cons_self
  obtain ⟨p, others, hp, hs⟩ := hsup.first id (mem_sinks.mp hmem).2.1
  refine ⟨p, by unfold firstParent; rw [hp], hholds.isSome ?_ ?_⟩
  · exact sink_parent_step hsup.below hmem (hp ▸ List.mem_cons_self) hs
  · exact (left_cons hp hs).mem_iff.mpr List.mem_cons_self

/-- No reduction fails to be fed. -/
theorem feed_succeeds (hsup : e.Supplied) (hc : c < e.plan.chunks.length) {start : RunState × List (Nat × Accumulator)}
    (hbegins : e.Begins pass c start) {s : Ledger (Grid Double) × RunState}
    (hsteps : (e.stepChunk c (e.schedule pass) start.1).outcome = .ok s) :
    ∃ l out, e.feed s.1 start.2 = .ok (l, out) ∧ e.Feeds pass c (e.sinks pass) [] l := by
  have key : ∀ (after before : List (Nat × Accumulator)) (l : Ledger (Grid Double)) (out : List (Nat × Accumulator)),
      start.2 = before ++ after → e.feed s.1 before = .ok (l, out) →
        ∃ l' out', e.feed s.1 start.2 = .ok (l', out') := by
    intro after
    induction after with
    | nil =>
      intro before l out hall hfeed
      exact ⟨l, out, by rw [hall, List.append_nil, hfeed]⟩
    | cons a after ih =>
      intro before l out hall hfeed
      have hfeeds : e.Feeds pass c (before.map (·.1)) (a.1 :: after.map (·.1)) l :=
        ⟨hc, start, s, before, a :: after, out, hbegins, hsteps, hall, rfl, rfl, hfeed⟩
      obtain ⟨p, hp, hheld⟩ := hfeeds.parent_held hsup
      obtain ⟨g, hg⟩ := Option.isSome_iff_exists.mp hheld
      have hmem : a.1 ∈ e.sinks pass := by
        rw [← hbegins.ids, hall]
        exact List.mem_map_of_mem (List.mem_append_right _ List.mem_cons_self)
      obtain ⟨axis, hcarried⟩ := carried_of_accumulates (mem_sinks.mp hmem).2.1
      have hone : e.feedOne (l, out) a = .ok (l.release p, out ++ [(a.1, a.2.feed g axis)]) := by
        simp only [feedOne, hp, hcarried, hg, Bind.bind, Except.bind]
      refine ih (before ++ [a]) (l.release p) (out ++ [(a.1, a.2.feed g axis)])
        (by rw [hall, List.append_assoc]; rfl) ?_
      unfold feed at hfeed ⊢
      rw [List.foldlM_append, hfeed]
      show e.feedOne (l, out) a >>= pure = _
      rw [hone]
      rfl
  obtain ⟨l, out, hfeed⟩ := key start.2 [] s.1 [] (List.nil_append _).symm rfl
  exact ⟨l, out, hfeed, hc, start, s, start.2, [], out, hbegins, hsteps, (List.append_nil _).symm, hbegins.ids, rfl,
    hfeed⟩

/-! ### Values that are awaited -/

/-- The value of a streamed node is awaited: by one of the steps to come, by a reduction that is not fed yet, or as
    the output of the pass. -/
def Awaited (e : Engine) (pass : Nat) (steps unfed : List Nat) (id : Nat) : Prop :=
  e.plan.streamed id = true ∧
    ((∃ i ∈ steps ++ unfed, id ∈ e.store.parents i) ∨ (e.emitsRoot pass = true ∧ id = e.plan.root))

/-- The value of a streamed node is not given up, since a reduction that was fed has it as a further array. -/
def Kept (e : Engine) (fed : List Nat) (id : Nat) : Prop :=
  e.plan.streamed id = true ∧ ∃ i ∈ fed, id ∈ (e.store.parents i).tail

theorem mem_readings : id ∈ e.readings pass rest ↔ e.Awaited pass rest (e.sinks pass) id := by
  unfold readings Awaited
  rw [List.mem_filter, List.mem_append, List.mem_flatMap, and_comm]
  refine and_congr_right fun _ => or_congr_right ?_
  split <;> simp_all

theorem mem_left : id ∈ e.left pass fed unfed ↔ e.Awaited pass [] unfed id ∨ e.Kept fed id := by
  unfold left Awaited Kept
  rw [List.mem_filter, List.mem_append, List.mem_append, List.mem_flatMap, List.mem_flatMap, and_comm, ← and_or_left]
  refine and_congr_right fun _ => ?_
  rw [or_right_comm]
  refine or_congr_left (or_congr_right ?_)
  split <;> simp_all

/-- What stays in the ledger when the reductions of a pass are fed and the output is taken out. -/
def remainder (e : Engine) (pass : Nat) (l : Ledger (Grid Double)) : Ledger (Grid Double) :=
  if e.emitsRoot pass then (l.take e.plan.root).2 else l

/-- The ledger of a chunk holds what was computed and is awaited, and all that is looked up is there. Behind the last
    reading only further arrays of reductions are left. -/
structure Disciplined (e : Engine) : Prop where
  stepping : ∀ {pass c : Nat} {done rest : List Nat} {s : Ledger (Grid Double) × RunState},
    e.Reaches pass c done rest s → s.1.Keeps fun id => id ∈ done ∧ e.Awaited pass rest (e.sinks pass) id
  parents : ∀ {pass c id : Nat} {done rest : List Nat} {s : Ledger (Grid Double) × RunState},
    e.Reaches pass c done (id :: rest) s → ∀ p ∈ e.store.parents id, e.plan.streamed p = true →
      (s.1.get? p).isSome = true
  feeding : ∀ {pass c : Nat} {fed unfed : List Nat} {l : Ledger (Grid Double)}, e.Feeds pass c fed unfed l →
    l.Keeps fun id => id ∈ (e.schedule pass).steps ∧ (e.Awaited pass [] unfed id ∨ e.Kept fed id)
  arrays : ∀ {pass c id : Nat} {fed unfed : List Nat} {l : Ledger (Grid Double)}, e.Feeds pass c fed (id :: unfed) l →
    ∃ p, e.firstParent id = .ok p ∧ (l.get? p).isSome = true
  fed : ∀ {pass c : Nat} {start : RunState × List (Nat × Accumulator)} {s : Ledger (Grid Double) × RunState},
    c < e.plan.chunks.length → e.Begins pass c start → (e.stepChunk c (e.schedule pass) start.1).outcome = .ok s →
      ∃ l out, e.feed s.1 start.2 = .ok (l, out) ∧ e.Feeds pass c (e.sinks pass) [] l
  output : ∀ {pass c : Nat} {l : Ledger (Grid Double)}, e.Feeds pass c (e.sinks pass) [] l → e.emitsRoot pass = true →
    (l.get? e.plan.root).isSome = true
  ended : ∀ {pass c : Nat} {l : Ledger (Grid Double)}, e.Feeds pass c (e.sinks pass) [] l →
    (e.remainder pass l).Keeps fun id => id ∈ (e.schedule pass).steps ∧ e.Kept (e.sinks pass) id ∧
      (e.emitsRoot pass = true → id ≠ e.plan.root)

theorem disciplined (hsup : e.Supplied) : e.Disciplined where
  stepping h := (h.holds hsup).keeps fun _ => mem_readings
  parents h _ hp hs := h.parents_held hsup hp hs
  feeding h := (h.holds hsup).keeps fun _ => mem_left
  arrays h := h.parent_held hsup
  fed hc hbegins hsteps := feed_succeeds hsup hc hbegins hsteps
  output h he := (h.holds hsup).isSome (root_step hsup.root he)
    (mem_left.mpr (.inl ⟨(emitsRoot_iff.mp he).1, .inr ⟨he, rfl⟩⟩))
  ended {pass c l} h := by
    have hkeeps := (h.holds hsup).keeps fun _ => mem_left
    unfold remainder
    split
    · rename_i he
      refine hkeeps.take.congr fun id => ?_
      rw [and_assoc]
      refine and_congr_right fun _ => ⟨fun ⟨hid, hne⟩ => ⟨hid.resolve_left ?_, fun _ => hne⟩,
        fun ⟨hkept, hne⟩ => ⟨.inr hkept, hne he⟩⟩
      rintro ⟨-, ⟨i, hi, -⟩ | ⟨-, hroot⟩⟩
      · cases hi
      · exact hne hroot
    · rename_i he
      refine hkeeps.congr fun id => and_congr_right fun _ => ⟨fun hid => ⟨hid.resolve_left ?_, fun h => absurd h he⟩,
        fun hid => .inr hid.1⟩
      rintro ⟨-, ⟨i, hi, -⟩ | ⟨h, -⟩⟩
      · cases hi
      · exact he h

/-! ### Runs -/

/-- A run that succeeds comes to every step of every chunk, and to the end of the chunk. -/
theorem moments_of_run {n : Nat} (hsup : e.Supplied) (h : e.run.outcome = .ok n) (hpass : pass < e.plan.passes)
    (hc : c < e.plan.chunks.length) :
    (∀ done rest, (e.schedule pass).steps = done ++ rest → ∃ s, e.Reaches pass c done rest s) ∧
      ∃ l, e.Feeds pass c (e.sinks pass) [] l := by
  obtain ⟨start, s', hbegins, hs'⟩ := begins_of_run h hpass hc
  obtain ⟨ledger, ledger', hsteps, -⟩ := runChunkOfPass_eq_ok hs'
  refine ⟨fun done rest hall => ?_, ?_⟩
  · unfold stepChunk at hsteps
    rw [hall, List.foldlM_append] at hsteps
    obtain ⟨s, hs, -⟩ := bind_outcome_ok hsteps
    exact ⟨s, hc, hall, start, hbegins, hs⟩
  · obtain ⟨l, out, -, hfeeds⟩ := feed_succeeds hsup hc hbegins hsteps
    exact ⟨l, hfeeds⟩

/-! ### Resolved variables -/

section
variable {context : Resolution.Context} {Fit : String → CallOptions → Prop} {v : ResolvedVariable} {plan : Plan}
  {config : Config}

theorem supplied_of_planned (hv : Resolution.Resolved context Fit v) (h : Plan.Planned context.functions v plan)
    (source : Source) (converter : Measure.Converter) : (Engine.ofVariable v plan source converter).Supplied where
  below _ _ hp := hv.typed.parents_lt hp
  root := by
    show plan.root < _
    rw [h.root]
    exact hv.root
  first i ha := by
    obtain ⟨f, p, others, -, -, -, hp, hs, -⟩ := reduction_call hv.typed h ha
    exact ⟨p, others, hp, hs⟩

/-- Where reductions have one array, none is kept. -/
theorem not_kept (hv : Resolution.Resolved context Fit v) (h : Plan.Planned context.functions v plan)
    (hsingle : ∀ f ∈ context.functions.specs, f.shape = .reduce → f.arity = 1) (source : Source)
    (converter : Measure.Converter) (hfed : fed ⊆ (Engine.ofVariable v plan source converter).sinks pass) :
    ¬(Engine.ofVariable v plan source converter).Kept fed id := by
  rintro ⟨-, i, hi, hid⟩
  obtain ⟨f, p, others, hmem, hshape, harity, hp, -⟩ := reduction_call hv.typed h (mem_sinks.mp (hfed hi)).2.1
  rw [hsingle f hmem hshape, List.length_cons] at harity
  cases List.eq_nil_of_length_eq_zero (Nat.succ.inj harity.symm)
  change id ∈ (v.store.parents i).tail at hid
  rw [hp] at hid
  cases hid

/-- The working set of a resolved variable, in every chunk of every pass of any run, is what is computed and awaited.
    What is left behind a chunk are further arrays of its reductions; nothing is left if these have one array. -/
theorem run_workingSet (hv : Resolution.Resolved context Fit v)
    (hplan : Plan.build v context.functions config = .ok plan) (source : Source) (converter : Measure.Converter) :
    let e := Engine.ofVariable v plan source converter
    e.Disciplined ∧
      (∀ n, e.run.outcome = .ok n → ∀ pass < plan.passes, ∀ c < plan.chunks.length,
        (∀ done rest, (e.schedule pass).steps = done ++ rest → ∃ s, e.Reaches pass c done rest s) ∧
          ∃ l, e.Feeds pass c (e.sinks pass) [] l) ∧
      ((∀ f ∈ context.functions.specs, f.shape = .reduce → f.arity = 1) → ∀ pass c fed unfed l,
        e.Feeds pass c fed unfed l →
          l.Keeps (fun id => id ∈ (e.schedule pass).steps ∧ e.Awaited pass [] unfed id) ∧
            (unfed = [] → (e.remainder pass l).live = 0)) := by
  have hplanned := Plan.build_planned (fun i p hp => hv.typed.parents_lt hp) hplan
  have hsup := supplied_of_planned hv hplanned source converter
  refine ⟨disciplined hsup, fun n hn pass hpass c hc => moments_of_run hsup hn hpass hc, ?_⟩
  intro hsingle pass c fed unfed l hfeeds
  have hids := hfeeds.ids
  have hkept : ∀ id, ¬(Engine.ofVariable v plan source converter).Kept fed id := fun id =>
    not_kept hv hplanned hsingle source converter (hids ▸ List.subset_append_left fed unfed)
  refine ⟨((disciplined hsup).feeding hfeeds).congr fun id => and_congr_right fun _ => or_iff_left (hkept id),
    fun hnil => ?_⟩
  rw [hnil, List.append_nil] at hids
  rw [hnil, hids] at hfeeds
  exact ((disciplined hsup).ended hfeeds).live_eq_zero_iff.mpr fun id hid => hkept id (hids.symm ▸ hid.2.1)

end

end Engine

namespace Conformance

open Engine

theorem run_workingSet_anomaly :
    let e := Engine.ofVariable anomalyJob.resolved anomalyJob.plan anomaly.source anomaly.converter
    e.Disciplined ∧ (∃ l, e.Feeds 0 1 (e.sinks 0) [] l ∧ (e.remainder 0 l).live = 0) ∧
      ∃ s, e.Reaches 1 0 [0] [2] s ∧ ∀ id, (s.1.get? id).isSome = true ↔ id = 0 := by
  intro e
  have hj : anomaly.prepare anomaly.compile "anomaly" ⟨["time"], "K", .empty⟩ = .ok anomalyJob :=
    toOption_eq_some.mp (Option.some_get _).symm
  obtain ⟨hresolved, hplan⟩ := prepare_built hj
  obtain ⟨hdisciplined, hmoments, hover⟩ := run_workingSet hresolved hplan anomaly.source anomaly.converter
  have hone : ∀ f ∈ anomaly.functions.specs, f.shape = .reduce → f.arity = 1 := fun f hf hshape =>
    Functions.builtins_single f hf (.inl hshape)
  have hrun : e.run.outcome = .ok 2 := by decide +kernel
  obtain ⟨-, l, hl⟩ := hmoments 2 hrun 0 (by decide +kernel) 1 (by decide +kernel)
  obtain ⟨hsteps, -⟩ := hmoments 2 hrun 1 (by decide +kernel) 0 (by decide +kernel)
  obtain ⟨s, hs⟩ := hsteps [0] [2] (by decide +kernel)
  refine ⟨hdisciplined, ⟨l, hl, (hover hone 0 1 _ _ l hl).2 rfl⟩, s, hs, fun id => ⟨fun hid => ?_, ?_⟩⟩
  · exact List.mem_singleton.mp (((hdisciplined.stepping hs).held id).mp hid).1
  · rintro rfl
    exact hdisciplined.parents hs 0 (by decide +kernel) (by decide +kernel)

/-- A reduction of two arrays gets the same one twice. -/
def paired : Conformance where
  standard := .ofList [("out", ⟨[], "K", .empty⟩)]
  definitions := .ofList [("out", "f(tas, tas, dim='time')")]
  source := anomalyInputs.source
  config := Config.standard
  functions := lateFunctions
  converter := Measure.linear

/-- Its array is still in the ledger when the chunk is over and nobody awaits it. -/
theorem kept_when_over : ∃ j, paired.prepare paired.compile "out" ⟨[], "K", .empty⟩ = .ok j ∧
    let e := Engine.ofVariable j.resolved j.plan paired.source paired.converter
    e.run.outcome = .ok 1 ∧ e.emitsRoot 0 = false ∧
      ∃ l, e.Feeds 0 0 (e.sinks 0) [] l ∧ (l.get? 0).isSome = true ∧ ¬e.Awaited 0 [] [] 0 ∧
        (e.remainder 0 l).live ≠ 0 := by
  have hfacts : ∃ j ∈ (paired.prepare paired.compile "out" ⟨[], "K", .empty⟩).toOption,
      let e := Engine.ofVariable j.resolved j.plan paired.source paired.converter
      e.run.outcome = .ok 1 ∧ e.emitsRoot 0 = false ∧ 0 < j.plan.passes ∧ 0 < j.plan.chunks.length ∧
        0 ∈ (e.schedule 0).steps ∧ j.plan.streamed 0 = true ∧ 1 ∈ e.sinks 0 ∧
          0 ∈ (j.resolved.store.parents 1).tail := by
    decide +kernel
  obtain ⟨j, hj, hrun, hemits, hpasses, hchunks, hstep, hs, hsink, hparent⟩ := hfacts
  have hj' := toOption_eq_some.mp hj
  obtain ⟨hresolved, hplan⟩ := prepare_built hj'
  have hplanned := Plan.build_planned (fun i p hp => hresolved.typed.parents_lt hp) hplan
  have hsup := supplied_of_planned hresolved hplanned paired.source paired.converter
  obtain ⟨-, l, hl⟩ := moments_of_run hsup hrun hpasses hchunks
  have hkept : (Engine.ofVariable j.resolved j.plan paired.source paired.converter).Kept
      ((Engine.ofVariable j.resolved j.plan paired.source paired.converter).sinks 0) 0 := ⟨hs, 1, hsink, hparent⟩
  refine ⟨j, hj', hrun, hemits, l, hl, ?_, ?_, fun hzero => ?_⟩
  · exact (((disciplined hsup).feeding hl).held 0).mpr ⟨hstep, .inr hkept⟩
  · rintro ⟨-, ⟨i, hi, -⟩ | ⟨h, -⟩⟩
    · cases hi
    · cases hemits.symm.trans h
  · refine ((disciplined hsup).ended hl).live_eq_zero_iff.mp hzero 0 ⟨hstep, hkept, fun h => ?_⟩
    cases hemits.symm.trans h

end Conformance
end Concord
