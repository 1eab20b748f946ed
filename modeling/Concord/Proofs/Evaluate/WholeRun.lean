import Concord.Output.Memory
import Concord.Proofs.Conformance
import Concord.Proofs.Evaluate.Agreement
import Concord.Proofs.Grid.Joining

/-! Runs of variables that a task prepares. However a variable is cut, its run succeeds if whole arrays
    have values for all nodes, and then its chunks join to the value of the output. -/

namespace Concord

-- Sums start at the built-in zero, also where the algebra of numbers is known.
attribute [local instance (10000)] Zero.ofOfNat0

open Grid Whole Signature Window NodeStore

/-! ### Chunks that join -/

namespace Window

variable {s : Signature} {x : String} {u : Field}

/-- Parts between edges that follow each other. -/
theorem map_part_edges : ∀ (n : Nat) {e : Nat → Nat}, (∀ k, e k ≤ e (k + 1)) →
    (List.range n).map (fun k => part (some ⟨x, e k, e (k + 1) - e k⟩) s u) =
      parts s.lens s.names x u (e 0) ((List.range n).map fun k => e (k + 1) - e k)
  | 0, _, _ => rfl
  | n + 1, e, hmono => by
    have ih := map_part_edges n (e := fun k => e (k + 1)) fun k => hmono (k + 1)
    have hnext : e 0 + (e 1 - e 0) = e 1 := Nat.add_sub_of_le (hmono 0)
    simp only [List.range_succ_eq_map, List.map_cons, List.map_map, parts, Nat.zero_add, hnext]
    exact congrArg (_ :: ·) ih

theorem sum_edges {edge : Nat → Nat} (hmono : ∀ k, edge k ≤ edge (k + 1)) (hstart : edge 0 = 0) (n : Nat) :
    ((List.range n).map fun k => edge (k + 1) - edge k).sum = edge n := by
  induction n with
  | zero => exact hstart.symm
  | succ n ih =>
    have := hmono n
    simp only [List.range_succ, List.map_append, List.sum_append, ih, List.map_singleton, List.sum_singleton]
    omega

/-- Joined along their axis, the parts between edges are the whole. -/
theorem concat_part_edges {n : Nat} {edge : Nat → Nat} (hs : s.Known) (hx : x ∈ s.names) (hu : Supported s.names u)
    (hn : n ≠ 0) (hmono : ∀ k, edge k ≤ edge (k + 1)) (hstart : edge 0 = 0) (hstop : edge n = s.lens x)
    (hfits : fits (s.names.map s.lens) = true) :
    concat (s.names.idxOf x) ((List.range n).map fun k => part (some ⟨x, edge k, edge (k + 1) - edge k⟩) s u) =
      .ok (part none s u) := by
  rw [map_part_edges n hmono, hstart]
  refine concat_parts hs.nodup hx hu ?_ ((sum_edges hmono hstart n).trans hstop) hfits
  simpa using hn

end Window

namespace Prepared

variable {c : Resolution.Context} {d : Dataset} {v : ResolvedVariable} {plan : Plan} {i : Nat}
  {es : List (Nat × Grid Double)} {u : Field}

/-- The chunks that a complete run gives out join to the value of the root. -/
theorem chunks_join (h : Prepared c d v plan) (hs : plan.rootStreamed = true)
    (hg : (engine c v plan).Given plan.chunks.length es) (hu : (whole c v).value plan.root = some u) :
    ∃ x, plan.dimension = some x ∧ x ∈ (v.store.dims plan.root).names ∧
      concat ((v.store.dims plan.root).names.idxOf x) (es.map (·.2)) = .ok (part none (v.store.dims plan.root) u) := by
  obtain ⟨x, hx, hmem⟩ := h.planned.streamed_iff.mp hs
  obtain ⟨edge, he⟩ := h.consecutive
  obtain ⟨length, hpos, hchunks⟩ := h.planned.chunks
  obtain ⟨hindices, hvalues⟩ := hg
  have hlen : plan.chunks.length ≠ 0 := Nat.ne_of_gt (hchunks ▸ Plan.cut_pos _ hpos)
  have hgrids : es.map (·.2) = (List.range plan.chunks.length).map fun k =>
      part (some ⟨x, edge k, edge (k + 1) - edge k⟩) (v.store.dims plan.root) u := by
    rw [← hindices, List.map_map]
    refine List.map_congr_left fun p hp => ?_
    have hlt : p.1 < plan.chunks.length := List.mem_range.mp (hindices ▸ List.mem_map_of_mem hp)
    have hvalue := hvalues p hp
    rw [show (engine c v plan).plan.root = plan.root from rfl,
      h.agreement plan.root (some p.1) (fun n hn => Option.some.inj hn ▸ hlt) (.inr hs), hu, Option.map_some,
      Option.some.injEq] at hvalue
    rw [← hvalue, partOf, windowFor_chunk hx he hlt]
    rfl
  have hroot : plan.root < v.store.count := by
    rw [h.planned.root]
    exact h.resolved.root
  refine ⟨x, hx, hmem, ?_⟩
  rw [hgrids]
  exact concat_part_edges (h.known _) hmem (h.supported _ u hu) hlen he.mono he.start
    (he.stop.trans (h.lens_along hx hmem).symm) (h.small _ hroot)

/-! ### Whether a run succeeds -/

theorem parent_valued (h : Prepared c d v plan) (hi : ((whole c v).value i).isSome = true) :
    ∀ p ∈ v.store.parents i, ((whole c v).value p).isSome = true := by
  intro p hp
  rw [h.value_eq] at hi
  obtain ⟨us, hus⟩ := Option.isSome_iff_exists.mp hi
  obtain ⟨us, hus, -⟩ := Option.bind_eq_some_iff.mp hus
  rw [Option.isSome_iff_ne_none]
  intro hnone
  rw [mapM_eq_none hp hnone] at hus
  cases hus

/-- If the root has a value, so have all nodes: each of them is needed for it. -/
theorem values_of_root (h : Prepared c d v plan) (hroot : ((whole c v).value plan.root).isSome = true) :
    (whole c v).values?.isSome = true := by
  have hall : ∀ i < v.store.count, ((whole c v).value i).isSome = true := by
    refine h.resolved.connected _ (h.planned.root ▸ hroot) fun i hi => h.parent_valued hi
  rw [Evaluator.values?, Option.isSome_iff_ne_none]
  intro hnone
  obtain ⟨i, hi, hi'⟩ := exists_of_mapM_eq_none hnone
  have := hall i (List.mem_range.mp hi)
  simp [hi'] at this

/-- What a run lacks, whole arrays lack. -/
theorem values_of_lacks (h : Prepared c d v plan) (hl : (engine c v plan).Lacks) : (whole c v).values? = none := by
  cases hl with
  | @step pass k id hpass hk hid hnone =>
    obtain ⟨hlt, hs, -⟩ := Engine.step_facts h.ordered hid
    refine mapM_eq_none (List.mem_range.mpr hlt) ?_
    rw [h.agreement id (some k) (fun n hn => Option.some.inj hn ▸ hk) (.inr hs)] at hnone
    exact Option.map_eq_none_iff.mp hnone
  | @whole id hlt hs hneeded hnone =>
    refine mapM_eq_none (List.mem_range.mpr hlt) ?_
    rw [h.agreement id none (fun n hn => by cases hn) (.inl rfl)] at hnone
    exact Option.map_eq_none_iff.mp hnone

theorem root_valued (h : Prepared c d v plan) (hc : (engine c v plan).Complete es) :
    ((whole c v).value plan.root).isSome = true := by
  have hof : ∀ {key g}, (∀ n, key = some n → n < plan.chunks.length) → (key = none ∨ plan.streamed plan.root = true) →
      (engine c v plan).value plan.root key = some g → ((whole c v).value plan.root).isSome = true := by
    intro key g hkey hs hg
    rw [h.agreement plan.root key hkey hs] at hg
    obtain ⟨u, hu, -⟩ := Option.map_eq_some_iff.mp hg
    rw [hu]
    rfl
  unfold Engine.Complete at hc
  split at hc
  · rename_i hs
    obtain ⟨length, hpos, hchunks⟩ := h.planned.chunks
    have hlen : 0 < plan.chunks.length := hchunks ▸ Plan.cut_pos _ hpos
    obtain ⟨p, hp, hzero⟩ := List.mem_map.mp (hc.1 ▸ List.mem_range.mpr hlen)
    exact hof (fun n hn => by rw [← Option.some.inj hn, hzero]; exact hlen) (.inr hs) (hc.2 p hp)
  · obtain ⟨g, -, hg⟩ := hc
    exact hof (fun n hn => by cases hn) (.inl rfl) hg

end Prepared

/-! ### Tasks -/

/-- The axes of the inputs that a variable reads, by the names that they have in the output. -/
def Dataset.inputAxes (d : Dataset) (map : NameMap String) (v : ResolvedVariable) : List Signature :=
  v.store.nodes.filterMap fun n => (n.kind.input?.bind d.get?).map fun y => y.metadata.dims.renamed map

/-- The arrays of a dataset fit a variable and its plan: they have the lengths that their axes say, the axes
    of each input differ, all inputs have one length along the dimension that is cut, and no array of a node
    has more elements than can be counted. -/
structure Dataset.Fits (d : Dataset) (map : NameMap String) (j : Job) : Prop where
  sound : d.Sound
  distinct : ∀ s ∈ d.inputAxes map j.resolved, s.names.Nodup
  agree : ∀ x, j.plan.dimension = some x → ∀ s ∈ d.inputAxes map j.resolved, ∀ s' ∈ d.inputAxes map j.resolved,
    x ∈ s.names → x ∈ s'.names → s.lens x = s'.lens x
  small : ∀ i < j.resolved.store.count,
    fits ((j.resolved.store.dims i).names.map (j.resolved.store.dims i).lens) = true

namespace Conformance

variable {t : Conformance} {d : Dataset} {name : String} {target : Target} {j : Job} {i : Nat}

/-- The axes of an operand are those of an input. -/
theorem operand_axes {Fit : String → CallOptions → Prop} (hv : Resolution.Resolved t.resolution Fit j.resolved)
    (hs : t.source = d.source) {input : String} (hk : j.resolved.store.kind? i = some (.operand input)) :
    j.resolved.store.dims i ∈ d.inputAxes t.config.dimensionMap j.resolved := by
  obtain ⟨n, hn, hkind⟩ := Option.map_eq_some_iff.mp hk
  have haxes := hv.typed.axes hn
  rw [hkind] at haxes
  generalize hout : j.resolved.store.dims i = out at haxes
  generalize n.parents = parents at haxes
  cases haxes with
  | @operand _ m hm =>
    have hm' : d.source.describe input = some m := hs ▸ hm
    obtain ⟨y, hy, rfl⟩ := Option.map_eq_some_iff.mp hm'
    refine List.mem_filterMap.mpr ⟨n, List.mem_of_getElem? hn, ?_⟩
    simp [hkind, NodeKind.input?, hy, resolution]

/-- The length of the dimension that is cut is that of an input. -/
theorem domain_axes {Fit : String → CallOptions → Prop} (hv : Resolution.Resolved t.resolution Fit j.resolved)
    (hp : Plan.Planned t.functions j.resolved j.plan) (hs : t.source = d.source) {x : String}
    (hx : j.plan.dimension = some x) :
    ∃ s ∈ d.inputAxes t.config.dimensionMap j.resolved, x ∈ s.names ∧ s.lens x = j.plan.domain := by
  obtain ⟨s, hs', hlen⟩ := List.exists_of_findSome?_eq_some (hp.domain x hx)
  obtain ⟨n, hn, hdims⟩ := List.mem_filterMap.mp hs'
  split at hdims
  · rename_i hinput
    obtain ⟨i, hi⟩ := List.mem_iff_getElem?.mp hn
    obtain ⟨input, hinput⟩ := Option.isSome_iff_exists.mp hinput
    have hk : j.resolved.store.kind? i = some (.operand input) := by
      rw [kind_of_node hi]
      cases hkind : n.kind <;> simp_all [NodeKind.input?]
    rw [Plan.Planned.dims_of_layout hi, Option.some.injEq] at hdims
    obtain ⟨e, he, hlen⟩ := Option.bind_eq_some_iff.mp hlen
    refine ⟨s, hdims ▸ operand_axes hv hs hk, mem_names.mpr ⟨e, List.mem_of_find?_eq_some he, ?_⟩, ?_⟩
    · simpa using List.find?_some he
    · simp [lens, he, hlen]
  · cases hdims

theorem prepared (hf : t.functions = .builtins) (hs : t.source = d.source)
    (hj : t.prepare t.compile name target = .ok j) (h : d.Fits t.config.dimensionMap j) :
    Prepared t.resolution d j.resolved j.plan := by
  obtain ⟨hv, hp, -⟩ := prepare_planned (fun _ _ _ _ hb => Functions.bind_fit (hf ▸ hb)) hj
  refine ⟨hv, hf, hs, hp, h.sound, fun i input hk => h.distinct _ (operand_axes hv hs hk), ?_, h.small⟩
  intro x hx i input hk hmem
  obtain ⟨s, hsmem, hxs, hlen⟩ := domain_axes hv hp hs hx
  rw [h.agree x hx _ (operand_axes hv hs hk) s hsmem hmem hxs, hlen]

/-- The header of a job tells along which axis its chunks join. -/
theorem assemble_chunks (h : Prepared t.resolution d j.resolved j.plan)
    (hheader : j.header = Job.headerOf j.resolved j.plan t.config.provenance) {es : List (Nat × Grid Double)}
    (hc : (Prepared.engine t.resolution j.resolved j.plan).Complete es) {u : Field}
    (hu : (Prepared.whole t.resolution j.resolved).value j.plan.root = some u) :
    es.map (·.1) = List.range j.plan.outputChunks ∧
      Memory.assemble ⟨j.header, es.map (·.2)⟩ =
        .ok ((Prepared.whole t.resolution j.resolved).array j.resolved.root u) := by
  have hroot : j.plan.root = j.resolved.root := h.planned.root
  have hdims : j.header.dims = j.resolved.store.dims j.resolved.root := by
    obtain ⟨n, hn⟩ := exists_node h.resolved.root
    obtain ⟨-, a, ha, -⟩ := h.resolved.typed.node _ n hn
    simp [hheader, Job.headerOf, NodeStore.dims, layout?, hn, ha]
  have hchunk : j.header.chunkDimension = if j.plan.rootStreamed then j.plan.dimension else none := by
    rw [hheader]
    rfl
  unfold Engine.Complete at hc
  unfold Plan.outputChunks
  split at hc
  · rename_i hs
    have hs' : j.plan.rootStreamed = true := hs
    obtain ⟨x, hx, hmem, hconcat⟩ := h.chunks_join hs hc hu
    rw [hroot] at hmem hconcat
    refine ⟨by rw [hs', if_pos rfl]; exact hc.1, ?_⟩
    have hne : es.map (·.2) ≠ [] := by
      intro hnil
      rw [hnil] at hconcat
      cases hconcat
    obtain ⟨g, gs, hgs⟩ := List.exists_cons_of_ne_nil hne
    rw [hgs] at hconcat ⊢
    simp only [Memory.assemble, hchunk, hs', if_true, hx, Option.bind_some, hdims, position_of_mem hmem, hconcat]
    rfl
  · rename_i hs
    have hs' : j.plan.rootStreamed = false := Bool.eq_false_iff.mpr hs
    obtain ⟨g, rfl, hg⟩ := hc
    have hg' : Prepared.partOf j.resolved j.plan none j.plan.root u = g := by
      have hagree := h.agreement j.plan.root none (fun n hn => by cases hn) (.inl rfl)
      rw [hu] at hagree
      exact Option.some.inj (hagree.symm.trans hg)
    refine ⟨by rw [hs']; rfl, ?_⟩
    simp only [Memory.assemble, hchunk, hs', Bool.false_eq_true, if_false, Option.bind_none, List.map_singleton]
    rw [← hg', hroot]
    rfl

/-- However a variable is cut, its run succeeds exactly if whole arrays have values for all nodes. Its chunks
    are then all there, in order, and assembled they are the value of the root. -/
theorem run_eq_whole (hf : t.functions = .builtins) (hs : t.source = d.source)
    (hj : t.prepare t.compile name target = .ok j) (h : d.Fits t.config.dimensionMap j) :
    let run := (Engine.ofVariable j.resolved j.plan t.source t.converter).run
    let whole : Evaluator := ⟨j.resolved.store, t.functions, t.source, t.converter⟩
    ((∃ n, run.outcome = .ok n) ↔ ∃ us, whole.values? = some us) ∧
      ∀ us, whole.values? = some us → ∃ u, us[j.resolved.root]? = some u ∧
        run.emitted.map (·.1) = List.range j.plan.outputChunks ∧
        Memory.assemble ⟨j.header, run.emitted.map (·.2)⟩ = .ok (whole.array j.resolved.root u) := by
  intro run whole
  have hp := prepared hf hs hj h
  obtain ⟨-, -, hheader⟩ := prepare_planned (fun _ _ _ _ hb => Functions.bind_fit (hf ▸ hb)) hj
  have hemits : run.Emits _ _ := Engine.run_emits hp.ordered
  unfold Traced.Emits at hemits
  cases hrun : run.outcome with
  | error f =>
    rw [hrun] at hemits
    have hnone : whole.values? = none := hp.values_of_lacks hemits.2
    refine ⟨⟨fun ⟨n, hn⟩ => (by cases hn), fun ⟨us, hus⟩ => ?_⟩, fun us hus => ?_⟩
    · cases hnone.symm.trans hus
    · cases hnone.symm.trans hus
  | ok n =>
    rw [hrun] at hemits
    have hvalued := hp.root_valued hemits.2
    obtain ⟨us, hus⟩ := Option.isSome_iff_exists.mp (hp.values_of_root hvalued)
    obtain ⟨u, hu⟩ := Option.isSome_iff_exists.mp hvalued
    have husu : us[j.resolved.root]? = some u := by
      rw [← hp.planned.root, ← hu]
      exact getElem?_of_mapM_range hus (hp.planned.root ▸ hp.resolved.root)
    refine ⟨⟨fun _ => ⟨us, hus⟩, fun _ => ⟨n, rfl⟩⟩, fun us' hus' => ?_⟩
    cases hus.symm.trans hus'
    exact ⟨u, husu, assemble_chunks hp hheader hemits.2 hu⟩

/-- Temperatures of three times, in chunks of two, less their mean. -/
def anomalyInputs : Dataset :=
  .ofList [("tas", ⟨⟨[⟨"time", some 3⟩], "K", .empty⟩, ⟨[3], #[1, 2, 4], rfl⟩⟩)]

def anomaly : Conformance where
  standard := .ofList [("anomaly", ⟨["time"], "K", .empty⟩)]
  definitions := .ofList [("anomaly", "tas - mean(tas, dim='time')")]
  source := anomalyInputs.source
  config := { Config.standard with chunkLength := some 2 }
  functions := .builtins
  converter := Measure.linear

def anomalyJob : Job :=
  (anomaly.prepare anomaly.compile "anomaly" ⟨["time"], "K", .empty⟩).toOption.get (by decide +kernel)

theorem anomaly_fits : anomalyInputs.Fits anomaly.config.dimensionMap anomalyJob := by
  refine ⟨fun name x hx => ?_, by decide +kernel, fun x hx => ?_, by decide +kernel⟩
  · have hget : anomalyInputs.get? name = if "tas" = name then anomalyInputs.get? "tas" else none := rfl
    rw [hget] at hx
    split at hx <;> cases hx
    rfl
  · have : anomalyJob.plan.dimension = some "time" := by decide +kernel
    cases this.symm.trans hx
    decide +kernel

theorem run_eq_whole_anomaly :
    anomalyJob.plan.passes = 2 ∧ anomalyJob.plan.chunks = [(0, 2), (2, 3)] ∧
      let run := (Engine.ofVariable anomalyJob.resolved anomalyJob.plan anomaly.source anomaly.converter).run
      let whole : Whole.Evaluator := ⟨anomalyJob.resolved.store, anomaly.functions, anomaly.source, anomaly.converter⟩
      ∃ us u, whole.values? = some us ∧ us[anomalyJob.resolved.root]? = some u ∧
        run.emitted.map (·.1) = List.range 2 ∧
        Memory.assemble ⟨anomalyJob.header, run.emitted.map (·.2)⟩ = .ok (whole.array anomalyJob.resolved.root u) := by
  have hj : anomaly.prepare anomaly.compile "anomaly" ⟨["time"], "K", .empty⟩ = .ok anomalyJob :=
    toOption_eq_some.mp (Option.some_get _).symm
  obtain ⟨hiff, hvalues⟩ := run_eq_whole (t := anomaly) rfl rfl hj anomaly_fits
  have hsome : (Whole.Evaluator.values?
      ⟨anomalyJob.resolved.store, anomaly.functions, anomaly.source, anomaly.converter⟩).isSome = true := by
    decide +kernel
  obtain ⟨us, hus⟩ := Option.isSome_iff_exists.mp hsome
  obtain ⟨u, hu, hindices, harray⟩ := hvalues us hus
  have hchunks : anomalyJob.plan.outputChunks = 2 := by decide +kernel
  exact ⟨by decide +kernel, by decide +kernel, us, u, hus, hu, hchunks ▸ hindices, harray⟩

end Conformance
end Concord
