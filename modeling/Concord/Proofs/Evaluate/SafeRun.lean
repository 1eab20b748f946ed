import Concord.Proofs.Evaluate.Faults
import Concord.Proofs.Evaluate.WholeRun

/-! Variables that are resolved and planned do not go wrong: a run ends well, or with a reduction of nothing,
    and every value that it computes has the shape that its node says, cut to the chunk along the dimension
    that is cut. -/

namespace Concord

open Grid Whole Signature Window NodeStore

/-- What a converter accepts it can convert. -/
def Measure.Converter.Able (converter : Measure.Converter) : Prop :=
  ∀ source target, converter.accepts source target = true → (converter.conversion source target).isSome = true

theorem Measure.linear_able : Measure.linear.Able := by
  intro source target h
  change (conversion source target).isSome = true
  unfold conversion
  rcases Bool.or_eq_true_iff.mp h with h | h
  · rw [if_pos h]
    rfl
  · split
    · rfl
    · rw [Option.isSome_map]
      exact h

namespace Prepared

open Traced Engine

variable {c : Resolution.Context} {d : Dataset} {v : ResolvedVariable} {plan : Plan} {i : Nat}
  {key : Option Nat} {n : Node} {us : List Field}

theorem throws_of_toOption {ε α : Type} {B : ε → Prop} {t : Traced ε α} {x : Option α} (h : t.outcome.toOption = x)
    (hx : x.isSome = true) : t.Throws B := by
  obtain ⟨a, rfl⟩ := Option.isSome_iff_exists.mp hx
  exact throws_of_ok (toOption_eq_some.mp h)

/-! ### Single nodes -/

theorem pointwise_isSome {e : Elementwise} {options : CallOptions} {dims : Nat → Signature} {out : Signature}
    {ps : List Nat} (h : CallShape options dims out (.map e) ps) (hlen : us.length = ps.length) :
    (pointwise e options us).isSome = true := by
  cases h with
  | unary he hpower =>
    obtain ⟨u, rfl⟩ := List.length_eq_one_iff.mp hlen
    obtain ⟨g, hg⟩ := Elementwise.single_isSome hpower
    rw [pointwise, hg]
    rfl
  | binary he =>
    obtain ⟨u, w, rfl⟩ := List.length_eq_two.mp hlen
    rw [pointwise, he]
    rfl

theorem reduce_throws {function : String} {options : CallOptions} {f : FunctionSpec} {r : Reduction} {p : Nat}
    {x : String} (h : Prepared c d v plan) (hn : v.store.node? i = some n)
    (hc : Calls c v plan i function options f) (hr : f.kernel = .reduce r) (hp : v.store.parents i = [p])
    (hd : options.text? "dim" = some x) (hx : x ∈ (v.store.dims p).names) (g : Grid Double) :
    (Traced.ofExcept ((engine c v plan).call i function options [g])).Throws Emptiness := by
  refine throws_ofExcept fun fault hfault => ?_
  unfold Engine.call at hfault
  rw [show ((engine c v plan).plan.role i).kernel = some (.reduce r) from hr ▸ hc.role.kernel] at hfault
  dsimp only at hfault
  rw [h.along_eq hn hp hd hx] at hfault
  change ((Accumulator.start r).feed g _).finish.mapError EvaluationFault.kernel = .error fault at hfault
  cases hfinish : ((Accumulator.start r).feed g ((v.store.dims p).names.idxOf x)).finish with
  | ok g' =>
    rw [hfinish] at hfault
    cases hfault
  | error reason =>
    rw [hfinish] at hfault
    cases hfault
    exact congrArg EvaluationFault.kernel (finish_eq_error hfinish)

/-- A reduction of one array. -/
structure Reduces (c : Resolution.Context) (v : ResolvedVariable) (plan : Plan) (i : Nat) (function : String)
    (options : CallOptions) (f : FunctionSpec) (r : Reduction) (p : Nat) (x : String) : Prop where
  kind : v.store.kind? i = some (.call function options)
  calls : Calls c v plan i function options f
  kernel : f.kernel = .reduce r
  parents : v.store.parents i = [p]
  along : options.text? "dim" = some x
  mem : x ∈ (v.store.dims p).names

theorem call_isSome (h : Prepared c d v plan) {function : String} {options : CallOptions}
    (hn : v.store.node? i = some n) (hk : n.kind = .call function options)
    (hlen : us.length = (v.store.parents i).length) :
    ((whole c v).node i us).isSome = true ∨ ∃ f r p x, Reduces c v plan i function options f r p x := by
  obtain ⟨f, hc⟩ := h.calls hn hk
  have hnode : (whole c v).node i us =
      Whole.call f.kernel options (v.store.dims ((v.store.parents i).headD 0)) us := by
    have hkind : (whole c v).store.kind? i = some (.call function options) := hk ▸ kind_of_node hn
    have hget : (whole c v).functions.get? function us.length = some f := hlen ▸ hc.role.found
    simp only [Evaluator.node, hkind, hget, Option.bind_some]
    rfl
  rw [hnode]
  have hshape := hc.shape
  cases hkf : f.kernel with
  | map e =>
    rw [hkf] at hshape
    exact .inl (pointwise_isSome hshape hlen)
  | reduce r =>
    rw [hkf] at hshape
    generalize hps : v.store.parents i = ps at hshape
    cases hshape with
    | reduce hd hx => exact .inr ⟨f, r, _, _, hk ▸ kind_of_node hn, hc, hkf, hps, hd, hx⟩
  | scan sc =>
    rw [hkf] at hshape
    generalize hps : v.store.parents i = ps at hshape hlen
    cases hshape with
    | scan hd hx =>
      obtain ⟨u, rfl⟩ := List.length_eq_one_iff.mp hlen
      simp only [Whole.call, hd]
      exact .inl rfl
  | convert =>
    rw [hkf] at hshape
    cases hshape

/-- A node makes something of whole arrays, unless it is a reduction. -/
theorem node_isSome (h : Prepared c d v plan) (hable : c.converter.Able) (hn : v.store.node? i = some n)
    (hlen : us.length = (v.store.parents i).length) :
    ((whole c v).node i us).isSome = true ∨
      ∃ function options f r p x, Reduces c v plan i function options f r p x := by
  have hkind : (whole c v).store.kind? i = some n.kind := kind_of_node hn
  have haxes := h.resolved.typed.axes hn
  rw [parents_of_node hn] at hlen
  generalize v.store.dims i = out at haxes
  generalize hps : n.parents = ps at haxes
  rw [hps] at hlen
  cases hk : n.kind with
  | literal x =>
    rw [hk] at hkind
    simp only [Evaluator.node, hkind]
    exact .inl rfl
  | operand name =>
    obtain ⟨y, hy⟩ := h.held (hk ▸ hkind)
    rw [hk] at hkind
    simp only [Evaluator.node, hkind, h.fetch_whole hy]
    exact .inl rfl
  | convert source target =>
    rw [hk] at hkind haxes
    cases haxes with
    | convert haccepts =>
      obtain ⟨u, rfl⟩ := List.length_eq_one_iff.mp hlen
      simp only [Evaluator.node, hkind, Option.isSome_map]
      exact .inl (hable source target haccepts)
  | transpose order =>
    rw [hk] at hkind haxes
    cases haxes with
    | transpose =>
      obtain ⟨u, rfl⟩ := List.length_eq_one_iff.mp hlen
      simp only [Evaluator.node, hkind]
      exact .inl rfl
  | call function options =>
    rw [← hps, ← parents_of_node hn] at hlen
    exact (h.call_isSome hn hk hlen).imp_right fun hr => ⟨function, options, hr⟩

/-- Of parts of arrays that the parents of a node have, the node makes something, unless it reduces nothing. -/
theorem evaluate_throws (h : Prepared c d v plan) (hable : c.converter.Able) (hn : v.store.node? i = some n)
    (hus : List.Forall₂ (fun p u => Supported (v.store.dims p).names u) (v.store.parents i) us)
    (hkey : ∀ n, key = some n → n < plan.chunks.length) (hs : key = none ∨ plan.streamed i = true)
    (hcarried : key = none ∨ (plan.role i).carried = none) :
    ((engine c v plan).evaluate i (List.zipWith (partOf v plan key) (v.store.parents i) us) key).Throws Emptiness := by
  rcases h.node_isSome hable hn hus.length_eq.symm with hsome | ⟨function, options, f, r, p, x, hr⟩
  · exact throws_of_toOption (h.evaluate_part hn hus hkey hs hcarried) (by rw [Option.isSome_map]; exact hsome)
  · rw [hr.parents] at hus ⊢
    obtain ⟨u, rfl⟩ := List.length_eq_one_iff.mp hus.length_eq.symm
    unfold Engine.evaluate
    rw [show (engine c v plan).store.kind? i = some (.call function options) from hr.kind]
    exact h.reduce_throws hn hr.calls hr.kernel hr.parents hr.along hr.mem _

/-! ### Engines of prepared variables -/

theorem sane (h : Prepared c d v plan) (hable : c.converter.Able) : (engine c v plan).Sane where
  ordered := h.ordered
  reduces i ha := by
    obtain ⟨axis, hc⟩ := carried_of_accumulates ha
    obtain ⟨n, hn⟩ := exists_node (h.ordered.inside i ha)
    obtain ⟨p, x, -, -, -, -, hcarries⟩ := h.carries hn hc
    cases hcarries with
    | reduce r hkernel => exact ⟨r, hkernel⟩
    | scan s _ hs =>
      rw [not_accumulates (e := engine c v plan) hs] at ha
      cases ha
  scans i axis hs hc := by
    have hi : i < v.store.count := by
      by_contra hge
      rw [show (engine c v plan).plan.role i = _ from h.planned.role_of_le (Nat.not_lt.mp hge)] at hc
      cases hc
    obtain ⟨n, hn⟩ := exists_node hi
    obtain ⟨p, x, hp, -, -, -, hcarries⟩ := h.carries hn hc
    cases hcarries with
    | reduce r _ hwhole => exact absurd (hwhole.symm.trans hs) Bool.false_ne_true
    | scan s hkernel => exact ⟨⟨s, hkernel⟩, p, hp⟩
  evaluates i key gs hi hkey hs hcarried hgs := by
    obtain ⟨n, hn⟩ := exists_node hi
    rw [h.inputs_part (fun p _ => h.agreement p) hkey] at hgs
    obtain ⟨us, hus, rfl⟩ := Option.map_eq_some_iff.mp hgs
    exact h.evaluate_throws hable hn (h.supported_all hus) hkey hs hcarried

end Prepared

/-! ### Shapes -/

/-- The length of an axis of a value: that of the chunk along the dimension that is cut, else the one that is
    known of it. -/
def Plan.extent (plan : Plan) (key : Option Nat) (d : Dimension) : Option Nat :=
  match key with
  | some c =>
    if plan.dimension = some d.name then some ((plan.chunks.getD c (0, 0)).2 - (plan.chunks.getD c (0, 0)).1)
    else d.length
  | none => d.length

theorem Window.shape_part (plan : Plan) (key : Option Nat) {s : Signature} (hs : s.Known) (u : Field) :
    (part (plan.windowFor key) s u).shape.map some = s.map (plan.extent key) := by
  unfold part
  rw [shape_tabulate, names, List.map_map, List.map_map]
  refine List.map_congr_left fun e he => ?_
  rw [Function.comp_apply, Function.comp_apply]
  cases key with
  | none => exact (hs.length he).symm
  | some n =>
    unfold Plan.windowFor Plan.extent
    cases hdim : plan.dimension with
    | none => exact (hs.length he).symm
    | some x =>
      dsimp only [lensIn]
      by_cases hx : x = e.name
      · rw [if_pos (congrArg some hx), hx, Function.update_self]
      · rw [if_neg fun heq => hx (Option.some.inj heq), Function.update_of_ne (Ne.symm hx)]
        exact (hs.length he).symm

theorem Prepared.computes_shape {c : Resolution.Context} {d : Dataset} {v : ResolvedVariable} {plan : Plan}
    (h : Prepared c d v plan) {key : Option Nat} {id : Nat} {g : Grid Double}
    (hg : (Prepared.engine c v plan).Computes key id g) :
    ∃ a, v.store.layout? id = some a ∧ g.shape.map some = a.dims.map (plan.extent key) := by
  obtain ⟨hvalue, hkey, hs⟩ := hg.value h.ordered
  rw [h.agreement id key hkey hs] at hvalue
  obtain ⟨u, hu, rfl⟩ := Option.map_eq_some_iff.mp hvalue
  cases hn : v.store.node? id with
  | none =>
    rw [h.value_eq] at hu
    obtain ⟨us, -, hu⟩ := Option.bind_eq_some_iff.mp hu
    rw [node_of_le hn] at hu
    cases hu
  | some n =>
    obtain ⟨-, a, ha, -⟩ := h.resolved.typed.node id n hn
    refine ⟨a, ?_, ?_⟩
    · unfold layout?
      rw [hn]
      exact ha
    · rw [← dims_of_node hn ha]
      exact Window.shape_part plan key (h.known id) u

/-! ### Tasks -/

/-- A consumer that takes everything does not change how an evaluation ends. -/
theorem Traced.deliver_outcome {ε α σ : Type} {consume : Nat → Grid Double → σ → σ × Option ε}
    (htakes : ∀ index value s, (consume index value s).2 = none) (t : Traced ε α) (s : σ) :
    (t.deliver consume s).outcome = t.outcome := by
  unfold Traced.deliver
  generalize t.events = events
  induction events generalizing s with
  | nil => rfl
  | cons event rest ih =>
    cases event with
    | read name bounds => exact ih s
    | emit index value =>
      have htake := htakes index value s
      rw [deliverEvents]
      generalize consume index value s = taken at htake
      obtain ⟨s', o⟩ := taken
      cases htake
      exact ih s'

namespace Conformance

variable {t : Conformance} {d : Dataset} {name : String} {target : Target} {j : Job}

/-- A variable that was resolved and planned, over arrays that fit it, does not go wrong: its run ends well or
    with a reduction over an empty dimension, and the values of all nodes have the shapes that are
    known of them. -/
theorem run_safe (hf : t.functions = .builtins) (hc : t.converter = Measure.linear) (hs : t.source = d.source)
    (hj : t.prepare t.compile name target = .ok j) (h : d.Fits t.config.dimensionMap j) :
    let engine := Engine.ofVariable j.resolved j.plan t.source t.converter
    (∀ {σ : Type} (consume : Nat → Grid Double → σ → σ × Option Failure),
      (∀ index value s, (consume index value s).2 = none) → ∀ s,
      (∃ chunks, (engine.run.deliver consume s).outcome = .ok chunks) ∨
        ∃ chunk, (engine.run.deliver consume s).outcome =
          .error (.chunkEvaluation chunk "reduction over an empty dimension")) ∧
      ∀ key id g, engine.Computes key id g → ∃ a, j.resolved.store.layout? id = some a ∧
        g.shape.map some = a.dims.map (j.plan.extent key) := by
  intro engine
  have hp := prepared hf hs hj h
  have hthrows : engine.run.Throws Engine.EmptinessInChunk :=
    Engine.run_throws (hp.sane (show t.converter.Able from hc ▸ Measure.linear_able))
  refine ⟨fun consume htakes s => ?_, fun key id g hg => hp.computes_shape hg⟩
  rw [Traced.deliver_outcome htakes]
  cases hrun : engine.run.outcome with
  | ok chunks => exact .inl ⟨chunks, rfl⟩
  | error f =>
    obtain ⟨chunk, rfl⟩ := hthrows f hrun
    exact .inr ⟨chunk, rfl⟩

def anomalyEngine : Engine :=
  Engine.ofVariable anomalyJob.resolved anomalyJob.plan anomaly.source anomaly.converter

/-- The temperatures are read in chunks of two. -/
theorem run_safe_anomaly :
    ((∃ chunks, (anomalyEngine.run.deliver (fun _ _ (s : Unit) => (s, none)) ()).outcome = .ok chunks) ∨
      ∃ chunk, (anomalyEngine.run.deliver (fun _ _ (s : Unit) => (s, none)) ()).outcome =
        .error (.chunkEvaluation chunk "reduction over an empty dimension")) ∧
      ∃ g, anomalyEngine.Computes (some 0) 0 g ∧ g.shape.map some = [some 2] := by
  have hj : anomaly.prepare anomaly.compile "anomaly" ⟨["time"], "K", .empty⟩ = .ok anomalyJob :=
    toOption_eq_some.mp (Option.some_get _).symm
  obtain ⟨hends, hshapes⟩ := run_safe rfl rfl rfl hj anomaly_fits
  have haccumulators : ((anomalyEngine.sinks 0).mapM anomalyEngine.accumulator).toOption.isSome = true := by
    decide +kernel
  have hvalue : (anomalyEngine.stepValue 0 0 [] (anomalyEngine.resetScans (anomalyEngine.schedule 0).steps
      anomalyEngine.initial.scans)).outcome.toOption.isSome = true := by
    decide +kernel
  obtain ⟨as, has⟩ := Option.isSome_iff_exists.mp haccumulators
  obtain ⟨⟨g, scans⟩, hg⟩ := Option.isSome_iff_exists.mp hvalue
  have hsteps : (anomalyEngine.schedule 0).steps = [0] := by decide +kernel
  have hcomputes : anomalyEngine.Computes (some 0) 0 g :=
    Engine.computes_first (by decide +kernel) (by decide +kernel) (toOption_eq_some.mp has) hsteps (by decide +kernel)
      (toOption_eq_some.mp hg)
  obtain ⟨a, ha, hshape⟩ := hshapes (some 0) 0 g hcomputes
  have hextent : ((anomalyJob.resolved.store.layout? 0).map fun a => a.dims.map (anomalyJob.plan.extent (some 0))) =
      some [some 2] := by
    decide +kernel
  rw [ha] at hextent
  exact ⟨hends _ (fun _ _ _ => rfl) (), g, hcomputes, hshape.trans (Option.some.inj hextent)⟩

end Conformance
end Concord
