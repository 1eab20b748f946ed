import Concord.Proofs.Evaluate.Roles
import Concord.Proofs.Evaluate.Settling
import Concord.Proofs.Resolve.Compaction
import Concord.Proofs.Resolve.Shapes

/-! The plan of a resolved variable puts its nodes in the order that a run needs. -/

namespace Concord

open NodeStore Signature

namespace Plan.Planned

variable {functions : Functions} {v : ResolvedVariable} {plan : Plan} {i : Nat}

/-! ### Roles -/

theorem role_of_le (h : Planned functions v plan) (hi : v.store.count ≤ i) : plan.role i = ⟨false, 0, none, none⟩ := by
  unfold Plan.role
  rw [List.getD_eq_getElem?_getD, List.getElem?_eq_none (h.length.symm ▸ hi)]
  rfl

theorem accumulates_lt (h : Planned functions v plan) (ha : plan.accumulates i = true) : i < v.store.count := by
  by_contra hi
  unfold Plan.accumulates at ha
  rw [h.role_of_le (Nat.le_of_not_lt hi)] at ha
  cases ha

theorem dims_of_layout {s : NodeStore} {n : Node} (hn : s.node? i = some n) :
    (n.layout.map (·.dims)).getD [] = s.dims i := by
  simp [NodeStore.dims, layout?, hn]

theorem streamed_eq (h : Planned functions v plan) (i : Nat) :
    plan.streamed i = plan.dimension.any fun d => Signature.named (v.store.dims i) d := by
  rcases Nat.lt_or_ge i v.store.count with hi | hi
  · obtain ⟨n, hn⟩ := exists_node hi
    have hrole := h.role i n hn
    rw [← dims_of_layout hn]
    unfold Plan.streamed
    generalize plan.role i = r at hrole
    cases hrole <;> rfl
  · unfold Plan.streamed
    rw [h.role_of_le hi, dims_of_le hi]
    cases plan.dimension <;> rfl

theorem streamed_iff (h : Planned functions v plan) :
    plan.streamed i = true ↔ ∃ d, plan.dimension = some d ∧ d ∈ (v.store.dims i).names := by
  rw [h.streamed_eq]
  cases plan.dimension with
  | none => simp
  | some d => simp [named_iff]

theorem streamed_along (h : Planned functions v plan) {d : String} (hd : plan.dimension = some d) :
    plan.streamed i = true ↔ d ∈ (v.store.dims i).names := by
  rw [h.streamed_eq, hd]
  exact named_iff

theorem any_streamed (plan : Plan) (p : Nat) : (plan.roles[p]?).any (·.streamed) = plan.streamed p := by
  unfold Plan.streamed Plan.role
  rw [List.getD_eq_getElem?_getD]
  cases plan.roles[p]? <;> rfl

theorem role_level (plan : Plan) (p : Nat) : ((plan.roles[p]?).map (·.level)).getD 0 = (plan.role p).level := by
  unfold Plan.role
  rw [List.getD_eq_getElem?_getD]
  cases plan.roles[p]? <;> rfl

/-- The level of a node that does not accumulate is not below those of its parents. -/
theorem level_le (plan : Plan) {parents : List Nat} {p : Nat} (hp : p ∈ parents) :
    (plan.role p).level ≤ levelOf plan.roles parents false := by
  unfold levelOf
  rw [if_neg Bool.false_ne_true, ← role_level]
  exact (foldl_max_le_iff.mp (Nat.le_refl _)).2 _ (List.mem_map_of_mem hp)

theorem level_succ (plan : Plan) {p : Nat} {rest : List Nat} :
    levelOf plan.roles (p :: rest) true = (plan.role p).level + 1 := by
  unfold levelOf
  rw [if_pos rfl, List.getD_cons_zero]
  exact congrArg (· + 1) (role_level plan p)

/-- What is known of the role of a call. -/
structure CallRole (functions : Functions) (v : ResolvedVariable) (plan : Plan) (i : Nat) (function : String)
    (options : CallOptions) (f : FunctionSpec) : Prop where
  found : functions.get? function (v.store.parents i).length = some f
  kernel : (plan.role i).kernel = some f.kernel
  carried : (plan.role i).carried = carriedAxis v.store plan.dimension plan.roles f options (v.store.parents i)
  level : (plan.role i).level =
    levelOf plan.roles (v.store.parents i) ((plan.role i).carried.isSome && f.shape = .reduce)

theorem call (h : Planned functions v plan) {n : Node} (hn : v.store.node? i = some n) {function : String}
    {options : CallOptions} (hk : n.kind = .call function options) :
    ∃ f, CallRole functions v plan i function options f := by
  have hrole := h.role i n hn
  generalize hr : plan.role i = r at hrole
  cases hrole with
  | @call function' options' f carried hk' hf hc =>
    cases hk.symm.trans hk'
    have hp := parents_of_node hn
    exact ⟨f, by rw [hp, hf], by rw [hr], by rw [hr, hp]; exact hc, by rw [hr, hp]⟩
  | other hk' => exact absurd hk (hk' _ _)

theorem other (h : Planned functions v plan) {n : Node} (hn : v.store.node? i = some n)
    (hk : ∀ function options, n.kind ≠ .call function options) :
    (plan.role i).kernel = none ∧ (plan.role i).carried = none ∧
      (plan.role i).level = levelOf plan.roles (v.store.parents i) false := by
  have hrole := h.role i n hn
  generalize hr : plan.role i = r at hrole
  cases hrole with
  | call hk' => exact absurd hk' (hk _ _)
  | other _ => exact ⟨rfl, rfl, by rw [parents_of_node hn]⟩

end Plan.Planned

namespace Plan

variable {s : NodeStore}

theorem dims_mem_inputDims {i : Nat} {name : String} (hk : s.kind? i = some (.operand name)) :
    s.dims i ∈ inputDims s := by
  obtain ⟨n, hn, hkind⟩ := Option.map_eq_some_iff.mp hk
  refine List.mem_filterMap.mpr ⟨n, List.mem_of_getElem? hn, ?_⟩
  rw [hkind, Planned.dims_of_layout hn]
  rfl

theorem mem_inputDims {t : Signature} (h : t ∈ inputDims s) :
    ∃ i name, s.kind? i = some (.operand name) ∧ t = s.dims i := by
  obtain ⟨n, hn, hdims⟩ := List.mem_filterMap.mp h
  obtain ⟨i, hi⟩ := List.mem_iff_getElem?.mp hn
  split at hdims
  · rename_i hinput
    rw [Planned.dims_of_layout hi] at hdims
    cases hk : n.kind with
    | operand name => exact ⟨i, name, hk ▸ kind_of_node hi, (Option.some.inj hdims).symm⟩
    | _ => rw [hk] at hinput; cases hinput
  · cases hdims

/-- All nodes of a typed graph get a role: the functions of its calls are known. -/
theorem exists_roles {c : Resolution.Context} {Fit : String → CallOptions → Prop} (ht : Typed c Fit s)
    (dimension : Option String) : ∃ p, s.nodes.foldlM (addRole c.functions s dimension) ⟨[], none⟩ = .ok p := by
  refine foldlM_total (fun n hn p => ?_) _
  obtain ⟨i, hi⟩ := List.mem_iff_getElem?.mp hn
  have haxes := ht.axes hi
  unfold addRole
  cases hk : n.kind with
  | call function options =>
    rw [hk] at haxes
    cases haxes with
    | call hf => exact ⟨_, by simp only [hf]; rfl⟩
  | _ => exact ⟨_, rfl⟩

end Plan

/-! ### Order -/

/-- Functions that take away an axis, or go along one, have one array. -/
def Functions.Single (functions : Functions) : Prop :=
  ∀ f ∈ functions.specs, f.shape = .reduce ∨ f.shape = .scan → f.arity = 1

theorem Functions.builtins_single : Functions.builtins.Single := by
  unfold Functions.Single
  decide

namespace Engine

open Plan Plan.Planned

variable {c : Resolution.Context} {Fit : String → CallOptions → Prop} {v : ResolvedVariable} {plan : Plan}
  {i : Nat}

theorem firstDims_map {p : Nat} {rest : List Nat} (dims : Nat → Signature) :
    Typing.firstDims ((p :: rest).map fun p => ⟨dims p, "", false⟩) = dims p := rfl

/-- A call that carries state along the dimension that is cut. -/
theorem carried_call (ht : Typed c Fit v.store) (h : Planned c.functions v plan) {n : Node}
    (hn : v.store.node? i = some n) {function : String} {options : CallOptions}
    (hk : n.kind = .call function options) {f : FunctionSpec}
    (hf : CallRole c.functions v plan i function options f) {axis : Nat}
    (hc : (plan.role i).carried = some axis) :
    ∃ p rest, v.store.parents i = p :: rest ∧ plan.streamed p = true ∧
      (f.shape = .reduce ∧ plan.streamed i = false ∨ f.shape = .scan ∧ plan.streamed i = true) := by
  obtain ⟨d, p, rest, hd, hp, hshape, hdim, hs, haxis⟩ := carriedAxis_eq_some (hf.carried.symm.trans hc)
  rw [any_streamed] at hs
  refine ⟨p, rest, hp, hs, ?_⟩
  have haxes := ht.axes hn
  rw [hk] at haxes
  have hnp := parents_of_node hn
  cases haxes with
  | call hf' _ _ hdims =>
    cases (hf.found.symm.trans (hnp.symm ▸ hf'))
    obtain ⟨d', hd', hmem, hout⟩ := dims_along hshape hdims
    cases hd.symm.trans hd'
    rw [← hnp, hp, firstDims_map] at hmem hout
    rcases hshape with hshape | hshape
    · refine .inl ⟨hshape, ?_⟩
      rw [hshape, if_pos rfl] at hout
      rw [Bool.eq_false_iff]
      intro hsi
      have hin := (h.streamed_along hdim).mp hsi
      rw [hout] at hin
      exact not_mem_without _ _ hin
    · refine .inr ⟨hshape, ?_⟩
      rw [hshape, if_neg (by decide)] at hout
      rw [h.streamed_along hdim, hout]
      exact hmem

/-- A reduction along the dimension that is cut is fed with its first array, which is streamed, and comes one level
    later. -/
theorem reduction_call (ht : Typed c Fit v.store) (h : Planned c.functions v plan) (ha : plan.accumulates i = true) :
    ∃ f p others, f ∈ c.functions.specs ∧ f.shape = .reduce ∧ f.arity = (p :: others).length ∧
      v.store.parents i = p :: others ∧ plan.streamed p = true ∧ (plan.role i).level = (plan.role p).level + 1 := by
  obtain ⟨n, hn⟩ := exists_node (h.accumulates_lt ha)
  obtain ⟨hc, hs⟩ := Bool.and_eq_true_iff.mp ha
  obtain ⟨axis, hc⟩ := Option.isSome_iff_exists.mp hc
  rw [Bool.not_eq_true'] at hs
  by_cases hk : ∀ function options, n.kind ≠ .call function options
  · rw [(h.other hn hk).2.1] at hc
    cases hc
  · simp only [not_forall, not_not] at hk
    obtain ⟨function, options, hk⟩ := hk
    obtain ⟨f, hf⟩ := h.call hn hk
    obtain ⟨p, others, hp, hsp, hcase⟩ := carried_call ht h hn hk hf hc
    obtain ⟨hshape, -⟩ := hcase.resolve_right fun hr => by rw [hr.2] at hs; cases hs
    obtain ⟨hmem, -, harity⟩ := Functions.get?_eq_some hf.found
    refine ⟨f, p, others, hmem, hshape, harity.trans (congrArg _ hp), hp, hsp, ?_⟩
    rw [hf.level, hc, hshape, hp]
    exact level_succ plan

/-- Any other node has the largest level of its parents. -/
theorem level_of_not_accumulates (ht : Typed c Fit v.store) (h : Planned c.functions v plan) (hi : i < v.store.count)
    (ha : plan.accumulates i = false) : (plan.role i).level = levelOf plan.roles (v.store.parents i) false := by
  obtain ⟨n, hn⟩ := exists_node hi
  by_cases hk : ∀ function options, n.kind ≠ .call function options
  · exact (h.other hn hk).2.2
  · simp only [not_forall, not_not] at hk
    obtain ⟨function, options, hk⟩ := hk
    obtain ⟨f, hf⟩ := h.call hn hk
    have hnot : ((plan.role i).carried.isSome && decide (f.shape = .reduce)) = false := by
      rw [Bool.and_eq_false_iff]
      cases hc : (plan.role i).carried with
      | none => exact .inl rfl
      | some axis =>
        obtain ⟨_, _, _, _, hcase⟩ := carried_call ht h hn hk hf hc
        rcases hcase with ⟨-, hs⟩ | ⟨hshape, -⟩
        · unfold Plan.accumulates at ha
          rw [hc, hs] at ha
          cases ha
        · exact .inr (by rw [hshape]; rfl)
    rw [hf.level, hnot]

/-- The plan of a resolved variable orders its nodes if reductions along the dimension that is cut have one array. -/
theorem ordered_of_fed (hv : Resolution.Resolved c Fit v) (h : Planned c.functions v plan)
    (hone : ∀ i, plan.accumulates i = true → (v.store.parents i).length = 1) (source : Source)
    (converter : Measure.Converter) : (Engine.ofVariable v plan source converter).Ordered := by
  have hb : v.store.ParentsBelow := fun i p hp => hv.typed.parents_lt hp
  have hlevel : ∀ i, plan.accumulates i = false → ∀ p ∈ v.store.parents i, (plan.role p).level ≤ (plan.role i).level := by
    intro i ha p hp
    rcases Nat.lt_or_ge i v.store.count with hi | hi
    · rw [level_of_not_accumulates hv.typed h hi ha]
      exact level_le plan hp
    · exact absurd hp (by simp [NodeStore.parents, node?, List.getElem?_eq_none hi])
  have hfed : ∀ i, plan.accumulates i = true → ∃ p, v.store.parents i = [p] ∧ plan.streamed p = true ∧
      (plan.role i).level = (plan.role p).level + 1 := by
    intro i ha
    obtain ⟨f, p, others, -, -, -, hp, hsp, hl⟩ := reduction_call hv.typed h ha
    have hlength := hone i ha
    rw [hp, List.length_cons] at hlength
    cases List.eq_nil_of_length_eq_zero (Nat.succ.inj hlength)
    exact ⟨p, hp, hsp, hl⟩
  have hlast : ∀ i, i < v.store.count → (plan.role i).level ≤ (plan.role v.root).level := by
    refine hv.connected _ (Nat.le_refl _) fun i hi p hp => Nat.le_trans ?_ hi
    cases ha : plan.accumulates i with
    | false => exact hlevel i ha p hp
    | true =>
      obtain ⟨q, hq, -, hl⟩ := hfed i ha
      rw [hq, List.mem_singleton] at hp
      rw [hp, hl]
      exact Nat.le_succ _
  obtain ⟨length, hpos, hchunks⟩ := h.chunks
  refine ⟨hb, fun i => h.accumulates_lt, hlevel, hfed, ?_, fun i ha => ?_, h.passes, ?_⟩
  · show plan.root < _
    rw [h.root]
    exact hv.root
  · show _ ≤ (plan.role plan.root).level
    rw [h.root]
    exact hlast i (h.accumulates_lt ha)
  · show 0 < plan.chunks.length
    rw [hchunks]
    exact cut_pos _ hpos

/-- So it does if functions that take away an axis have one array. -/
theorem ordered_of_reductions (hv : Resolution.Resolved c Fit v) (h : Planned c.functions v plan)
    (hsingle : ∀ f ∈ c.functions.specs, f.shape = .reduce → f.arity = 1) (source : Source)
    (converter : Measure.Converter) : (Engine.ofVariable v plan source converter).Ordered := by
  refine ordered_of_fed hv h (fun i ha => ?_) source converter
  obtain ⟨f, p, others, hmem, hshape, harity, hp, -⟩ := reduction_call hv.typed h ha
  rw [hp, ← harity, hsingle f hmem hshape]

theorem ordered (hv : Resolution.Resolved c Fit v) (h : Planned c.functions v plan)
    (hsingle : c.functions.Single) (source : Source) (converter : Measure.Converter) :
    (Engine.ofVariable v plan source converter).Ordered :=
  ordered_of_reductions hv h (fun f hf hshape => hsingle f hf (.inl hshape)) source converter

end Engine
end Concord
