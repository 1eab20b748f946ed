import Concord.Resolve.Resolution

/-! Typed graphs: the parents of a node stand before it, nodes are told apart by what they do to which
    parents, and the axes of a node follow from those of its parents. Adding a typed node keeps a graph
    typed. -/

namespace Concord

/-! ### Adding to a graph -/

namespace NodeStore
variable {s t u : NodeStore} {kind : NodeKind} {parents : List Nat} {i : Nat} {n : Node}

/-- What tells a node from others. -/
def keys (s : NodeStore) : List (NodeKind × List Nat) := s.nodes.map fun n => (n.kind, n.parents)

theorem lt_count (h : s.node? i = some n) : i < s.count := (List.getElem?_eq_some_iff.mp h).1

theorem exists_node (h : i < s.count) : ∃ n, s.node? i = some n := ⟨_, List.getElem?_eq_getElem h⟩

theorem parents_of_node (h : s.node? i = some n) : s.parents i = n.parents := by
  simp [NodeStore.parents, h]

theorem kind_of_node (h : s.node? i = some n) : s.kind? i = some n.kind := by simp [kind?, h]

theorem lt_of_kind (h : s.kind? i = some kind) : i < s.count := by
  obtain ⟨n, hn, -⟩ := Option.map_eq_some_iff.mp h
  exact lt_count hn

theorem dims_of_node {a : Layout} (h : s.node? i = some n) (ha : n.layout = some a) : s.dims i = a.dims := by
  simp [dims, layout?, h, ha]

theorem lookup_some {id : Nat} (h : s.lookup kind parents = some id) :
    ∃ n, s.node? id = some n ∧ n.kind = kind ∧ n.parents = parents := by
  obtain ⟨hlt, hp, -⟩ := List.findIdx?_eq_some_iff_getElem.mp h
  exact ⟨_, List.getElem?_eq_getElem hlt, of_decide_eq_true hp⟩

theorem lookup_none (h : s.lookup kind parents = none) : (kind, parents) ∉ s.keys := by
  intro hmem
  obtain ⟨n, hn, heq⟩ := List.mem_map.mp hmem
  have := List.findIdx?_eq_none_iff.mp h n hn
  cases heq
  simp at this

/-- `t` has the nodes of `s`, with the same axes, and possibly more. -/
structure Grown (s t : NodeStore) : Prop where
  count : s.count ≤ t.count
  node : ∀ i n, s.node? i = some n →
    ∃ n', t.node? i = some n' ∧ n'.kind = n.kind ∧ n'.parents = n.parents
  dims : ∀ i, i < s.count → t.dims i = s.dims i

theorem Grown.refl (s : NodeStore) : Grown s s := ⟨Nat.le_refl _, fun _ n h => ⟨n, h, rfl, rfl⟩, fun _ _ => rfl⟩

theorem Grown.trans (h₁ : Grown s t) (h₂ : Grown t u) : Grown s u where
  count := Nat.le_trans h₁.count h₂.count
  node i n h := by
    obtain ⟨n', hn', hk, hp⟩ := h₁.node i n h
    obtain ⟨n'', hn'', hk', hp'⟩ := h₂.node i n' hn'
    exact ⟨n'', hn'', hk'.trans hk, hp'.trans hp⟩
  dims i h := (h₂.dims i (Nat.lt_of_lt_of_le h h₁.count)).trans (h₁.dims i h)

/-! ### Layouts -/

theorem node_setLayout {a : Layout} {id : Nat} :
    (s.setLayout id a).node? i = (s.node? i).map fun n => if id = i then { n with layout := some a } else n := by
  unfold setLayout node?
  rw [List.getElem?_modify]
  split <;> rfl

@[simp] theorem count_setLayout {a : Layout} {id : Nat} : (s.setLayout id a).count = s.count := by
  simp [setLayout, count]

@[simp] theorem keys_setLayout {a : Layout} {id : Nat} : (s.setLayout id a).keys = s.keys := by
  refine List.ext_getElem? fun i => ?_
  unfold keys
  rw [List.getElem?_map, List.getElem?_map]
  have h : (s.setLayout id a).node? i = _ := node_setLayout
  unfold node? at h
  rw [h]
  cases s.nodes[i]? with
  | none => rfl
  | some n =>
    simp only [Option.map_some]
    split <;> rfl

theorem dims_setLayout_self {a : Layout} (h : i < s.count) : (s.setLayout i a).dims i = a.dims := by
  obtain ⟨n, hn⟩ := exists_node h
  have hnode : (s.setLayout i a).node? i = some { n with layout := some a } := by
    rw [node_setLayout, hn, Option.map_some, if_pos rfl]
  exact dims_of_node hnode rfl

theorem dims_setLayout_ne {a : Layout} {id : Nat} (h : id ≠ i) : (s.setLayout id a).dims i = s.dims i := by
  unfold dims layout?
  rw [node_setLayout]
  cases s.node? i with
  | none => rfl
  | some n => rw [Option.map_some, if_neg h]

/-! ### Adding -/

theorem addWithLayout_hit {a : Layout} {id : Nat} (h : s.lookup kind parents = some id) :
    s.addWithLayout kind parents a = (s.setLayout id a, id) := by
  simp [addWithLayout, add, h]

theorem addWithLayout_miss {a : Layout} (h : s.lookup kind parents = none) :
    s.addWithLayout kind parents a = (⟨s.nodes ++ [⟨kind, parents, some a⟩]⟩, s.count) := by
  simp only [addWithLayout, add, h, setLayout, count]
  congr 2
  refine List.ext_getElem? fun i => ?_
  rw [List.getElem?_modify]
  rcases Nat.lt_trichotomy i s.nodes.length with hi | hi | hi
  · rw [List.getElem?_append_left hi, List.getElem?_append_left hi]
    simp only [if_neg (Nat.ne_of_gt hi)]
    exact Option.map_id_apply
  · subst hi
    simp
  · have hle : s.nodes.length + 1 ≤ i := hi
    rw [List.getElem?_eq_none (by simpa using hle), List.getElem?_eq_none (by simpa using hle)]
    rfl

theorem keys_append (s : NodeStore) (n : Node) : keys ⟨s.nodes ++ [n]⟩ = s.keys ++ [(n.kind, n.parents)] :=
  List.map_append

/-- A node that is added is there with its parents, and all others are where they were. -/
theorem keys_add (s : NodeStore) (kind : NodeKind) (parents : List Nat) :
    s.keys <+: (s.add kind parents).1.keys ∧
      (s.add kind parents).1.keys[(s.add kind parents).2]? = some (kind, parents) := by
  unfold add
  cases hl : s.lookup kind parents with
  | some id =>
    obtain ⟨n, hn, rfl, rfl⟩ := lookup_some hl
    refine ⟨List.prefix_rfl, ?_⟩
    dsimp only
    rw [keys, List.getElem?_map, show s.nodes[id]? = some n from hn]
    rfl
  | none =>
    dsimp only
    rw [keys_append]
    refine ⟨List.prefix_append _ _, ?_⟩
    rw [List.getElem?_append_right (by simp [keys, count])]
    simp [keys, count]

theorem keys_addWithLayout (s : NodeStore) (kind : NodeKind) (parents : List Nat) (a : Layout) :
    (s.addWithLayout kind parents a).1.keys[(s.addWithLayout kind parents a).2]? = some (kind, parents) := by
  have hkeys := (keys_add s kind parents).2
  unfold addWithLayout
  dsimp only
  rwa [keys_setLayout]

theorem node_of_key (hn : s.node? i = some n) (hkey : s.keys[i]? = some (kind, parents)) : n.kind = kind ∧ n.parents = parents := by
  rw [keys, List.getElem?_map, show s.nodes[i]? = some n from hn] at hkey
  cases hkey
  exact ⟨rfl, rfl⟩

theorem node_append_left {more : List Node} (h : i < s.count) :
    NodeStore.node? ⟨s.nodes ++ more⟩ i = s.node? i := List.getElem?_append_left h

theorem node_append_self : NodeStore.node? ⟨s.nodes ++ [n]⟩ s.count = some n := List.getElem?_concat_length

theorem dims_append_left {more : List Node} (h : i < s.count) :
    NodeStore.dims ⟨s.nodes ++ more⟩ i = s.dims i := by
  unfold dims layout?
  rw [node_append_left h]

theorem count_append : NodeStore.count ⟨s.nodes ++ [n]⟩ = s.count + 1 := List.length_append

/-- A node of a graph to which one was added was there before, or is that one. -/
theorem node_of_append {m : Node} (h : NodeStore.node? ⟨s.nodes ++ [n]⟩ i = some m) :
    s.node? i = some m ∨ i = s.count ∧ m = n := by
  have hi := lt_count h
  rw [count_append] at hi
  rcases Nat.lt_or_eq_of_le (Nat.le_of_lt_succ hi) with hi | rfl
  · exact .inl (node_append_left hi ▸ h)
  · exact .inr ⟨rfl, (Option.some.inj (node_append_self.symm.trans h)).symm⟩

theorem parents_of_le (h : s.count ≤ i) : s.parents i = [] := by
  have hnone : s.node? i = none := List.getElem?_eq_none h
  rw [NodeStore.parents, hnone]
  rfl

theorem lt_of_mem_parents {p : Nat} (h : p ∈ s.parents i) : i < s.count :=
  Nat.lt_of_not_le fun hle => List.not_mem_nil (parents_of_le hle ▸ h)

theorem parents_append (s : NodeStore) (n : Node) (i : Nat) :
    NodeStore.parents ⟨s.nodes ++ [n]⟩ i = if i = s.count then n.parents else s.parents i := by
  rcases Nat.lt_trichotomy i s.count with hi | rfl | hi
  · rw [if_neg (Nat.ne_of_lt hi), NodeStore.parents, NodeStore.parents, node_append_left hi]
  · rw [if_pos rfl, parents_of_node node_append_self]
  · have hle : NodeStore.count ⟨s.nodes ++ [n]⟩ ≤ i := Nat.le_trans (Nat.le_of_eq count_append) hi
    rw [if_neg (Nat.ne_of_gt hi), parents_of_le (Nat.le_of_lt hi), parents_of_le hle]

theorem grown_append (more : List Node) : Grown s ⟨s.nodes ++ more⟩ where
  count := by simp [count]
  node _ n h := ⟨n, (node_append_left (lt_count h)).trans h, rfl, rfl⟩
  dims _ h := dims_append_left h

end NodeStore

/-! ### Axes -/

/-- The axes of a node that does something to some parents, whose axes are given by `dims`. `Fit` tells
    which options a call of a function has. -/
inductive AxesOf (c : Resolution.Context) (Fit : String → CallOptions → Prop) (dims : Nat → Signature) :
    NodeKind → List Nat → Signature → Prop
  | literal {x : Double} : AxesOf c Fit dims (.literal x) [] []
  | operand {name : String} {m : InputMetadata} (h : c.source.describe name = some m) :
      AxesOf c Fit dims (.operand name) [] (Signature.renamed m.dims c.dimensionMap)
  | convert {source target : String} {p : Nat} (h : c.converter.accepts source target = true) :
      AxesOf c Fit dims (.convert source target) [p] (dims p)
  | transpose {p : Nat} {order : Permutation} {target : List String}
      (h : Signature.permutationTo (dims p) target = some order) :
      AxesOf c Fit dims (.transpose order) [p] (order.apply (dims p))
  | call {function : String} {options : CallOptions} {parents : List Nat} {f : FunctionSpec}
      {out : Signature} (hf : c.functions.get? function parents.length = some f)
      (hkernel : f.kernel ≠ .convert) (hfit : Fit function options)
      (hdims : Typing.dims f.shape function (parents.map fun p => ⟨dims p, "", false⟩) options = .ok out) :
      AxesOf c Fit dims (.call function options) parents out

section
variable {c : Resolution.Context} {Fit : String → CallOptions → Prop} {dims dims' : Nat → Signature}
  {kind : NodeKind} {parents : List Nat} {out out' : Signature}

/-- The axes depend on those of the parents only, whatever their numbers are. -/
theorem AxesOf.renumber (ρ : Nat → Nat) (h : AxesOf c Fit dims kind parents out)
    (hd : ∀ p ∈ parents, dims' (ρ p) = dims p) : AxesOf c Fit dims' kind (parents.map ρ) out := by
  cases h with
  | literal => exact .literal
  | operand h => exact .operand h
  | @convert _ _ p h =>
    rw [← hd p (List.mem_singleton_self p)]
    exact .convert h
  | @transpose p _ _ h =>
    rw [← hd p (List.mem_singleton_self p)] at h ⊢
    exact .transpose h
  | call hf hkernel hfit hdims =>
    refine .call (by rwa [List.length_map]) hkernel hfit ?_
    rw [← hdims, List.map_map]
    refine congrArg (Typing.dims _ _ · _) (List.map_congr_left fun p hp => ?_)
    rw [Function.comp_apply, hd p hp]

theorem AxesOf.congr (h : AxesOf c Fit dims kind parents out) (hd : ∀ p ∈ parents, dims' p = dims p) :
    AxesOf c Fit dims' kind parents out := by
  have := h.renumber id hd
  rwa [List.map_id] at this

/-- There is one possibility for them. -/
theorem AxesOf.unique (h : AxesOf c Fit dims kind parents out) (h' : AxesOf c Fit dims kind parents out') :
    out = out' := by
  cases h with
  | literal => cases h'; rfl
  | operand hm =>
    cases h' with
    | operand hm' => rw [Option.some.inj (hm.symm.trans hm')]
  | convert => cases h'; rfl
  | transpose => cases h'; rfl
  | call hf _ _ hdims =>
    cases h' with
    | call hf' _ _ hdims' =>
      cases hf.symm.trans hf'
      exact Except.ok.inj (hdims.symm.trans hdims')

end

/-- The parents of a node stand before it, and its axes follow from theirs. -/
def NodeTyped (c : Resolution.Context) (Fit : String → CallOptions → Prop) (s : NodeStore) (i : Nat)
    (n : Node) : Prop :=
  (∀ p ∈ n.parents, p < i) ∧ ∃ a, n.layout = some a ∧ AxesOf c Fit s.dims n.kind n.parents a.dims

/-- Every node is typed, and no two do the same. -/
structure Typed (c : Resolution.Context) (Fit : String → CallOptions → Prop) (s : NodeStore) : Prop where
  distinct : s.keys.Nodup
  node : ∀ i n, s.node? i = some n → NodeTyped c Fit s i n

namespace Typed
variable {c : Resolution.Context} {Fit : String → CallOptions → Prop} {s t : NodeStore} {kind : NodeKind}
  {parents : List Nat} {i : Nat} {a : Layout}

theorem empty : Typed c Fit .empty := ⟨List.nodup_nil, fun _ _ h => by cases h⟩

theorem parents_lt (h : Typed c Fit s) {p : Nat} (hp : p ∈ s.parents i) : p < i := by
  cases hn : s.node? i with
  | none => simp [NodeStore.parents, hn] at hp
  | some n => exact (h.node i n hn).1 p (NodeStore.parents_of_node hn ▸ hp)

theorem axes (h : Typed c Fit s) {n : Node} (hn : s.node? i = some n) :
    AxesOf c Fit s.dims n.kind n.parents (s.dims i) := by
  obtain ⟨-, a, ha, haxes⟩ := h.node i n hn
  rwa [NodeStore.dims_of_node hn ha]

/-- An input has no parents, and the axes that its source gives it, renamed. -/
theorem operand (h : Typed c Fit s) {name : String} (hk : s.kind? i = some (.operand name)) :
    s.parents i = [] ∧ ∃ m, c.source.describe name = some m ∧ s.dims i = Signature.renamed m.dims c.dimensionMap := by
  obtain ⟨n, hn, hkind⟩ := Option.map_eq_some_iff.mp hk
  have haxes := h.axes hn
  rw [hkind, ← NodeStore.parents_of_node hn] at haxes
  generalize s.dims i = out, s.parents i = parents at haxes
  cases haxes with
  | operand hm => exact ⟨rfl, _, hm, rfl⟩

/-- What is known once a node was added to a graph. -/
structure Added (c : Resolution.Context) (Fit : String → CallOptions → Prop) (s : NodeStore)
    (kind : NodeKind) (out : Signature) (r : NodeStore × Nat) : Prop where
  typed : Typed c Fit r.1
  grown : s.Grown r.1
  lt : r.2 < r.1.count
  dims : r.1.dims r.2 = out
  here : r.1.kind? r.2 = some kind
  old : ∀ i k, r.1.kind? i = some k → s.kind? i = some k ∨ k = kind

/-- A node that is there may be added again. -/
theorem setLayout (h : Typed c Fit s) {n : Node} (hn : s.node? i = some n) (ha : s.dims i = a.dims) :
    Added c Fit s n.kind a.dims (s.setLayout i a, i) := by
  have hlt := NodeStore.lt_count hn
  have hdims : ∀ j, (s.setLayout i a).dims j = s.dims j := by
    intro j
    by_cases hj : i = j
    · subst hj
      rw [NodeStore.dims_setLayout_self hlt, ha]
    · exact NodeStore.dims_setLayout_ne hj
  have hnode : (s.setLayout i a).node? i = some { n with layout := some a } := by
    rw [NodeStore.node_setLayout, hn, Option.map_some, if_pos rfl]
  refine ⟨⟨?_, fun j m hm => ?_⟩, ⟨?_, fun j m hm => ?_, fun j _ => hdims j⟩, ?_, ?_, ?_,
    fun j k hk => .inl ?_⟩
  · rw [NodeStore.keys_setLayout]
    exact h.distinct
  · rw [NodeStore.node_setLayout] at hm
    obtain ⟨m', hm', rfl⟩ := Option.map_eq_some_iff.mp hm
    obtain ⟨hbelow, b, hb, haxes⟩ := h.node j m' hm'
    by_cases hj : i = j
    · subst hj
      rw [if_pos rfl]
      exact ⟨hbelow, a, rfl, ha ▸ NodeStore.dims_of_node hm' hb ▸ haxes.congr fun p _ => hdims p⟩
    · rw [if_neg hj]
      exact ⟨hbelow, b, hb, haxes.congr fun p _ => hdims p⟩
  · exact Nat.le_of_eq NodeStore.count_setLayout.symm
  · rw [NodeStore.node_setLayout, hm]
    refine ⟨_, rfl, ?_, ?_⟩ <;> split <;> rfl
  · exact NodeStore.count_setLayout.symm ▸ hlt
  · exact (hdims i).trans ha
  · exact (NodeStore.kind_of_node hnode :)
  · unfold NodeStore.kind? at hk ⊢
    rw [NodeStore.node_setLayout] at hk
    cases hm : s.node? j with
    | none => rw [hm] at hk; cases hk
    | some m =>
      rw [hm] at hk
      rw [← hk]
      simp only [Option.map_some]
      split <;> rfl

theorem append (h : Typed c Fit s) (hnew : (kind, parents) ∉ s.keys) (hp : ∀ p ∈ parents, p < s.count)
    (ha : AxesOf c Fit s.dims kind parents a.dims) :
    Added c Fit s kind a.dims (⟨s.nodes ++ [⟨kind, parents, some a⟩]⟩, s.count) := by
  have hself : NodeStore.node? ⟨s.nodes ++ [⟨kind, parents, some a⟩]⟩ s.count = some ⟨kind, parents, some a⟩ :=
    NodeStore.node_append_self
  refine ⟨⟨?_, fun i n hn => ?_⟩, NodeStore.grown_append _, ?_, NodeStore.dims_of_node hself rfl,
    NodeStore.kind_of_node hself, fun i k hk => ?_⟩
  · unfold NodeStore.keys
    rw [List.map_append]
    refine List.nodup_append.mpr ⟨h.distinct, List.pairwise_singleton _ _, fun x hx y hy hxy => ?_⟩
    rw [List.map_singleton, List.mem_singleton] at hy
    exact hnew (hy ▸ hxy ▸ hx)
  · rcases NodeStore.node_of_append hn with hn | ⟨rfl, rfl⟩
    · obtain ⟨hbelow, b, hb, haxes⟩ := h.node i n hn
      exact ⟨hbelow, b, hb, haxes.congr fun p hp =>
        NodeStore.dims_append_left (Nat.lt_trans (hbelow p hp) (NodeStore.lt_count hn))⟩
    · exact ⟨hp, a, rfl, ha.congr fun p h => NodeStore.dims_append_left (hp p h)⟩
  · rw [NodeStore.count_append]
    exact Nat.lt_succ_self _
  · obtain ⟨n, hn, rfl⟩ := Option.map_eq_some_iff.mp hk
    exact (NodeStore.node_of_append hn).imp NodeStore.kind_of_node fun h => congrArg Node.kind h.2

/-- A typed node can be added, whether it is there or not. -/
theorem addWithLayout (h : Typed c Fit s) (hp : ∀ p ∈ parents, p < s.count)
    (ha : AxesOf c Fit s.dims kind parents a.dims) :
    Added c Fit s kind a.dims (s.addWithLayout kind parents a) := by
  cases hl : s.lookup kind parents with
  | some id =>
    obtain ⟨n, hn, rfl, rfl⟩ := NodeStore.lookup_some hl
    rw [NodeStore.addWithLayout_hit hl]
    exact h.setLayout hn ((h.axes hn).unique ha)
  | none =>
    rw [NodeStore.addWithLayout_miss hl]
    exact h.append (NodeStore.lookup_none hl) hp ha

end Typed
end Concord
