import Concord.Proofs.Graph.Typed
import Concord.Proofs.Outcome

/-! Resolution makes typed graphs: every node that it adds has axes that follow from those of its
    parents, and every input that is read is noted with the axes that it has at the source. -/

namespace Concord.Resolution

variable {c : Context} {Fit : String → CallOptions → Prop}

theorem typing_dims_congr {rule : ShapeRule} {function : String} {xs ys : List Operand} {options : CallOptions}
    (h : xs.map (·.dims) = ys.map (·.dims)) :
    Typing.dims rule function xs options = Typing.dims rule function ys options := by
  have hfirst : Typing.firstDims xs = Typing.firstDims ys := by
    unfold Typing.firstDims
    rw [← List.head?_map, ← List.head?_map, h]
  unfold Typing.dims
  rw [h, hfirst]

theorem layoutOf_eq_ok {s : NodeStore} {id : Nat} {a : Layout} (h : layoutOf s id = .ok a) :
    id < s.count ∧ s.dims id = a.dims := by
  unfold layoutOf at h
  split at h
  · rename_i b hb
    cases h
    obtain ⟨n, hn, ha⟩ := Option.bind_eq_some_iff.mp hb
    exact ⟨NodeStore.lt_count hn, NodeStore.dims_of_node hn ha⟩
  · cases h

/-! ### Graphs that grow -/

/-- `t` is a typed graph that has the nodes of `s` and reads no other inputs. -/
structure Derived (c : Context) (Fit : String → CallOptions → Prop) (s t : NodeStore) : Prop where
  typed : Typed c Fit t
  grown : s.Grown t
  reads : ∀ i name, t.kind? i = some (.operand name) → ∃ i', s.kind? i' = some (.operand name)

/-- A node of a derived graph, and its axes. -/
structure Gives (c : Context) (Fit : String → CallOptions → Prop) (s : NodeStore) (out : Signature)
    (r : NodeStore × Nat) : Prop where
  derived : Derived c Fit s r.1
  lt : r.2 < r.1.count
  dims : r.1.dims r.2 = out

section
variable {s t : NodeStore} {r : NodeStore × Nat} {out : Signature} {id : Nat}

theorem Derived.refl (h : Typed c Fit s) : Derived c Fit s s := ⟨h, .refl s, fun i _ hi => ⟨i, hi⟩⟩

theorem Derived.trans {u : NodeStore} (h₁ : Derived c Fit s t) (h₂ : Derived c Fit t u) : Derived c Fit s u where
  typed := h₂.typed
  grown := h₁.grown.trans h₂.grown
  reads i name hi := by
    obtain ⟨i', hi'⟩ := h₂.reads i name hi
    exact h₁.reads i' name hi'

theorem Gives.trans (h₁ : Derived c Fit s t) (h₂ : Gives c Fit t out r) : Gives c Fit s out r :=
  ⟨h₁.trans h₂.derived, h₂.lt, h₂.dims⟩

theorem gives_of_added {k : NodeKind} (h : Typed.Added c Fit s k out r)
    (hkind : k.input? = none) : Gives c Fit s out r where
  derived := ⟨h.typed, h.grown, fun i name hi => (h.old i _ hi).elim (fun hi => ⟨i, hi⟩) fun hk => by
    subst hk
    cases hkind⟩
  lt := h.lt
  dims := h.dims

/-! ### Conversions -/

theorem convertNode_gives {target : String} (hs : Typed c Fit s) (h : convertNode c s id target = .ok r) :
    Gives c Fit s (s.dims id) r := by
  obtain ⟨a, ha, h⟩ := bind_eq_ok.mp h
  obtain ⟨hlt, hdims⟩ := layoutOf_eq_ok ha
  split at h
  · cases h
    exact ⟨.refl hs, hlt, rfl⟩
  · split at h
    · rename_i hacc
      cases h
      rw [hdims]
      refine gives_of_added (k := .convert a.unit target)
        (hs.addWithLayout (a := ⟨a.dims, target⟩) (fun p hp => ?_) ?_) rfl
      · rw [List.mem_singleton.mp hp]
        exact hlt
      · exact hdims ▸ AxesOf.convert hacc
    · cases h

theorem convertInputs_derived {conversions : List (Nat × String)} :
    ∀ {s : NodeStore} {inputs : List Nat} {r : NodeStore × List Nat}, Typed c Fit s →
      (∀ p ∈ inputs, p < s.count) → convertInputs c s inputs conversions = .ok r →
      Derived c Fit s r.1 ∧ (∀ p ∈ r.2, p < r.1.count) ∧ r.2.map r.1.dims = inputs.map s.dims := by
  induction conversions with
  | nil =>
    intro s inputs r hs hin h
    cases h
    exact ⟨.refl hs, hin, rfl⟩
  | cons p rest ih =>
    obtain ⟨i, target⟩ := p
    intro s inputs r hs hin h
    rw [convertInputs] at h
    obtain ⟨⟨t, id⟩, ht, h⟩ := bind_eq_ok.mp h
    have hgives := convertNode_gives hs ht
    have hgrown := hgives.derived.grown
    have hin' : ∀ p ∈ inputs.set i id, p < t.count := by
      intro p hp
      rcases List.mem_or_eq_of_mem_set hp with hp | rfl
      · exact Nat.lt_of_lt_of_le (hin p hp) hgrown.count
      · exact hgives.lt
    have hdims : (inputs.set i id).map t.dims = inputs.map s.dims := by
      refine List.ext_getElem (by simp) fun k hk hk' => ?_
      rw [List.length_map] at hk'
      rw [List.getElem_map, List.getElem_map, List.getElem_set]
      split
      · rename_i hik
        subst hik
        refine hgives.dims.trans ?_
        rw [List.getD_eq_getElem?_getD, List.getElem?_eq_getElem hk']
        rfl
      · exact hgrown.dims _ (hin _ (List.getElem_mem hk'))
    obtain ⟨hderived, hbelow, hd⟩ := ih hgives.derived.typed hin' h
    exact ⟨hgives.derived.trans hderived, hbelow, hd.trans hdims⟩

/-! ### Calls -/

theorem operandsOf_eq_ok {parents : List Nat} {operands : List Operand}
    (h : operandsOf s parents = .ok operands) :
    (∀ p ∈ parents, p < s.count) ∧ operands.map (·.dims) = parents.map s.dims := by
  unfold operandsOf at h
  replace h := mapM_eq_ok.mp h
  induction h with
  | nil => exact ⟨fun _ hp => (nomatch hp), rfl⟩
  | cons ha _ ih =>
    obtain ⟨a, ha, heq⟩ := bind_eq_ok.mp ha
    obtain ⟨hlt, hdims⟩ := layoutOf_eq_ok ha
    cases heq
    refine ⟨fun p hp => ?_, ?_⟩
    · rcases List.mem_cons.mp hp with rfl | hp
      · exact hlt
      · exact ih.1 p hp
    · rw [List.map_cons, List.map_cons, ih.2, hdims]

theorem addCall_gives {function : String} {options : CallOptions} {parents : List Nat} (hs : Typed c Fit s)
    (hfit : Fit function options) (h : addCall c s function options parents = .ok r) :
    ∃ out, Gives c Fit s out r := by
  unfold addCall at h
  split at h
  · cases h
  · rename_i f hf
    obtain ⟨operands, hops, h⟩ := bind_eq_ok.mp h
    obtain ⟨hbelow, hdims⟩ := operandsOf_eq_ok hops
    split at h
    · split at h
      · cases h
      · exact ⟨_, convertNode_gives hs h⟩
    · rename_i hk
      obtain ⟨out, hout, h⟩ := bind_eq_ok.mp h
      obtain ⟨outcome, -, h⟩ := bind_eq_ok.mp h
      obtain ⟨⟨t, inputs⟩, ht, h⟩ := bind_eq_ok.mp h
      obtain ⟨hderived, hin, heq⟩ := convertInputs_derived hs hbelow ht
      have hlen : inputs.length = parents.length := by simpa using congrArg List.length heq
      cases h
      refine ⟨out, .trans hderived (gives_of_added (k := .call function options)
        (hderived.typed.addWithLayout (a := ⟨out, outcome.unit⟩) hin ?_) rfl)⟩
      refine .call (hlen ▸ hf) hk hfit ?_
      rw [← hout]
      refine typing_dims_congr ?_
      rw [hdims, ← heq, List.map_map]
      rfl

/-! ### All nodes -/

/-- A graph before resolution: parents stand before their children, inputs and literals have none, and
    there are no conversions and reorderings. -/
def Lowered (Fit : String → CallOptions → Prop) (s : NodeStore) : Prop :=
  ∀ i n, s.node? i = some n → (∀ p ∈ n.parents, p < i) ∧
    match n.kind with
    | .literal _ => n.parents = []
    | .operand _ => n.parents = []
    | .call function options => Fit function options
    | _ => False

/-- The graph so far is typed, the new numbers are those of its nodes, and its inputs are noted. -/
structure Resolving (c : Context) (Fit : String → CallOptions → Prop) (p : Progress) : Prop where
  typed : Typed c Fit p.store
  below : ∀ id ∈ p.renumbered, id < p.store.count
  native : ∀ i name, p.store.kind? i = some (.operand name) → ∃ m, c.source.describe name = some m ∧
    p.native.get? name = some m.dims

theorem Resolving.below_concat {p : Progress} {id : Nat} (hp : Resolving c Fit p) (hgrown : NodeStore.Grown p.store t)
    (hid : id < t.count) : ∀ q ∈ p.renumbered ++ [id], q < t.count := by
  intro q hq
  rcases List.mem_append.mp hq with hq | hq
  · exact Nat.lt_of_lt_of_le (hp.below q hq) hgrown.count
  · rw [List.mem_singleton.mp hq]
    exact hid

theorem Resolving.gives {p : Progress} {id : Nat} {out : Signature} (hp : Resolving c Fit p)
    (h : Gives c Fit p.store out (t, id)) : Resolving c Fit ⟨t, p.renumbered ++ [id], p.native⟩ := by
  refine ⟨h.derived.typed, hp.below_concat h.derived.grown h.lt, fun i name hi => ?_⟩
  obtain ⟨i', hi'⟩ := h.derived.reads i name hi
  exact hp.native i' name hi'

/-- An input is noted with the axes that it has at the source. -/
theorem Resolving.input {p : Progress} {id : Nat} {name : String} {m : InputMetadata} {a : Signature} (hp : Resolving c Fit p)
    (hm : c.source.describe name = some m) (h : Typed.Added c Fit p.store (.operand name) a (t, id)) :
    Resolving c Fit ⟨t, p.renumbered ++ [id], p.native.insert name m.dims⟩ := by
  refine ⟨h.typed, hp.below_concat h.grown h.lt, fun i other hi => ?_⟩
  show ∃ m', c.source.describe other = some m' ∧ (p.native.insert name m.dims).get? other = some m'.dims
  rw [NameMap.get?_insert]
  rcases h.old i _ hi with hold | heq
  · obtain ⟨m', hm', hget⟩ := hp.native i other hold
    refine ⟨m', hm', ?_⟩
    split
    · rename_i heq
      subst heq
      rw [Option.some.inj (hm.symm.trans hm')]
    · exact hget
  · cases heq
    exact ⟨m, hm, if_pos rfl⟩

theorem addNode_resolving {p : Progress} {n : Node} {id : Nat} {native : NameMap Signature}
    (hp : Resolving c Fit p)
    (hkind : match n.kind with
      | .literal _ => n.parents = []
      | .operand _ => n.parents = []
      | .call function options => Fit function options
      | _ => False)
    (h : addNode c p n = .ok (t, id, native)) :
    Resolving c Fit ⟨t, p.renumbered ++ [id], native⟩ := by
  unfold addNode at h
  cases hk : n.kind with
  | literal x =>
    rw [hk] at h
    cases h
    exact hp.gives (gives_of_added (hp.typed.addWithLayout (fun _ hq => absurd hq List.not_mem_nil) .literal) rfl)
  | operand name =>
    rw [hk] at h
    dsimp only at h
    split at h
    · cases h
    · rename_i m hm
      cases h
      exact hp.input hm (hp.typed.addWithLayout (a := ⟨Signature.renamed m.dims c.dimensionMap, m.unit⟩)
        (fun _ hq => absurd hq List.not_mem_nil) (.operand hm))
  | call function options =>
    rw [hk] at h hkind
    obtain ⟨⟨u, i⟩, hu, h⟩ := bind_eq_ok.mp h
    obtain ⟨out, hgives⟩ := addCall_gives hp.typed hkind hu
    cases h
    exact hp.gives hgives
  | convert source target =>
    rw [hk] at hkind
    exact hkind.elim
  | transpose order =>
    rw [hk] at hkind
    exact hkind.elim

/-- Resolving all nodes of a graph makes a typed graph. -/
theorem steps_resolving {v : NodeStore} {p : Progress} (hv : Lowered Fit v)
    (h : v.nodes.foldlM (step c) ⟨.empty, [], .empty⟩ = .ok p) :
    Resolving c Fit p ∧ p.renumbered.length = v.count := by
  refine foldlM_induction (P := fun done p => Resolving c Fit p ∧ p.renumbered.length = done.length)
    v.nodes ?_ (show v.nodes = [] ++ v.nodes from rfl) ?_ h
  · rintro done n rest p p' hall ⟨hp, hlen⟩ hstep
    have hn : v.node? done.length = some n := by
      unfold NodeStore.node?
      rw [hall, List.getElem?_append_right (Nat.le_refl _), Nat.sub_self]
      rfl
    obtain ⟨-, hkind⟩ := hv done.length n hn
    obtain ⟨⟨t, id, native⟩, ht, h⟩ := bind_eq_ok.mp hstep
    cases h
    exact ⟨addNode_resolving hp hkind ht, by simp [hlen]⟩
  · exact ⟨⟨.empty, fun _ h => absurd h List.not_mem_nil, fun _ _ h => by cases h⟩, rfl⟩

/-! ### The layout of the target -/

theorem conformRoot_gives {target : Target} (hs : Typed c Fit s) (h : conformRoot c s id target = .ok r) :
    ∃ out, Gives c Fit s out r := by
  obtain ⟨⟨t, i⟩, ht, h⟩ := bind_eq_ok.mp h
  obtain ⟨a, ha, ht⟩ := bind_eq_ok.mp ht
  obtain ⟨hlt, hdims⟩ := layoutOf_eq_ok ha
  dsimp only at ht
  split at ht
  · cases ht
    exact ⟨_, convertNode_gives hs h⟩
  · split at ht
    · cases ht
    · rename_i order horder
      cases ht
      have hgives := gives_of_added (k := .transpose order)
        (hs.addWithLayout (a := ⟨order.apply a.dims, a.unit⟩) (fun p hp => List.mem_singleton.mp hp ▸ hlt)
          (hdims ▸ .transpose (hdims.symm ▸ horder))) rfl
      exact ⟨_, .trans hgives.derived (convertNode_gives hgives.derived.typed h)⟩

end
end Concord.Resolution
