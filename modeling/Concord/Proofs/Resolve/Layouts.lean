import Mathlib.Logic.Relation
import Concord.Proofs.Graph.Reachable
import Concord.Proofs.Resolve.Resolved

/-! What is known of the nodes of a resolved graph follows from what is known of their parents. A node
    that is added with what follows is either new, behind all others, or there with just that: nothing
    that is known of a node is ever replaced by something else. -/

namespace Concord.Resolution

open NodeStore

variable {c : Context} {s t u : NodeStore} {kind : NodeKind} {parents : List Nat} {a b : Layout}

/-! ### Nodes as arguments -/

/-- What is known of a node as an argument of a call. -/
def operandOf (s : NodeStore) (id : Nat) : Except Failure Operand := do
  let a ← layoutOf s id
  .ok ⟨a.dims, a.unit, (s.kind? id).any NodeKind.isLiteral⟩

theorem operandsOf_eq (s : NodeStore) (parents : List Nat) : operandsOf s parents = parents.mapM (operandOf s) := rfl

theorem layoutOf_iff {id : Nat} : layoutOf s id = .ok a ↔ s.layout? id = some a := by
  unfold layoutOf
  cases s.layout? id with
  | none => exact ⟨fun h => (by cases h), fun h => (by cases h)⟩
  | some b => exact ⟨fun h => congrArg some (Except.ok.inj h), fun h => congrArg Except.ok (Option.some.inj h)⟩

theorem operandOf_eq_ok {id : Nat} {o : Operand} (h : operandOf s id = .ok o) :
    ∃ a, s.layout? id = some a ∧ o = ⟨a.dims, a.unit, (s.kind? id).any NodeKind.isLiteral⟩ := by
  obtain ⟨a, ha, h⟩ := bind_eq_ok.mp h
  exact ⟨a, layoutOf_iff.mp ha, (Except.ok.inj h).symm⟩

theorem operandOf_of_layout {id : Nat} (h : s.layout? id = some a) :
    operandOf s id = .ok ⟨a.dims, a.unit, (s.kind? id).any NodeKind.isLiteral⟩ :=
  bind_eq_ok.mpr ⟨a, layoutOf_iff.mpr h, rfl⟩

theorem lt_of_operandOf {id : Nat} {o : Operand} (h : operandOf s id = .ok o) : id < s.count := by
  obtain ⟨a, ha, -⟩ := operandOf_eq_ok h
  obtain ⟨n, hn, -⟩ := Option.bind_eq_some_iff.mp ha
  exact lt_count hn

/-- The same is known of a node of one graph and a node of another. -/
structure Alike (s : NodeStore) (i : Nat) (t : NodeStore) (j : Nat) : Prop where
  layout : t.layout? j = s.layout? i
  kind : t.kind? j = s.kind? i

theorem Alike.operandOf {i j : Nat} (h : Alike s i t j) {o : Operand} (ho : operandOf s i = .ok o) :
    operandOf t j = .ok o := by
  obtain ⟨a, ha, rfl⟩ := operandOf_eq_ok ho
  rw [← h.kind]
  exact operandOf_of_layout (h.layout.trans ha)

/-! ### What follows for a node -/

/-- What is known of a node that does something to some parents: it has the axes and the unit that are
    inferred from theirs, and no parent has to be converted for it. -/
inductive LayoutOf (c : Context) (s : NodeStore) : NodeKind → List Nat → Layout → Prop
  | literal {x : Double} : LayoutOf c s (.literal x) [] ⟨[], "1"⟩
  | operand {name : String} {m : InputMetadata} (hm : c.source.describe name = some m) :
      LayoutOf c s (.operand name) [] ⟨Signature.renamed m.dims c.dimensionMap, m.unit⟩
  | convert {p : Nat} {a : Layout} {source target : String} (hp : s.layout? p = some a)
      (hsource : a.unit = source) (haccepts : c.converter.accepts source target = true) :
      LayoutOf c s (.convert source target) [p] ⟨a.dims, target⟩
  | transpose {p : Nat} {a : Layout} {order : Permutation} {target : List String} (hp : s.layout? p = some a)
      (horder : Signature.permutationTo a.dims target = some order) :
      LayoutOf c s (.transpose order) [p] ⟨order.apply a.dims, a.unit⟩
  | call {function : String} {options : CallOptions} {parents : List Nat} {f : FunctionSpec}
      {operands : List Operand} {dims : Signature} {unit : String}
      (hf : c.functions.get? function parents.length = some f) (hkernel : f.kernel ≠ .convert)
      (hoperands : operandsOf s parents = .ok operands)
      (hdims : Typing.dims f.shape function operands options = .ok dims)
      (hunit : Typing.unit c.converter.accepts f.unit function operands options = .ok ⟨unit, []⟩) :
      LayoutOf c s (.call function options) parents ⟨dims, unit⟩

namespace LayoutOf

/-- It depends on what is known of the parents only, whatever their numbers are. -/
theorem renumber (ρ : Nat → Nat) (h : LayoutOf c s kind parents a) (hρ : ∀ p ∈ parents, Alike s p t (ρ p)) :
    LayoutOf c t kind (parents.map ρ) a := by
  cases h with
  | literal => exact .literal
  | operand hm => exact .operand hm
  | convert hp hsource haccepts =>
    exact .convert ((hρ _ (List.mem_singleton_self _)).layout.trans hp) hsource haccepts
  | transpose hp horder => exact .transpose ((hρ _ (List.mem_singleton_self _)).layout.trans hp) horder
  | call hf hkernel hoperands hdims hunit =>
    refine .call (by rwa [List.length_map]) hkernel ?_ hdims hunit
    rw [operandsOf_eq, mapM_eq_ok] at hoperands ⊢
    rw [List.forall₂_map_left_iff]
    refine (List.forall₂_and_left _ _ |>.mpr ⟨hρ, hoperands⟩).imp fun p o h => h.1.operandOf h.2

theorem congr (h : LayoutOf c s kind parents a) (hp : ∀ p ∈ parents, Alike s p t p) : LayoutOf c t kind parents a := by
  have := h.renumber id hp
  rwa [List.map_id] at this

/-- There is one possibility for it. -/
theorem unique (h : LayoutOf c s kind parents a) (h' : LayoutOf c s kind parents b) : a = b := by
  cases h with
  | literal => cases h'; rfl
  | operand hm =>
    cases h' with
    | operand hm' => rw [Option.some.inj (hm.symm.trans hm')]
  | convert hp =>
    cases h' with
    | convert hp' => rw [Option.some.inj (hp.symm.trans hp')]
  | transpose hp =>
    cases h' with
    | transpose hp' => rw [Option.some.inj (hp.symm.trans hp')]
  | call hf _ hoperands hdims hunit =>
    cases h' with
    | call hf' _ hoperands' hdims' hunit' =>
      cases hf.symm.trans hf'
      cases hoperands.symm.trans hoperands'
      cases hdims.symm.trans hdims'
      cases hunit.symm.trans hunit'
      rfl

/-- The parents are there. -/
theorem parents_known (h : LayoutOf c s kind parents a) : ∀ p ∈ parents, ∃ b, s.layout? p = some b := by
  cases h with
  | literal | operand => exact fun p hp => absurd hp List.not_mem_nil
  | convert hp | transpose hp => exact fun p hmem => List.mem_singleton.mp hmem ▸ ⟨_, hp⟩
  | call _ _ hoperands =>
    intro p hp
    rw [operandsOf_eq, mapM_eq_ok] at hoperands
    obtain ⟨i, hi, rfl⟩ := List.getElem_of_mem hp
    obtain ⟨b, hb, -⟩ := operandOf_eq_ok (hoperands.get hi (hoperands.length_eq ▸ hi))
    exact ⟨b, hb⟩

end LayoutOf

/-! ### Graphs -/

/-- The parents of every node stand before it, and what is known of it follows from what is known of them. -/
def LaidOut (c : Context) (s : NodeStore) : Prop :=
  ∀ i n, s.node? i = some n → (∀ p ∈ n.parents, p < i) ∧ ∃ a, n.layout = some a ∧ LayoutOf c s n.kind n.parents a

theorem LaidOut.parentsBelow (hs : LaidOut c s) : s.ParentsBelow := by
  intro i p hp
  cases hn : s.node? i with
  | none => simp [NodeStore.parents, hn] at hp
  | some n => exact (hs i n hn).1 p (parents_of_node hn ▸ hp)

/-- `t` has the nodes of `s`, unchanged, and possibly more behind them. -/
def Keeps (s t : NodeStore) : Prop := s.nodes <+: t.nodes

/-- A node is added with what is known of it. -/
structure Adds (c : Context) (s t : NodeStore) : Prop where
  added : ∃ kind parents a, LayoutOf c s kind parents a ∧ t = (s.addWithLayout kind parents a).1
  keeps : Keeps s t

/-- Nodes are added, one after the other. -/
abbrev Grows (c : Context) : NodeStore → NodeStore → Prop := Relation.ReflTransGen (Adds c)

theorem Keeps.refl (s : NodeStore) : Keeps s s := List.prefix_rfl

theorem Keeps.keys (h : Keeps s t) : s.keys <+: t.keys := List.IsPrefix.map _ h

theorem Keeps.node (h : Keeps s t) {i : Nat} {n : Node} (hn : s.node? i = some n) : t.node? i = some n := by
  obtain ⟨more, hmore⟩ := h
  have hi : i < s.nodes.length := (List.getElem?_eq_some_iff.mp hn).1
  unfold NodeStore.node?
  rw [← hmore, List.getElem?_append_left hi]
  exact hn

theorem Keeps.alike (h : Keeps s t) {i : Nat} {a : Layout} (ha : s.layout? i = some a) : Alike s i t i := by
  obtain ⟨n, hn, -⟩ := Option.bind_eq_some_iff.mp ha
  have hn' := h.node hn
  constructor
  · unfold NodeStore.layout?
    rw [hn, hn']
  · rw [kind_of_node hn, kind_of_node hn']

theorem Grows.keeps (h : Grows c s t) : Keeps s t := by
  induction h with
  | refl => exact .refl s
  | tail _ h ih => exact List.IsPrefix.trans ih h.keeps

theorem Keeps.layoutOf (hk : Keeps s t) (h : LayoutOf c s kind parents a) : LayoutOf c t kind parents a :=
  h.congr fun p hp => by
    obtain ⟨b, hb⟩ := h.parents_known p hp
    exact hk.alike hb

theorem setLayout_eq_self {i : Nat} {n : Node} (hn : s.node? i = some n) (ha : n.layout = some a) :
    s.setLayout i a = s := by
  refine congrArg NodeStore.mk (List.ext_getElem? fun j => ?_)
  rw [List.getElem?_modify]
  cases hj : s.nodes[j]? with
  | none => rfl
  | some m =>
    rw [Option.map_eq_map, Option.map_some]
    split
    · rename_i hij
      subst hij
      cases hn.symm.trans hj
      rw [← ha]
    · rfl

/-- A node and what follows for it can be added to a graph, which loses nothing by that. -/
structure Added (c : Context) (s : NodeStore) (kind : NodeKind) (a : Layout) (r : NodeStore × Nat) : Prop where
  laidOut : LaidOut c r.1
  grows : Grows c s r.1
  layout : r.1.layout? r.2 = some a
  kind : r.1.kind? r.2 = some kind

theorem laidOut_append (hs : LaidOut c s) (h : LayoutOf c s kind parents a) :
    LaidOut c ⟨s.nodes ++ [⟨kind, parents, some a⟩]⟩ := by
  have hkeeps : Keeps s ⟨s.nodes ++ [⟨kind, parents, some a⟩]⟩ := List.prefix_append _ _
  intro i n hn
  rcases node_of_append hn with hn | ⟨rfl, rfl⟩
  · obtain ⟨hbelow, b, hb, hlayout⟩ := hs i n hn
    exact ⟨hbelow, b, hb, hkeeps.layoutOf hlayout⟩
  · refine ⟨fun p hp => ?_, a, rfl, hkeeps.layoutOf h⟩
    obtain ⟨b, hb⟩ := h.parents_known p hp
    obtain ⟨m, hm, -⟩ := Option.bind_eq_some_iff.mp hb
    exact lt_count hm

/-- What is known of a node is never replaced: a node that is there already has what is said of it. -/
theorem added_addWithLayout (hs : LaidOut c s) (h : LayoutOf c s kind parents a) :
    Added c s kind a (s.addWithLayout kind parents a) := by
  have hadds : ∀ {r}, s.addWithLayout kind parents a = r → Keeps s r.1 → Grows c s r.1 := fun heq hkeeps =>
    .single ⟨⟨kind, parents, a, h, congrArg Prod.fst heq.symm⟩, hkeeps⟩
  cases hl : s.lookup kind parents with
  | some id =>
    obtain ⟨n, hn, rfl, rfl⟩ := lookup_some hl
    obtain ⟨-, b, hb, hlayout⟩ := hs id n hn
    cases hlayout.unique h
    have heq := addWithLayout_hit (a := a) hl
    rw [setLayout_eq_self hn hb] at heq
    refine heq ▸ ⟨hs, hadds heq (.refl s), ?_, kind_of_node hn⟩
    unfold NodeStore.layout?
    rw [hn]
    exact hb
  | none =>
    have heq := addWithLayout_miss (a := a) hl
    have hself : NodeStore.node? ⟨s.nodes ++ [⟨kind, parents, some a⟩]⟩ s.count = some ⟨kind, parents, some a⟩ :=
      node_append_self
    refine heq ▸ ⟨laidOut_append hs h, hadds heq (List.prefix_append _ _), ?_, kind_of_node hself⟩
    unfold NodeStore.layout?
    rw [hself]
    rfl

end Concord.Resolution
