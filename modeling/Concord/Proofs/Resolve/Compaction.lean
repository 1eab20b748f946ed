import Mathlib.Data.List.Basic
import Mathlib.Data.List.Nodup
import Concord.Proofs.Graph.Reachable
import Concord.Proofs.Resolve.Resolved

/-! Compaction keeps the nodes that the root depends on, in order, under new numbers. No two of them
    become one, so the root is the last one, and the graph stays typed. -/

namespace Concord.Resolution

open NodeStore

variable {c : Context} {Fit : String → CallOptions → Prop} {s : NodeStore}

/-- A node of a graph under the numbers that its parents have in a list. -/
def renumbered (s : NodeStore) (ids : List Nat) (id : Nat) : Node :=
  let n := (s.node? id).getD ⟨.literal 0, [], none⟩
  { n with parents := n.parents.map ids.idxOf }

/-- The nodes of a list under new numbers. -/
def selected (s : NodeStore) (ids : List Nat) : NodeStore := ⟨ids.map (renumbered s ids)⟩

/-- A list of nodes in order that has the parents of each of its nodes. -/
structure Closed (s : NodeStore) (ids : List Nat) : Prop where
  sorted : ids.Pairwise (· < ·)
  lt : ∀ id ∈ ids, id < s.count
  parents : ∀ id ∈ ids, ∀ p ∈ s.parents id, p ∈ ids

theorem closed_reachable (hb : s.ParentsBelow) (root : Nat) : Closed s (s.reachable root) where
  sorted := sorted_reachedThrough _
  lt _ h := (mem_reachedThrough.mp h).1
  parents _ h _ hp := parent_mem_reachedThrough hb h hp rfl

section
variable {ids : List Nat}

theorem Closed.nodup (h : Closed s ids) : ids.Nodup := h.sorted.imp Nat.ne_of_lt

theorem idxOf_lt_idxOf (hs : ids.Pairwise (· < ·)) {p id : Nat} (hp : p ∈ ids) (hid : id ∈ ids)
    (hlt : p < id) : ids.idxOf p < ids.idxOf id := by
  have hp' := List.idxOf_lt_length_of_mem hp
  have hid' := List.idxOf_lt_length_of_mem hid
  rcases Nat.lt_trichotomy (ids.idxOf p) (ids.idxOf id) with h | h | h
  · exact h
  · exact absurd ((List.idxOf_inj hp).mp h) (Nat.ne_of_lt hlt)
  · have := List.pairwise_iff_getElem.mp hs _ _ hid' hp' h
    rw [List.getElem_idxOf, List.getElem_idxOf] at this
    omega

theorem renumbered_of_node {id : Nat} {n : Node} (h : s.node? id = some n) :
    renumbered s ids id = { n with parents := n.parents.map ids.idxOf } := by
  unfold renumbered
  rw [h]
  rfl

@[simp] theorem count_selected : (selected s ids).count = ids.length := List.length_map _

theorem node_selected {i : Nat} (hi : i < ids.length) :
    (selected s ids).node? i = some (renumbered s ids ids[i]) := by
  unfold selected NodeStore.node?
  rw [List.getElem?_map, List.getElem?_eq_getElem hi]
  rfl

theorem exists_of_node_selected (h : Closed s ids) {i : Nat} {n' : Node}
    (hn : (selected s ids).node? i = some n') :
    ∃ (hi : i < ids.length) (n : Node), s.node? ids[i] = some n ∧
      n' = { n with parents := n.parents.map ids.idxOf } := by
  have hi : i < ids.length := count_selected (s := s) ▸ lt_count hn
  obtain ⟨n, hnode⟩ := exists_node (h.lt _ (List.getElem_mem hi))
  rw [node_selected hi, renumbered_of_node hnode] at hn
  exact ⟨hi, n, hnode, (Option.some.inj hn).symm⟩

theorem dims_selected (h : Closed s ids) {id : Nat} (hid : id ∈ ids) :
    (selected s ids).dims (ids.idxOf id) = s.dims id := by
  have hi := List.idxOf_lt_length_of_mem hid
  obtain ⟨n, hn⟩ := exists_node (h.lt id hid)
  unfold NodeStore.dims layout?
  rw [node_selected hi, List.getElem_idxOf hi, renumbered_of_node hn, hn]
  rfl

/-- Renumbering keeps nodes apart. -/
theorem map_idxOf_inj {xs ys : List Nat} (hx : xs ⊆ ids)
    (h : xs.map ids.idxOf = ys.map ids.idxOf) : xs = ys := by
  induction xs generalizing ys with
  | nil =>
    cases ys with
    | nil => rfl
    | cons y ys => cases h
  | cons x xs ih =>
    cases ys with
    | nil => cases h
    | cons y ys =>
      obtain ⟨h₁, h₂⟩ := List.cons.inj h
      rw [(List.idxOf_inj (hx List.mem_cons_self)).mp h₁, ih (fun z hz => hx (List.mem_cons_of_mem _ hz)) h₂]

theorem key_inj (hs : Typed c Fit s) {i j : Nat} {n m : Node} (hn : s.node? i = some n)
    (hm : s.node? j = some m) (hk : n.kind = m.kind) (hp : n.parents = m.parents) : i = j := by
  have hi : s.keys[i]? = some (n.kind, n.parents) := by
    unfold keys
    rw [List.getElem?_map, show s.nodes[i]? = some n from hn]
    rfl
  have hj : s.keys[j]? = some (n.kind, n.parents) := by
    unfold keys
    rw [List.getElem?_map, show s.nodes[j]? = some m from hm, hk, hp]
    rfl
  exact (List.getElem?_inj (List.getElem?_eq_some_iff.mp hi).1 hs.distinct).mp (hi.trans hj.symm)

/-- Renumbered nodes that do the same are the same. -/
theorem renumbered_inj (hs : Typed c Fit s) (h : Closed s ids) {i j : Nat} (hi : i ∈ ids) (hj : j ∈ ids)
    (hk : (renumbered s ids i).kind = (renumbered s ids j).kind)
    (hp : (renumbered s ids i).parents = (renumbered s ids j).parents) : i = j := by
  obtain ⟨n, hn⟩ := exists_node (h.lt i hi)
  obtain ⟨m, hm⟩ := exists_node (h.lt j hj)
  rw [renumbered_of_node hn, renumbered_of_node hm] at hk hp
  refine key_inj hs hn hm hk (map_idxOf_inj (fun p hp => ?_) hp)
  exact h.parents i hi p (parents_of_node hn ▸ hp)

theorem typed_selected (hs : Typed c Fit s) (h : Closed s ids) : Typed c Fit (selected s ids) where
  distinct := by
    unfold keys selected
    rw [List.map_map]
    refine List.Nodup.map_on (fun i hi j hj heq => ?_) h.nodup
    exact renumbered_inj hs h hi hj (congrArg Prod.fst heq) (congrArg Prod.snd heq)
  node i n' hn := by
    obtain ⟨hi, n, hnode, rfl⟩ := exists_of_node_selected h hn
    obtain ⟨hbelow, a, ha, haxes⟩ := hs.node _ n hnode
    have hmem : ids[i] ∈ ids := List.getElem_mem hi
    have hin : ∀ p ∈ n.parents, p ∈ ids := fun p hp => h.parents _ hmem p (parents_of_node hnode ▸ hp)
    refine ⟨fun q hq => ?_, a, ha, haxes.renumber ids.idxOf fun p hp => dims_selected h (hin p hp)⟩
    obtain ⟨p, hp, rfl⟩ := List.mem_map.mp hq
    have := idxOf_lt_idxOf h.sorted (hin p hp) hmem (hbelow p hp)
    rwa [h.nodup.idxOf_getElem i hi] at this

/-! ### The fold -/

/-- One step of compaction. -/
def compactStep (s : NodeStore) (acc : NodeStore × List (Nat × Nat)) (id : Nat) :
    NodeStore × List (Nat × Nat) :=
  let parents := (s.parents id).map fun p => (acc.2.lookup p).getD 0
  match s.node? id with
  | none => acc
  | some n =>
    let (out, new) := match n.layout with
      | some a => acc.1.addWithLayout n.kind parents a
      | none => acc.1.add n.kind parents
    (out, (id, new) :: acc.2)

theorem compact_eq (s : NodeStore) (root : Nat) :
    compact s root = ((s.reachable root).foldl (compactStep s) (.empty, [])).1 := rfl

theorem lookup_of_mem {l : List (Nat × Nat)} {a b : Nat} (hn : (l.map (·.1)).Nodup) (h : (a, b) ∈ l) :
    l.lookup a = some b := by
  induction l with
  | nil => cases h
  | cons p l ih =>
    obtain ⟨hnot, hn⟩ := List.nodup_cons.mp hn
    rw [List.lookup_cons]
    rcases List.mem_cons.mp h with rfl | h
    · rw [beq_self_eq_true]
    · have hne : a ≠ p.1 := fun heq => hnot (List.mem_map.mpr ⟨(a, b), h, heq⟩)
      rw [beq_false_of_ne hne]
      exact ih hn h

theorem lookup_zipIdx_reverse {done : List Nat} (hd : done.Nodup) {p : Nat} (hp : p ∈ done) :
    done.zipIdx.reverse.lookup p = some (done.idxOf p) := by
  refine lookup_of_mem ?_ (List.mem_reverse.mpr (List.mem_zipIdx_iff_getElem?.mpr ?_))
  · rw [List.map_reverse, List.zipIdx_map_fst]
    exact List.nodup_reverse.mpr hd
  · have hlt := List.idxOf_lt_length_of_mem hp
    rw [List.getElem?_eq_getElem hlt, List.getElem_idxOf hlt]

/-- A node whose parents are there under new numbers is added under the next number. -/
theorem compactStep_eq (hs : Typed c Fit s) (h : Closed s ids) {done rest : List Nat} {id : Nat}
    (hall : ids = done ++ id :: rest) :
    compactStep s (⟨done.map (renumbered s ids)⟩, done.zipIdx.reverse) id =
      (⟨(done ++ [id]).map (renumbered s ids)⟩, (done ++ [id]).zipIdx.reverse) := by
  have hid : id ∈ ids := hall ▸ List.mem_append_right _ List.mem_cons_self
  have hdone : done ⊆ ids := hall ▸ List.subset_append_left ..
  have hsplit : done.Nodup ∧ (id :: rest).Nodup ∧ ∀ x ∈ done, ∀ y ∈ id :: rest, x ≠ y :=
    List.nodup_append.mp (hall ▸ h.nodup)
  obtain ⟨n, hn⟩ := exists_node (h.lt id hid)
  obtain ⟨hbelow, a, ha, -⟩ := hs.node id n hn
  have hearlier : ∀ p ∈ n.parents, p ∈ done := by
    intro p hp
    have hin := h.parents id hid p (parents_of_node hn ▸ hp)
    rw [hall] at hin
    refine (List.mem_append.mp hin).resolve_right fun hin => ?_
    have hlt := hbelow p hp
    rcases List.mem_cons.mp hin with rfl | hin
    · exact Nat.lt_irrefl _ hlt
    · have hs := (List.pairwise_append.mp (hall ▸ h.sorted)).2.1
      exact Nat.lt_asymm hlt ((List.pairwise_cons.mp hs).1 p hin)
  have hparents : (s.parents id).map (fun p => (done.zipIdx.reverse.lookup p).getD 0) =
      n.parents.map ids.idxOf := by
    rw [parents_of_node hn]
    refine List.map_congr_left fun p hp => ?_
    rw [lookup_zipIdx_reverse hsplit.1 (hearlier p hp), hall,
      List.idxOf_append_of_mem (hearlier p hp)]
    rfl
  have hnew : (⟨done.map (renumbered s ids)⟩ : NodeStore).lookup n.kind (n.parents.map ids.idxOf) = none := by
    cases hl : NodeStore.lookup _ _ _ with
    | none => rfl
    | some x =>
      obtain ⟨m, hm, hk, hp⟩ := lookup_some hl
      obtain ⟨j, hj, rfl⟩ := List.mem_map.mp (List.mem_of_getElem? hm)
      have hnid : renumbered s ids id = _ := renumbered_of_node hn
      have heq := renumbered_inj hs h (hdone hj) hid (by rw [hk, hnid]) (by rw [hp, hnid])
      exact absurd heq (hsplit.2.2 j hj id List.mem_cons_self)
  unfold compactStep
  dsimp only
  rw [hn, hparents]
  dsimp only
  rw [ha]
  dsimp only
  rw [addWithLayout_miss hnew, List.map_append, List.zipIdx_append, List.reverse_append, List.map_singleton,
    renumbered_of_node hn, ha]
  simp [NodeStore.count]

/-- Compaction so far: the nodes behind are there under new numbers. -/
theorem foldl_compactStep (hs : Typed c Fit s) (h : Closed s ids) :
    ∀ (rest done : List Nat), ids = done ++ rest →
      rest.foldl (compactStep s) (⟨done.map (renumbered s ids)⟩, done.zipIdx.reverse) =
        (selected s ids, ids.zipIdx.reverse)
  | [], done, hall => by
    rw [List.append_nil] at hall
    subst hall
    rfl
  | id :: rest, done, hall => by
    rw [List.foldl_cons, compactStep_eq hs h hall]
    exact foldl_compactStep hs h rest _ (by rw [hall, List.append_assoc]; rfl)

end

/-- What compaction leaves: the nodes that the root depends on under new numbers. -/
theorem compact_eq_selected (hs : Typed c Fit s) (root : Nat) :
    compact s root = selected s (s.reachable root) := by
  have hb : s.ParentsBelow := fun i p hp => hs.parents_lt hp
  have h := foldl_compactStep hs (closed_reachable hb root) (s.reachable root) [] rfl
  rw [compact_eq]
  exact congrArg Prod.fst h

/-! ### The root -/

/-- Every node of a graph is the root, or a parent of such a node, and so on. -/
def Connected (s : NodeStore) (root : Nat) : Prop :=
  ∀ P : Nat → Prop, P root → (∀ i, P i → ∀ p ∈ s.parents i, P p) → ∀ i, i < s.count → P i

theorem last_reachable (hb : s.ParentsBelow) {root : Nat} (hr : root < s.count) :
    (s.reachable root).idxOf root = (s.reachable root).length - 1 := by
  have hmem : root ∈ s.reachable root := self_mem_reachable hr
  have hsorted := (closed_reachable hb root).sorted
  have hle : ∀ i ∈ s.reachable root, i ≤ root := by
    refine reachedThrough_induction (fun i hi _ p hp => ?_) fun i hi => Nat.le_of_eq (List.mem_singleton.mp hi)
    exact Nat.le_trans (Nat.le_of_lt (hb i p hp)) hi
  have hlt := List.idxOf_lt_length_of_mem hmem
  rcases Nat.lt_or_ge ((s.reachable root).idxOf root) ((s.reachable root).length - 1) with h | h
  · have hlast : (s.reachable root).length - 1 < (s.reachable root).length := by omega
    have := List.pairwise_iff_getElem.mp hsorted _ _ hlt hlast h
    rw [List.getElem_idxOf] at this
    exact absurd this (Nat.not_lt.mpr (hle _ (List.getElem_mem hlast)))
  · omega

theorem exists_node_selected {ids : List Nat} (h : Closed s ids) {id : Nat} (hid : id ∈ ids) :
    ∃ n, s.node? id = some n ∧ (selected s ids).node? (ids.idxOf id) = some { n with parents := n.parents.map ids.idxOf } := by
  have hi := List.idxOf_lt_length_of_mem hid
  obtain ⟨n, hn⟩ := exists_node (h.lt id hid)
  refine ⟨n, hn, ?_⟩
  rw [node_selected hi, List.getElem_idxOf hi, renumbered_of_node hn]

theorem parents_selected {ids : List Nat} (h : Closed s ids) {id : Nat} (hid : id ∈ ids) :
    (selected s ids).parents (ids.idxOf id) = (s.parents id).map ids.idxOf := by
  obtain ⟨n, hn, hnode⟩ := exists_node_selected h hid
  rw [parents_of_node hnode, parents_of_node hn]

/-- Compaction leaves nothing that the root does not depend on. -/
theorem connected_selected (hb : s.ParentsBelow) {root : Nat} (hr : root < s.count) :
    Connected (selected s (s.reachable root)) ((selected s (s.reachable root)).count - 1) := by
  intro P hroot hstep i hi
  have hc := closed_reachable hb root
  have hmem : root ∈ s.reachable root := self_mem_reachable hr
  rw [count_selected] at hroot hi
  have hall : ∀ x ∈ s.reachable root, x ∈ s.reachable root ∧ P ((s.reachable root).idxOf x) := by
    refine reachedThrough_induction (fun x ⟨hx, hP⟩ _ p hp => ⟨hc.parents x hx p hp, ?_⟩) fun x hx => ?_
    · refine hstep _ hP _ ?_
      rw [parents_selected hc hx]
      exact List.mem_map_of_mem hp
    · rw [List.mem_singleton.mp hx]
      exact ⟨hmem, (last_reachable hb hr).symm ▸ hroot⟩
  have := (hall _ (List.getElem_mem hi)).2
  rwa [hc.nodup.idxOf_getElem i hi] at this

/-! ### Resolved variables -/

/-- What is known of a resolved variable: its graph is typed, its last node is the root, on which all
    others bear, and the inputs that it reads are noted with the axes that they have at the source. -/
structure Resolved (c : Context) (Fit : String → CallOptions → Prop) (v : ResolvedVariable) : Prop where
  typed : Typed c Fit v.store
  root : v.root < v.store.count
  connected : Connected v.store v.root
  native : ∀ i name, v.store.kind? i = some (.operand name) → ∃ m, c.source.describe name = some m ∧
    v.native.get? name = some m.dims

/-- How a variable was resolved: its nodes one after the other, then the root, and what the root does not depend on was
    left out. -/
structure Stages (c : Context) (v : CompiledVariable) (target : Target) (r : ResolvedVariable) (p : Progress)
    (s : NodeStore) (root : Nat) : Prop where
  steps : v.store.nodes.foldlM (step c) ⟨.empty, [], .empty⟩ = .ok p
  conformed : conformRoot c p.store (p.renumbered.getD v.root 0) target = .ok (s, root)
  closed : Closed s (s.reachable root)
  mem : root ∈ s.reachable root
  store : r.store = selected s (s.reachable root)
  root : r.root = (s.reachable root).idxOf root

theorem resolve_stages {v : CompiledVariable} {target : Target} {r : ResolvedVariable} (hv : Lowered Fit v.store)
    (h : resolve c v target = .ok r) : ∃ p s root, Stages c v target r p s root := by
  obtain ⟨p, hp, h⟩ := bind_eq_ok.mp h
  obtain ⟨⟨s, root⟩, hs, h⟩ := bind_eq_ok.mp h
  obtain ⟨hres, -⟩ := steps_resolving hv hp
  obtain ⟨out, hgives⟩ := conformRoot_gives hres.typed hs
  have hb : s.ParentsBelow := fun i p hp => hgives.derived.typed.parents_lt hp
  have hstore : compact s root = selected s (s.reachable root) := compact_eq_selected hgives.derived.typed root
  cases h
  refine ⟨p, s, root, hp, hs, closed_reachable hb root, self_mem_reachable hgives.lt, hstore, ?_⟩
  dsimp only
  rw [hstore, count_selected, last_reachable hb hgives.lt]

/-- Resolution gives resolved variables. -/
theorem resolve_resolved {v : CompiledVariable} {target : Target} {r : ResolvedVariable}
    (hv : Lowered Fit v.store) (h : resolve c v target = .ok r) :
    Resolved c Fit r ∧ r.target = target := by
  obtain ⟨p, hp, h⟩ := bind_eq_ok.mp h
  obtain ⟨hres, hlen⟩ := steps_resolving hv hp
  obtain ⟨⟨s, root⟩, hs, h⟩ := bind_eq_ok.mp h
  obtain ⟨out, hgives⟩ := conformRoot_gives hres.typed hs
  have htyped := hgives.derived.typed
  have hb : s.ParentsBelow := fun i p hp => htyped.parents_lt hp
  have hc := closed_reachable hb root
  have hmem := self_mem_reachable hgives.lt
  cases h
  refine ⟨⟨?_, ?_, ?_, fun i name hi => ?_⟩, rfl⟩ <;> dsimp only at * <;>
    rw [compact_eq_selected htyped] at *
  · exact typed_selected htyped hc
  · have := List.length_pos_of_mem hmem
    rw [count_selected]
    omega
  · exact connected_selected hb hgives.lt
  · obtain ⟨n', hn', hk⟩ := Option.map_eq_some_iff.mp hi
    obtain ⟨hlt, n, hn, rfl⟩ := exists_of_node_selected hc hn'
    have hkind : s.kind? (s.reachable root)[i] = some (.operand name) := by
      rw [kind_of_node hn]
      exact congrArg some hk
    obtain ⟨i', hi'⟩ := hgives.derived.reads _ _ hkind
    exact hres.native i' name hi'

end Concord.Resolution
