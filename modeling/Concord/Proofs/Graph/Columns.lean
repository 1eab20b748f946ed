import Concord.Graph.Columns
import Concord.Proofs.Graph.Inlined

/-! The columns hold the graph as a list of nodes: each column is what its name says of that list, and the links
    through the uses of a node are its children. Every node that is added keeps this. -/

namespace Concord

/-! ### Children in a list of nodes -/

namespace NodeStore

variable {s t : NodeStore} {p : Nat}

theorem children_append (s : NodeStore) (n : Node) (p : Nat) :
    children ⟨s.nodes ++ [n]⟩ p = List.replicate (n.parents.count p) s.count ++ s.children p := by
  unfold children
  rw [List.zipIdx_append, List.flatMap_append, List.reverse_append]
  simp [count]

/-- A node is listed once for each use. -/
theorem count_children (s : NodeStore) (p i : Nat) : (s.children p).count i = (s.parents i).count p := by
  obtain ⟨nodes⟩ := s
  induction nodes using List.reverseRecOn with
  | nil => rfl
  | append_singleton nodes n ih =>
    have hchildren := children_append ⟨nodes⟩ n p
    have hparents := parents_append ⟨nodes⟩ n i
    dsimp only at hchildren hparents
    rw [hchildren, hparents, List.count_append, List.count_replicate, ih]
    by_cases hi : i = count ⟨nodes⟩
    · subst hi
      simp [parents_of_le]
    · simp [hi, Ne.symm hi]

theorem children_eq_nil (h : ∀ i, p ∉ s.parents i) : s.children p = [] := by
  refine List.eq_nil_iff_forall_not_mem.mpr fun i hi => ?_
  have hpos := List.count_pos_iff.mpr hi
  rw [count_children, List.count_eq_zero.mpr (h i)] at hpos
  exact Nat.lt_irrefl 0 hpos

theorem children_congr (h : s.keys = t.keys) : s.children = t.children := by
  have hkeys (u : NodeStore) (p : Nat) :
      u.children p = (u.keys.zipIdx.flatMap fun key => List.replicate (key.1.2.count p) key.2).reverse := by
    rw [keys, List.zipIdx_map, List.flatMap_map]
    rfl
  funext p
  rw [hkeys, hkeys, h]

theorem lookup_congr (h : s.keys = t.keys) (kind : NodeKind) (parents : List Nat) :
    s.lookup kind parents = t.lookup kind parents := by
  have hkeys (u : NodeStore) :
      u.lookup kind parents = u.keys.findIdx? fun key => key.1 = kind ∧ key.2 = parents := by
    rw [keys, List.findIdx?_map]
    rfl
  rw [hkeys, hkeys, h]

theorem lookup_append (s : NodeStore) (n : Node) (kind : NodeKind) (parents : List Nat) :
    lookup ⟨s.nodes ++ [n]⟩ kind parents =
      (s.lookup kind parents).or (if n.kind = kind ∧ n.parents = parents then some s.count else none) := by
  unfold lookup
  rw [List.findIdx?_append]
  congr 1
  by_cases hn : n.kind = kind ∧ n.parents = parents
  · simp [List.findIdx?_cons, hn, count]
  · simp [List.findIdx?_cons, hn]

end NodeStore

namespace Columns

variable {c : Columns} {s : NodeStore} {kind : NodeKind} {parents : List Nat} {uses : Nat → List Nat}

/-! ### Lists of uses -/

/-- A list of uses that starts at a use. Those that follow stand before it in the columns. -/
inductive Linked (targets : List Nat) (next : List (Option Nat)) : Option Nat → List Nat → Prop
  | nil : Linked targets next none []
  | cons {use target : Nat} {after : Option Nat} {l : List Nat} : targets[use]? = some target →
      next[use]? = some after → (∀ use' ∈ after, use' < use) → Linked targets next after l →
      Linked targets next (some use) (target :: l)

namespace Linked

variable {targets : List Nat} {next : List (Option Nat)} {head : Option Nat} {l : List Nat}

theorem lt (h : Linked targets next head l) : ∀ use ∈ head, use < targets.length := by
  cases h with
  | nil => exact fun _ h => by cases h
  | cons htarget _ _ _ =>
    intro use huse
    cases huse
    exact (List.getElem?_eq_some_iff.mp htarget).1

/-- More uses behind the columns leave a list as it is. -/
theorem append (h : Linked targets next head l) (targets' : List Nat) (next' : List (Option Nat)) :
    Linked (targets ++ targets') (next ++ next') head l := by
  induction h with
  | nil => exact .nil
  | cons htarget hnext hbefore _ ih =>
    refine .cons ?_ ?_ hbefore ih
    · rwa [List.getElem?_append_left (List.getElem?_eq_some_iff.mp htarget).1]
    · rwa [List.getElem?_append_left (List.getElem?_eq_some_iff.mp hnext).1]

/-- A walk along the links ends, since it goes to earlier uses only. -/
theorem follow_eq (h : Linked c.childTargets c.nextChild head l) :
    ∀ {fuel : Nat}, (∀ use ∈ head, use < fuel) → c.follow fuel head = l := by
  induction h with
  | nil =>
    intro fuel _
    cases fuel <;> rfl
  | cons htarget hnext hbefore _ ih =>
    intro fuel hfuel
    cases fuel with
    | zero => exact absurd (hfuel _ rfl) (Nat.not_lt_zero _)
    | succ fuel =>
      rw [follow, List.getD_eq_getElem?_getD, List.getD_eq_getElem?_getD, htarget, hnext]
      refine congrArg _ (ih fun use' huse' => ?_)
      exact Nat.lt_of_lt_of_le (hbefore use' huse') (Nat.le_of_lt_succ (hfuel _ rfl))

end Linked

/-- The uses of each node are the list that is told. -/
structure Uses (c : Columns) (uses : Nat → List Nat) : Prop where
  length : c.nextChild.length = c.childTargets.length
  linked : ∀ p, p < c.firstChild.length → Linked c.childTargets c.nextChild (c.head p) (uses p)

theorem Uses.children_eq (h : Uses c uses) {p : Nat} (hp : p < c.firstChild.length) : c.children p = uses p :=
  (h.linked p hp).follow_eq (h.linked p hp).lt

theorem head_link (id q : Nat) {p : Nat} (hp : p < c.firstChild.length) :
    (link id c q).head p = if q = p then some c.childTargets.length else c.head p := by
  unfold link head
  dsimp only
  rw [List.getElem?_set]
  by_cases hq : q = p
  · rw [if_pos hq, if_pos hq, if_pos (hq ▸ hp)]
    rfl
  · rw [if_neg hq, if_neg hq]

/-- One more use of a node stands in front of its others. -/
theorem Uses.link (h : Uses c uses) (id : Nat) {q : Nat} (hq : q < c.firstChild.length) :
    Uses (link id c q) fun p => if q = p then id :: uses p else uses p := by
  refine ⟨by simp [Columns.link, h.length], fun p hp => ?_⟩
  have hp : p < c.firstChild.length := by simpa [Columns.link] using hp
  have hold := (h.linked p hp).append [id] [c.head q]
  rw [head_link id q hp]
  split
  · rename_i hpq
    subst hpq
    have htarget : (c.childTargets ++ [id])[c.childTargets.length]? = some id := List.getElem?_concat_length
    have hnext : (c.nextChild ++ [c.head q])[c.childTargets.length]? = some (c.head q) := by
      rw [← h.length]
      exact List.getElem?_concat_length
    exact .cons htarget hnext (h.linked q hq).lt hold
  · exact hold

/-- A node uses each parent as often as it occurs among its parents. -/
theorem Uses.foldl_link (id : Nat) : ∀ (ps : List Nat) {c : Columns} {uses : Nat → List Nat}, Uses c uses →
    (∀ q ∈ ps, q < c.firstChild.length) →
      Uses (ps.foldl (Columns.link id) c) (fun p => List.replicate (ps.count p) id ++ uses p) ∧
      (ps.foldl (Columns.link id) c).firstChild.length = c.firstChild.length
  | [], c, uses, h, _ => ⟨h, rfl⟩
  | q :: ps, c, uses, h, hps => by
    have hlength : (Columns.link id c q).firstChild.length = c.firstChild.length := List.length_set
    have hrest := fun r hr => hlength.symm ▸ hps r (List.mem_cons_of_mem q hr)
    obtain ⟨huses, hfirst⟩ := foldl_link id ps (h.link id (hps q List.mem_cons_self)) hrest
    refine ⟨?_, hfirst.trans hlength⟩
    rw [List.foldl_cons]
    convert huses using 2 with p
    by_cases hq : q = p
    · rw [if_pos hq, hq, List.count_cons_self, List.replicate_succ', List.append_assoc]
      rfl
    · rw [if_neg hq, List.count_cons_of_ne hq]

/-- A node that nothing uses has no first use. -/
theorem Uses.push_head (h : Uses c uses) (hnew : uses c.firstChild.length = []) :
    Uses { c with firstChild := c.firstChild ++ [none] } uses := by
  refine ⟨h.length, fun p hp => ?_⟩
  change Linked c.childTargets c.nextChild (c.firstChild ++ [none])[p]?.join (uses p)
  rw [List.length_append] at hp
  rcases Nat.lt_or_eq_of_le (Nat.le_of_lt_succ hp) with hp | rfl
  · rw [List.getElem?_append_left hp]
    exact h.linked p hp
  · rw [List.getElem?_concat_length, hnew]
    exact .nil

/-! ### The graph in columns -/

/-- The columns hold the nodes of a graph. -/
structure Represents (c : Columns) (s : NodeStore) : Prop where
  kinds : c.kinds = s.keys.map (·.1)
  layouts : c.layouts = s.nodes.map (·.layout)
  flat : c.parentsFlat = s.keys.flatMap (·.2)
  ranges : c.parentsRanges.length = s.count
  inside : ∀ r ∈ c.parentsRanges, r.1 + r.2 ≤ c.parentsFlat.length
  parents : ∀ i, c.parents i = s.parents i
  heads : c.firstChild.length = s.count
  uses : Uses c s.children
  interned : ∀ kind parents, c.interned.lookup (kind, parents) = s.lookup kind parents

theorem represents_empty : Represents empty .empty where
  kinds := rfl
  layouts := rfl
  flat := rfl
  ranges := rfl
  inside _ h := by cases h
  parents _ := rfl
  heads := rfl
  uses := ⟨rfl, fun _ h => absurd h (Nat.not_lt_zero _)⟩
  interned _ _ := rfl

namespace Represents

theorem count_eq (h : Represents c s) : c.count = s.count := by
  rw [count, h.kinds, List.length_map, NodeStore.length_keys]

theorem length_layouts (h : Represents c s) : c.layouts.length = c.count := by
  rw [h.layouts, h.count_eq, List.length_map]
  rfl

theorem kind_eq (h : Represents c s) (i : Nat) : c.kind? i = s.kind? i := by
  rw [kind?, h.kinds, List.getElem?_map, NodeStore.kind_eq_keys]

theorem layout_eq (h : Represents c s) (i : Nat) : c.layout? i = s.layout? i := by
  rw [layout?, h.layouts, List.getElem?_map, NodeStore.layout?, NodeStore.node?]
  cases s.nodes[i]? <;> rfl

theorem children_eq (h : Represents c s) {p : Nat} (hp : p < c.count) : c.children p = s.children p :=
  h.uses.children_eq (by rwa [h.heads, ← h.count_eq])

theorem setLayout (h : Represents c s) (id : Nat) (a : Layout) :
    Represents { c with layouts := c.layouts.set id (some a) } (s.setLayout id a) where
  kinds := by rw [NodeStore.keys_setLayout]; exact h.kinds
  layouts := by
    refine List.ext_getElem? fun i => ?_
    have hnode : (s.setLayout id a).nodes[i]? = _ := NodeStore.node_setLayout
    rw [List.getElem?_map, hnode, h.layouts, List.getElem?_set, List.getElem?_map, NodeStore.node?]
    by_cases hi : id = i
    · subst hi
      cases hget : s.nodes[id]? with
      | none => simpa using hget
      | some n => simp [(List.getElem?_eq_some_iff.mp hget).1]
    · simp [hi]
  flat := by rw [NodeStore.keys_setLayout]; exact h.flat
  ranges := by rw [NodeStore.count_setLayout]; exact h.ranges
  inside := h.inside
  parents i := by
    rw [NodeStore.parents_eq_keys, NodeStore.keys_setLayout, ← NodeStore.parents_eq_keys]
    exact h.parents i
  heads := by rw [NodeStore.count_setLayout]; exact h.heads
  uses := by
    rw [NodeStore.children_congr NodeStore.keys_setLayout]
    exact ⟨h.uses.length, h.uses.linked⟩
  interned kind parents := by
    rw [NodeStore.lookup_congr NodeStore.keys_setLayout]
    exact h.interned kind parents

end Represents

/-! ### Adding -/

theorem parents_foldl_link (id : Nat) : ∀ (ps : List Nat) (c : Columns),
    (ps.foldl (link id) c).parentsFlat = c.parentsFlat ∧ (ps.foldl (link id) c).parentsRanges = c.parentsRanges
  | [], _ => ⟨rfl, rfl⟩
  | q :: ps, c => parents_foldl_link id ps (link id c q)

theorem parentsFlat_append (c : Columns) (kind : NodeKind) (parents : List Nat) :
    (c.append kind parents).parentsFlat = c.parentsFlat ++ parents :=
  (parents_foldl_link c.count parents (c.pushParents parents)).1

theorem parentsRanges_append (c : Columns) (kind : NodeKind) (parents : List Nat) :
    (c.append kind parents).parentsRanges = c.parentsRanges ++ [(c.parentsFlat.length, parents.length)] :=
  (parents_foldl_link c.count parents (c.pushParents parents)).2

theorem parents_append (hranges : c.parentsRanges.length = c.count)
    (hinside : ∀ r ∈ c.parentsRanges, r.1 + r.2 ≤ c.parentsFlat.length) (i : Nat) :
    (c.append kind parents).parents i = if i = c.count then parents else c.parents i := by
  unfold Columns.parents
  rw [parentsFlat_append, parentsRanges_append]
  rcases Nat.lt_trichotomy i c.count with hi | rfl | hi
  · rw [if_neg (Nat.ne_of_lt hi), List.getElem?_append_left (hranges ▸ hi)]
    cases hget : c.parentsRanges[i]? with
    | none => rfl
    | some r =>
      have hle := hinside r (List.mem_of_getElem? hget)
      dsimp only
      rw [List.drop_append_of_le_length (by omega), List.take_append_of_le_length (by rw [List.length_drop]; omega)]
  · have hget : (c.parentsRanges ++ [(c.parentsFlat.length, parents.length)])[c.count]? =
        some (c.parentsFlat.length, parents.length) := hranges ▸ List.getElem?_concat_length
    rw [if_pos rfl, hget]
    simp
  · rw [if_neg (Nat.ne_of_gt hi), List.getElem?_eq_none (by simp [hranges]; omega), List.getElem?_eq_none (by omega)]

namespace Represents

variable {a : Layout}

theorem uses_append (h : Represents c s) (hs : s.Interned) (hparents : ∀ p ∈ parents, p < s.count) :
    Uses (c.append kind parents) (NodeStore.children ⟨s.nodes ++ [⟨kind, parents, none⟩]⟩) ∧
      (c.append kind parents).firstChild.length = s.count + 1 := by
  have hpushed : Uses (c.pushParents parents) s.children := ⟨h.uses.length, h.uses.linked⟩
  obtain ⟨huses, hfirst⟩ := hpushed.foldl_link c.count parents fun p hp => h.heads ▸ hparents p hp
  have hlength : (parents.foldl (link c.count) (c.pushParents parents)).firstChild.length = s.count :=
    hfirst.trans h.heads
  have hchildren : (fun p => List.replicate (parents.count p) c.count ++ s.children p) =
      NodeStore.children ⟨s.nodes ++ [⟨kind, parents, none⟩]⟩ := by
    funext p
    rw [NodeStore.children_append, h.count_eq]
  -- no node has the new one among its parents
  have hnew : NodeStore.children ⟨s.nodes ++ [⟨kind, parents, none⟩]⟩ s.count = [] := by
    refine NodeStore.children_eq_nil fun i hi => ?_
    rw [NodeStore.parents_append] at hi
    split at hi
    · exact Nat.lt_irrefl _ (hparents _ hi)
    · exact Nat.lt_asymm (hs.below i _ hi) (NodeStore.lt_of_mem_parents hi)
  rw [hchildren] at huses
  have hpush := huses.push_head (hlength.symm ▸ hnew)
  exact ⟨⟨hpush.length, hpush.linked⟩, List.length_append.trans (congrArg (· + 1) hlength)⟩

theorem lookup_append (h : Represents c s) (hnew : s.lookup kind parents = none) (kind' : NodeKind)
    (parents' : List Nat) : (c.append kind parents).interned.lookup (kind', parents') =
      NodeStore.lookup ⟨s.nodes ++ [⟨kind, parents, none⟩]⟩ kind' parents' := by
  have hcons : (c.append kind parents).interned = ((kind, parents), c.count) :: c.interned := rfl
  rw [NodeStore.lookup_append, ← h.interned, ← h.count_eq, hcons, List.lookup_cons]
  by_cases hsame : (kind', parents') = (kind, parents)
  · cases hsame
    rw [h.interned, hnew]
    simp
  · have hne : ((kind', parents') == (kind, parents)) = false := beq_eq_false_iff_ne.mpr hsame
    have hne' : ¬(kind = kind' ∧ parents = parents') := fun heq => hsame (by rw [heq.1, heq.2])
    rw [hne, if_neg hne', Option.or_none]

/-- A node that is put behind the others is there, and the others are as they were. -/
theorem append (h : Represents c s) (hs : s.Interned) (hparents : ∀ p ∈ parents, p < s.count)
    (hnew : s.lookup kind parents = none) :
    Represents (c.append kind parents) ⟨s.nodes ++ [⟨kind, parents, none⟩]⟩ where
  kinds := by
    rw [NodeStore.keys_append, List.map_append, ← h.kinds]
    rfl
  layouts := by
    rw [List.map_append, ← h.layouts]
    rfl
  flat := by
    rw [NodeStore.keys_append, List.flatMap_append, ← h.flat, parentsFlat_append]
    simp
  ranges := by
    rw [parentsRanges_append, NodeStore.count_append, List.length_append, h.ranges]
    rfl
  inside r hr := by
    rw [parentsRanges_append] at hr
    rw [parentsFlat_append, List.length_append]
    rcases List.mem_append.mp hr with hr | hr
    · exact Nat.le_trans (h.inside r hr) (Nat.le_add_right _ _)
    · rw [List.mem_singleton.mp hr]
  parents i := by
    rw [parents_append (h.ranges.trans h.count_eq.symm) h.inside, NodeStore.parents_append, h.parents, h.count_eq]
  heads := (h.uses_append hs hparents).2.trans NodeStore.count_append.symm
  uses := (h.uses_append hs hparents).1
  interned := h.lookup_append hnew

/-- What adding does to the columns it does to the graph. -/
theorem add (h : Represents c s) (hs : s.Interned) (kind : NodeKind) (hparents : ∀ p ∈ parents, p < s.count) :
    Represents (c.add kind parents).1 (s.add kind parents).1 ∧ (c.add kind parents).2 = (s.add kind parents).2 := by
  unfold Columns.add NodeStore.add
  rw [h.interned]
  cases hl : s.lookup kind parents with
  | some id => exact ⟨h, rfl⟩
  | none => exact ⟨h.append hs hparents hl, h.count_eq⟩

theorem addWithLayout (h : Represents c s) (hs : s.Interned) (hparents : ∀ p ∈ parents, p < s.count) :
    Represents (c.addWithLayout kind parents a).1 (s.addWithLayout kind parents a).1 := by
  obtain ⟨hadd, hid⟩ := h.add hs kind hparents
  unfold Columns.addWithLayout NodeStore.addWithLayout
  dsimp only
  rw [hid]
  exact hadd.setLayout _ a

end Represents

end Columns
end Concord
