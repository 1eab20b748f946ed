import Mathlib.Algebra.BigOperators.Group.Finset.Basic
import Concord.Proofs.Graph.Columns
import Concord.Proofs.Graph.Inputs

/-! What the search through the columns finds. A step takes one node off the stack; it marks the node and puts its
    parents on the stack, or passes over it. All that is marked or on the stack is needed, and nothing that is needed
    is forgotten. Since a node is marked once, every use goes on the stack at most once, and the steps suffice. -/

namespace Concord

theorem NodeStore.sum_parents (s : NodeStore) :
    ∑ i ∈ Finset.range s.count, (s.parents i).length = (s.keys.flatMap (·.2)).length := by
  obtain ⟨nodes⟩ := s
  induction nodes using List.reverseRecOn with
  | nil => rfl
  | append_singleton nodes n ih =>
    have hkeys := keys_append ⟨nodes⟩ n
    have hcount : count ⟨nodes ++ [n]⟩ = count ⟨nodes⟩ + 1 := List.length_append
    have hparents := parents_append ⟨nodes⟩ n
    dsimp only at hparents
    rw [hcount, Finset.sum_range_succ, hkeys, List.flatMap_append, List.length_append, ← ih, hparents, if_pos rfl]
    congr 1
    · refine Finset.sum_congr rfl fun i hi => ?_
      rw [hparents, if_neg (Nat.ne_of_lt (Finset.mem_range.mp hi))]
    · simp

namespace Columns

variable {c : Columns} {s : NodeStore} {root id i p : Nat} {stack : List Nat} {seen : List Bool}

/-- A node depends on another: that is one of its parents, or a parent of one, and so on. -/
abbrev Depends (c : Columns) : Nat → Nat → Prop := Relation.ReflTransGen fun i p => p ∈ c.parents i

/-- A node is marked. -/
def Marked (seen : List Bool) (i : Nat) : Prop := seen.getD i false = true

instance : Decidable (Marked seen i) := inferInstanceAs (Decidable (_ = _))

theorem marked_set (hid : id < seen.length) : Marked (seen.set id true) i ↔ i = id ∨ Marked seen i := by
  unfold Marked
  rw [List.getD_eq_getElem?_getD, List.getD_eq_getElem?_getD, List.getElem?_set]
  by_cases hi : id = i
  · simp [hi, hi ▸ hid]
  · simp [hi, Ne.symm hi]

/-! ### What the search keeps -/

/-- The search is right so far, with these nodes on the stack and these marked. -/
structure Searching (c : Columns) (root : Nat) (stack : List Nat) (seen : List Bool) : Prop where
  length : seen.length = c.count
  start : root ∈ stack ∨ Marked seen root
  needed : ∀ i, i ∈ stack ∨ Marked seen i → c.Depends root i
  parents : ∀ i, Marked seen i → ∀ p ∈ c.parents i, p ∈ stack ∨ Marked seen p

theorem searching_start (c : Columns) (root : Nat) : Searching c root [root] (List.replicate c.count false) := by
  have hnone : ∀ i, ¬Marked (List.replicate c.count false) i := fun i => by simp [Marked, List.getD_eq_getElem?_getD]
  refine ⟨List.length_replicate, .inl (List.mem_singleton_self root), fun i hi => ?_, fun i hi => absurd hi (hnone i)⟩
  rw [List.mem_singleton.mp (hi.resolve_right (hnone i))]

/-- A marked node on the stack is passed over. -/
theorem Searching.skip (h : Searching c root (id :: stack) seen) (hid : Marked seen id) :
    Searching c root stack seen := by
  have hrest : ∀ i, i ∈ id :: stack ∨ Marked seen i → i ∈ stack ∨ Marked seen i := by
    rintro i (hi | hi)
    · rcases List.mem_cons.mp hi with rfl | hi
      · exact .inr hid
      · exact .inl hi
    · exact .inr hi
  exact ⟨h.length, hrest root h.start, fun i hi => h.needed i (hi.imp_left (List.mem_cons_of_mem id)),
    fun i hi p hp => hrest p (h.parents i hi p hp)⟩

/-- Another one is marked, and its parents go on the stack. -/
theorem Searching.mark (h : Searching c root (id :: stack) seen) (hid : id < c.count) :
    Searching c root ((c.parents id).reverse ++ stack) (seen.set id true) := by
  have hmarked {i : Nat} : Marked (seen.set id true) i ↔ i = id ∨ Marked seen i := marked_set (h.length ▸ hid)
  have hrest : ∀ i, i ∈ id :: stack ∨ Marked seen i →
      i ∈ (c.parents id).reverse ++ stack ∨ Marked (seen.set id true) i := by
    rintro i (hi | hi)
    · rcases List.mem_cons.mp hi with rfl | hi
      · exact .inr (hmarked.mpr (.inl rfl))
      · exact .inl (List.mem_append_right _ hi)
    · exact .inr (hmarked.mpr (.inr hi))
  refine ⟨List.length_set.trans h.length, hrest root h.start, fun i hi => ?_, fun i hi p hp => ?_⟩
  · have hneeded := h.needed id (.inl List.mem_cons_self)
    rcases hi with hi | hi
    · rcases List.mem_append.mp hi with hi | hi
      · exact hneeded.tail (List.mem_reverse.mp hi)
      · exact h.needed i (.inl (List.mem_cons_of_mem id hi))
    · rcases hmarked.mp hi with rfl | hi
      · exact hneeded
      · exact h.needed i (.inr hi)
  · rcases hmarked.mp hi with rfl | hi
    · exact .inl (List.mem_append_left _ (List.mem_reverse.mpr hp))
    · exact hrest p (h.parents i hi p hp)

/-- With nothing left on the stack, what is marked is what the root depends on. -/
theorem Searching.marked_iff (h : Searching c root [] seen) : Marked seen i ↔ c.Depends root i := by
  refine ⟨fun hi => h.needed i (.inr hi), fun hi => ?_⟩
  induction hi with
  | refl => exact h.start.resolve_left List.not_mem_nil
  | tail _ hp ih => exact (h.parents _ ih _ hp).resolve_left List.not_mem_nil

/-! ### How long the search takes -/

/-- What may still go on the stack: the uses by nodes that are not marked. -/
def ahead (c : Columns) (seen : List Bool) : Nat :=
  ∑ i ∈ Finset.range c.count, if Marked seen i then 0 else (c.parents i).length

theorem ahead_mark (hlength : seen.length = c.count) (hid : id < c.count) (hnot : ¬Marked seen id) :
    ahead c (seen.set id true) + (c.parents id).length = ahead c seen := by
  have hmem : id ∈ Finset.range c.count := Finset.mem_range.mpr hid
  have hmarked {i : Nat} : Marked (seen.set id true) i ↔ i = id ∨ Marked seen i := marked_set (hlength ▸ hid)
  unfold ahead
  rw [← Finset.add_sum_erase _ _ hmem, ← Finset.add_sum_erase _ _ hmem, if_pos (hmarked.mpr (.inl rfl)), if_neg hnot,
    Nat.zero_add, Nat.add_comm]
  congr 1
  refine Finset.sum_congr rfl fun i hi => ?_
  have hne : i ≠ id := Finset.ne_of_mem_erase hi
  simp [hmarked, hne]

/-- The search ends with an empty stack if there are steps for the stack and for all that may still go on it. -/
theorem Searching.visit (hlt : ∀ i, c.Depends root i → i < c.count) :
    ∀ {fuel : Nat} {stack : List Nat} {seen : List Bool}, Searching c root stack seen →
      stack.length + ahead c seen ≤ fuel → Searching c root [] (c.visit fuel stack seen)
  | 0, stack, seen, h, hfuel => by
    have hnil : stack = [] := List.length_eq_zero_iff.mp (by omega)
    subst hnil
    exact h
  | fuel + 1, [], seen, h, _ => h
  | fuel + 1, id :: stack, seen, h, hfuel => by
    rw [List.length_cons] at hfuel
    rw [Columns.visit]
    split
    · rename_i hid
      exact visit hlt (h.skip hid) (by omega)
    · rename_i hid
      have hcount := hlt id (h.needed id (.inl List.mem_cons_self))
      have hahead := ahead_mark h.length hcount hid
      refine visit hlt (h.mark hcount) ?_
      rw [List.length_append, List.length_reverse]
      omega

/-! ### What is reached -/

theorem sorted_reachable (c : Columns) (root : Nat) : (c.reachable root).Pairwise (· < ·) :=
  List.Pairwise.filter _ List.pairwise_lt_range

namespace Represents

theorem depends_iff (h : Represents c s) : c.Depends root i ↔ s.Depends root i := by
  have hparents : c.parents = s.parents := funext h.parents
  unfold Depends NodeStore.Depends
  rw [hparents]

theorem le_of_depends (h : Represents c s) (hb : s.ParentsBelow) (hi : c.Depends root i) : i ≤ root := by
  induction hi with
  | refl => exact Nat.le_refl root
  | tail _ hp ih => exact Nat.le_trans (Nat.le_of_lt (hb _ _ (h.parents _ ▸ hp))) ih

theorem mem_reachable_iff (h : Represents c s) (hb : s.ParentsBelow) (hroot : root < c.count) :
    i ∈ c.reachable root ↔ c.Depends root i := by
  have hlt : ∀ i, c.Depends root i → i < c.count := fun i hi => Nat.lt_of_le_of_lt (h.le_of_depends hb hi) hroot
  have hahead : ahead c (List.replicate c.count false) = c.parentsFlat.length := by
    rw [h.flat, ← NodeStore.sum_parents, ahead, h.count_eq]
    refine Finset.sum_congr rfl fun i _ => ?_
    rw [h.parents, if_neg (by simp [Marked, List.getD_eq_getElem?_getD])]
  have hdone : Searching c root [] (c.visit (c.parentsFlat.length + 1) [root] (List.replicate c.count false)) := by
    refine Searching.visit hlt (searching_start c root) ?_
    rw [hahead, List.length_singleton]
    omega
  unfold reachable
  rw [List.mem_filter, List.mem_range]
  exact ⟨fun hi => hdone.marked_iff.mp hi.2, fun hi => ⟨hlt i hi, hdone.marked_iff.mpr hi⟩⟩

/-- The columns tell the same of what is reached as the graph that they hold. -/
theorem reachable_eq (h : Represents c s) (hb : s.ParentsBelow) (hroot : root < c.count) :
    c.reachable root = s.reachable root := by
  refine (sorted_reachable c root).eq_of_mem_iff (NodeStore.sorted_reachedThrough [root]) fun i => ?_
  rw [h.mem_reachable_iff hb hroot, NodeStore.mem_reachable_iff hb (h.count_eq ▸ hroot), h.depends_iff]

theorem operands_eq (h : Represents c s) (hb : s.ParentsBelow) (hroot : root < c.count) :
    c.operands root = s.operands root := by
  have hkind : c.kind? = s.kind? := funext h.kind_eq
  rw [operands, NodeStore.operands, h.reachable_eq hb hroot, hkind]

end Represents
end Columns
end Concord

/-! Graphs that are built in columns by adding one node after the other. However that is done, parents stand before
    their children, no node is there twice, the children of a node are its uses, and what is reached from a node is
    what it depends on. -/

namespace Concord

theorem NodeStore.Interned.setLayout {s : NodeStore} (h : s.Interned) (id : Nat) (a : Layout) :
    (s.setLayout id a).Interned := by
  refine ⟨fun i p hp => h.below i p ?_, ?_⟩
  · rwa [parents_eq_keys, keys_setLayout, ← parents_eq_keys] at hp
  · rw [keys_setLayout]
    exact h.distinct

namespace Columns

variable {c : Columns} {s : NodeStore} {kind : NodeKind} {parents : List Nat} {a : Layout} {root i j : Nat}

/-- The columns that come of adding nodes whose parents are there. -/
inductive Built : Columns → Prop
  | empty : Built empty
  | add {c : Columns} {kind : NodeKind} {parents : List Nat} : Built c → (∀ p ∈ parents, p < c.count) →
      Built (c.add kind parents).1
  | addWithLayout {c : Columns} {kind : NodeKind} {parents : List Nat} {a : Layout} : Built c →
      (∀ p ∈ parents, p < c.count) → Built (c.addWithLayout kind parents a).1

/-- The columns hold a graph whose nodes are told apart. -/
theorem Built.represents (h : Built c) : ∃ s : NodeStore, s.Interned ∧ Represents c s := by
  induction h with
  | empty =>
    have hinterned : NodeStore.empty.Interned := ⟨fun _ _ h => absurd h List.not_mem_nil, List.nodup_nil⟩
    exact ⟨_, hinterned, represents_empty⟩
  | add _ hparents ih =>
    obtain ⟨s, hs, hc⟩ := ih
    rw [hc.count_eq] at hparents
    exact ⟨_, (hs.add _ hparents).1, (hc.add hs _ hparents).1⟩
  | addWithLayout _ hparents ih =>
    obtain ⟨s, hs, hc⟩ := ih
    rw [hc.count_eq] at hparents
    exact ⟨_, (hs.add _ hparents).1.setLayout _ _, hc.addWithLayout hs hparents⟩

/-! ### One more node -/

/-- What comes of adding a node: the node that does the same if there is one, else a new one behind the others. -/
structure Added (c : Columns) (kind : NodeKind) (parents : List Nat) (r : Columns × Nat) : Prop where
  known : r.2 < c.count ↔ ∃ i, i < c.count ∧ c.kind? i = some kind ∧ c.parents i = parents
  same : r.2 < c.count → r.1 = c
  new : c.count ≤ r.2 → r.2 = c.count ∧ r.1.count = c.count + 1 ∧ r.1.layout? r.2 = none
  node : r.1.kind? r.2 = some kind ∧ r.1.parents r.2 = parents
  older : ∀ i, i < c.count → r.1.kind? i = c.kind? i ∧ r.1.parents i = c.parents i ∧ r.1.layout? i = c.layout? i

/-- The second is the first, but that this layout is known of the node. -/
structure LaidOut (r r' : Columns × Nat) (a : Layout) : Prop where
  same : r'.2 = r.2
  count : r'.1.count = r.1.count
  nodes : ∀ i, r'.1.kind? i = r.1.kind? i ∧ r'.1.parents i = r.1.parents i
  node : r'.1.layout? r.2 = some a
  others : ∀ i, i ≠ r.2 → r'.1.layout? i = r.1.layout? i

namespace Represents

theorem key_of_node (h : Represents c s) (hkind : c.kind? i = some kind) (hparents : c.parents i = parents) :
    s.keys[i]? = some (kind, parents) := by
  rw [h.kind_eq, NodeStore.kind_eq_keys] at hkind
  rw [h.parents, NodeStore.parents_eq_keys] at hparents
  obtain ⟨⟨kind', parents'⟩, hkey, rfl⟩ := Option.map_eq_some_iff.mp hkind
  rw [hkey] at hparents ⊢
  rw [← hparents]
  rfl

theorem eq_of_same (h : Represents c s) (hs : s.Interned) (hi : i < c.count) (hkind : c.kind? i = c.kind? j)
    (hparents : c.parents i = c.parents j) : i = j := by
  obtain ⟨kind, hkind'⟩ : ∃ kind, c.kind? i = some kind := ⟨_, List.getElem?_eq_getElem hi⟩
  have hkey := h.key_of_node hkind' rfl
  have hkey' := h.key_of_node (hkind ▸ hkind') hparents.symm
  have hlt : i < s.keys.length := (List.getElem?_eq_some_iff.mp hkey).1
  exact (List.getElem?_inj hlt hs.distinct).mp (hkey.trans hkey'.symm)

theorem added (h : Represents c s) (kind : NodeKind) (parents : List Nat) :
    Added c kind parents (c.add kind parents) := by
  unfold Columns.add
  rw [h.interned]
  cases hl : s.lookup kind parents with
  | some id =>
    obtain ⟨n, hn, rfl, rfl⟩ := NodeStore.lookup_some hl
    have hlt : id < c.count := h.count_eq ▸ NodeStore.lt_count hn
    have hnode : c.kind? id = some n.kind ∧ c.parents id = n.parents := by
      rw [h.kind_eq, h.parents]
      exact ⟨NodeStore.kind_of_node hn, NodeStore.parents_of_node hn⟩
    exact ⟨iff_of_true hlt ⟨id, hlt, hnode⟩, fun _ => rfl, fun hge => absurd hlt (Nat.not_lt.mpr hge), hnode,
      fun _ _ => ⟨rfl, rfl, rfl⟩⟩
  | none =>
    have hparents (i : Nat) : (c.append kind parents).parents i = if i = c.count then parents else c.parents i :=
      parents_append (h.ranges.trans h.count_eq.symm) h.inside i
    have hlayouts := h.length_layouts
    refine ⟨iff_of_false (Nat.lt_irrefl _) ?_, fun hlt => absurd hlt (Nat.lt_irrefl _), fun _ => ?_, ?_, fun i hi => ?_⟩
    · rintro ⟨i, -, hkind, hparents⟩
      exact NodeStore.lookup_none hl (List.mem_of_getElem? (h.key_of_node hkind hparents))
    · have hnone : (c.layouts ++ [none])[c.count]? = some none := hlayouts ▸ List.getElem?_concat_length
      exact ⟨rfl, List.length_append, congrArg Option.join hnone⟩
    · exact ⟨List.getElem?_concat_length, (hparents c.count).trans (if_pos rfl)⟩
    · exact ⟨List.getElem?_append_left hi, (hparents i).trans (if_neg (Nat.ne_of_lt hi)),
        congrArg Option.join (List.getElem?_append_left (hlayouts ▸ hi))⟩

theorem laidOut (h : Represents c s) (hs : s.Interned) (hparents : ∀ p ∈ parents, p < s.count) :
    LaidOut (c.add kind parents) (c.addWithLayout kind parents a) a := by
  obtain ⟨hadd, -⟩ := h.add hs kind hparents
  have hkind := (h.added kind parents).node.1
  have hlt : (c.add kind parents).2 < (c.add kind parents).1.layouts.length := by
    rw [hadd.length_layouts]
    exact (List.getElem?_eq_some_iff.mp hkind).1
  refine ⟨rfl, rfl, fun _ => ⟨rfl, rfl⟩, ?_, fun i hi => ?_⟩
  · exact congrArg Option.join (List.getElem?_set_self hlt)
  · exact congrArg Option.join (List.getElem?_set_ne hi.symm)

end Represents

/-! ### Graphs in columns -/

/-- A node that stands behind all others of a sorted list is its last. -/
theorem getLast?_of_le {l : List Nat} (hsorted : l.Pairwise (· < ·)) (hmem : root ∈ l) (hle : ∀ i ∈ l, i ≤ root) :
    l.getLast? = some root := by
  obtain ⟨front, back, rfl⟩ := List.append_of_mem hmem
  cases back with
  | nil => exact List.getLast?_concat
  | cons i back =>
    have hlt : root < i := (List.pairwise_cons.mp (List.pairwise_append.mp hsorted).2.1).1 i List.mem_cons_self
    have hi := hle i (List.mem_append_right _ (List.mem_cons_of_mem _ List.mem_cons_self))
    exact absurd hlt (Nat.not_lt.mpr hi)

/-- Graphs that are built of nodes whose parents are there: parents stand before their children, and no two nodes do
    the same to the same parents. Adding a node that is there changes nothing, and adding another one puts it behind
    the others, which stay as they are. A node has a child once for each use, and no others. What is reached from a
    node is in order what it depends on, itself at last. -/
theorem built_invariant (h : Built c) :
    (∀ i p, p ∈ c.parents i → p < i) ∧
    (∀ i j, i < c.count → j < c.count → c.kind? i = c.kind? j → c.parents i = c.parents j → i = j) ∧
    (∀ kind parents, (∀ p ∈ parents, p < c.count) → Added c kind parents (c.add kind parents) ∧
      ∀ a, LaidOut (c.add kind parents) (c.addWithLayout kind parents a) a) ∧
    (∀ p i, p < c.count → (c.children p).count i = (c.parents i).count p) ∧
    ∀ root, root < c.count → (c.reachable root).Pairwise (· < ·) ∧ (∀ i, i ∈ c.reachable root ↔ c.Depends root i) ∧
      (c.reachable root).getLast? = some root := by
  obtain ⟨s, hs, hc⟩ := h.represents
  refine ⟨fun i p hp => hs.below i p (hc.parents i ▸ hp), fun i j hi _ => hc.eq_of_same hs hi,
    fun kind parents hparents => ⟨hc.added kind parents, fun a => hc.laidOut hs (hc.count_eq ▸ hparents)⟩, fun p i hp => ?_,
    fun root hroot => ⟨sorted_reachable c root, fun i => hc.mem_reachable_iff hs.below hroot, ?_⟩⟩
  · rw [hc.children_eq hp, NodeStore.count_children, hc.parents]
  · refine getLast?_of_le (sorted_reachable c root) ?_ fun i hi => ?_
    · exact (hc.mem_reachable_iff hs.below hroot).mpr .refl
    · exact hc.le_of_depends hs.below ((hc.mem_reachable_iff hs.below hroot).mp hi)

/-- The root of the square of `x`, next to an input `z` that it does not use. -/
def rootOfSquare : Columns :=
  let c := ((empty.add (.operand "x") []).1.add (.operand "z") []).1
  ((c.add (.call "*" []) [0, 0]).1.add (.call "sqrt" []) [2]).1

theorem built_invariant_rootOfSquare :
    Built rootOfSquare ∧ Added rootOfSquare (.call "*" []) [0, 0] (rootOfSquare, 2) ∧
    (∀ i, (rootOfSquare.children 0).count i = (rootOfSquare.parents i).count 0) ∧
    (∀ i, i ∈ rootOfSquare.reachable 3 ↔ rootOfSquare.Depends 3 i) ∧
    rootOfSquare.children 0 = [2, 2] ∧ rootOfSquare.reachable 3 = [0, 2, 3] := by
  have hbuilt : Built rootOfSquare :=
    .add (.add (.add (.add .empty (by decide)) (by decide +kernel)) (by decide +kernel)) (by decide +kernel)
  obtain ⟨-, -, hadd, hchildren, hreachable⟩ := built_invariant hbuilt
  have hagain : rootOfSquare.add (.call "*" []) [0, 0] = (rootOfSquare, 2) := by decide +kernel
  refine ⟨hbuilt, hagain ▸ (hadd (.call "*" []) [0, 0] (by decide +kernel)).1, fun i => hchildren 0 i (by decide +kernel),
    (hreachable 3 (by decide +kernel)).2.1, ?_, ?_⟩ <;> decide +kernel

end Columns
end Concord
