import Mathlib.Data.List.Nodup
import Mathlib.Data.List.Perm.Subperm
import Mathlib.Logic.Relation
import Concord.Graph.Digraph

/-! The depth-first sort. It lists every node once, and a node that is used stands before its user unless the edge
    closed a cycle. Such edges are noted, and they are on cycles. -/

namespace Concord.Digraph

variable {g : Digraph} {i j : Nat}

/-- An edge of a graph between two of its nodes. -/
def Edge (g : Digraph) (i j : Nat) : Prop := j ∈ g.successors i

/-- A node is reached from another in any number of steps. -/
abbrev Reaches (g : Digraph) : Nat → Nat → Prop := Relation.ReflTransGen g.Edge

theorem edge_iff : g.Edge i j ↔ j < g.count ∧ (i, j) ∈ g.edges := by
  unfold Edge successors
  simp only [List.mem_filter, List.mem_range, List.contains_iff_mem, List.mem_filterMap]
  refine and_congr_right fun _ => ⟨?_, fun h => ⟨(i, j), h, by simp⟩⟩
  rintro ⟨⟨a, b⟩, hmem, heq⟩
  split at heq
  · rename_i ha
    cases heq
    exact ha ▸ hmem
  · cases heq

theorem Edge.lt (h : g.Edge i j) : j < g.count := (edge_iff.mp h).1

/-- Lists of different nodes have no more members than there are nodes. -/
theorem length_le_count {l : List Nat} (hn : l.Nodup) (hlt : ∀ i ∈ l, i < g.count) : l.length ≤ g.count := by
  have hsub : l ⊆ List.range g.count := fun i hi => List.mem_range.mpr (hlt i hi)
  have := (hn.subperm hsub).length_le
  rwa [List.length_range] at this

/-! ### Order -/

/-- The nodes that are sorted so far, while those of a path are being visited. What a node uses stands before it,
    unless the edge closed a cycle and was noted. -/
structure Sorting (g : Digraph) (path : List Nat) (s : Sorted) : Prop where
  nodup : s.order.Nodup
  lt : ∀ i ∈ s.order, i < g.count
  fresh : ∀ i ∈ path, i ∉ s.order
  back : ∀ e ∈ s.backEdges, g.Edge e.1 e.2 ∧ g.Reaches e.2 e.1
  uses : ∀ i ∈ s.order, ∀ j, g.Edge i j → s.order.idxOf j < s.order.idxOf i ∨ (i, j) ∈ s.backEdges

/-- More nodes are sorted than before, and these are. -/
structure Visited (g : Digraph) (path ids : List Nat) (s t : Sorted) : Prop where
  sorting : Sorting g path t
  kept : s.order <+: t.order
  noted : s.backEdges ⊆ t.backEdges
  met : ∀ i ∈ ids, i ∈ t.order

/-- A node before one that it uses is reached from it again. -/
theorem Sorting.ordered {path : List Nat} {s : Sorted} (h : Sorting g path s) :
    s.order.Pairwise fun i j => g.Edge i j → g.Reaches j i := by
  refine List.pairwise_iff_getElem.mpr fun a b ha hb hab hedge => ?_
  refine (h.uses _ (List.getElem_mem ha) _ hedge).elim (fun hlt => ?_) fun hback => (h.back _ hback).2
  rw [h.nodup.idxOf_getElem, h.nodup.idxOf_getElem] at hlt
  omega

/-- An edge to a node of the path is noted. -/
theorem Sorting.note {path : List Nat} {s : Sorted} (h : Sorting g path s) (hj : g.Edge i j) (hreach : g.Reaches j i) :
    Sorting g path { s with backEdges := s.backEdges ++ [(i, j)] } where
  nodup := h.nodup
  lt := h.lt
  fresh := h.fresh
  back e he := by
    rcases List.mem_append.mp he with he | he
    · exact h.back e he
    · rw [List.mem_singleton.mp he]
      exact ⟨hj, hreach⟩
  uses a ha b hab := (h.uses a ha b hab).imp_right (List.mem_append_left _)

/-- A node whose successors are sorted, or noted, is sorted next. -/
theorem Sorting.finish {path : List Nat} {s : Sorted} (h : Sorting g (i :: path) s) (hi : i < g.count)
    (hpath : i ∉ path) (hsucc : ∀ j, g.Edge i j → j ∈ s.order ∨ (i, j) ∈ s.backEdges) :
    Sorting g path { s with order := s.order ++ [i] } where
  nodup := List.nodup_append.mpr ⟨h.nodup, List.nodup_singleton i, fun a ha b hb heq => by
    rw [List.mem_singleton.mp hb] at heq
    exact h.fresh i List.mem_cons_self (heq ▸ ha)⟩
  lt a ha := by
    rcases List.mem_append.mp ha with ha | ha
    · exact h.lt a ha
    · rwa [List.mem_singleton.mp ha]
  fresh p hp hmem := by
    rcases List.mem_append.mp hmem with hmem | hmem
    · exact h.fresh p (List.mem_cons_of_mem _ hp) hmem
    · exact hpath (List.mem_singleton.mp hmem ▸ hp)
  back := h.back
  uses a ha j hj := by
    rcases List.mem_append.mp ha with ha | ha
    · refine (h.uses a ha j hj).imp_left fun hlt => ?_
      have hmem : j ∈ s.order := List.idxOf_lt_length_iff.mp (Nat.lt_trans hlt (List.idxOf_lt_length_of_mem ha))
      rwa [List.idxOf_append_of_mem hmem, List.idxOf_append_of_mem ha]
    · -- The node itself stands behind all that is sorted.
      obtain rfl := List.mem_singleton.mp ha
      refine (hsucc j hj).imp_left fun hmem => ?_
      rw [List.idxOf_append_of_mem hmem, List.idxOf_append_of_notMem (h.fresh a List.mem_cons_self)]
      exact Nat.lt_add_right _ (List.idxOf_lt_length_of_mem hmem)

/-- Goes on to a successor of a node, unless that is sorted or on the way. -/
def follow (g : Digraph) (fuel : Nat) (path : List Nat) (i : Nat) (s : Sorted) (j : Nat) : Sorted :=
  if s.order.contains j then s
  else if (i :: path).contains j then { s with backEdges := s.backEdges ++ [(i, j)] }
  else g.visit fuel (i :: path) j s

theorem visit_succ (fuel : Nat) (path : List Nat) (i : Nat) (s : Sorted) :
    g.visit (fuel + 1) path i s =
      { (g.successors i).foldl (g.follow fuel path i) s with
        order := ((g.successors i).foldl (g.follow fuel path i) s).order ++ [i] } := rfl

/-- A path to a node that is to be visited: it has no node twice, so that there is fuel for what is left. -/
structure Path (g : Digraph) (fuel : Nat) (path : List Nat) (i : Nat) : Prop where
  fuel : g.count ≤ path.length + fuel
  nodup : (i :: path).Nodup
  lt : ∀ p ∈ i :: path, p < g.count
  reaches : ∀ p ∈ path, g.Reaches p i

theorem Path.reaches_all {fuel : Nat} {path : List Nat} (h : Path g fuel path i) : ∀ p ∈ i :: path, g.Reaches p i := by
  intro p hp
  rcases List.mem_cons.mp hp with rfl | hp
  · exact .refl
  · exact h.reaches p hp

theorem Path.cons {fuel : Nat} {path : List Nat} (h : Path g (fuel + 1) path i) (hj : g.Edge i j) (hnew : j ∉ i :: path) :
    Path g fuel (i :: path) j where
  fuel := by
    have := h.fuel
    simp only [List.length_cons]
    omega
  nodup := List.nodup_cons.mpr ⟨hnew, h.nodup⟩
  lt p hp := by
    rcases List.mem_cons.mp hp with rfl | hp
    · exact hj.lt
    · exact h.lt p hp
  reaches p hp := (h.reaches_all p hp).tail hj

/-- What a visit does, as far as there is fuel. -/
def Visits (g : Digraph) (fuel : Nat) : Prop :=
  ∀ {path : List Nat} {i : Nat} {s : Sorted}, Path g fuel path i → Sorting g path s → i ∉ s.order →
    Visited g path [i] s (g.visit fuel path i s)

/-- A successor of a node is sorted, or the edge to it is noted. -/
structure Followed (g : Digraph) (path : List Nat) (i : Nat) (js : List Nat) (s t : Sorted) : Prop where
  visited : Visited g (i :: path) [] s t
  met : ∀ j ∈ js, j ∈ t.order ∨ (i, j) ∈ t.backEdges

theorem Visited.refl {path : List Nat} {s : Sorted} (h : Sorting g path s) : Visited g path [] s s :=
  ⟨h, List.prefix_rfl, List.Subset.refl _, by simp⟩

theorem follow_visited {fuel : Nat} {path : List Nat} {s : Sorted} (ih : Visits g fuel)
    (hp : Path g (fuel + 1) path i) (hj : g.Edge i j) (hs : Sorting g (i :: path) s) :
    Followed g path i [j] s (g.follow fuel path i s j) := by
  unfold follow
  split
  · rename_i hmem
    exact ⟨.refl hs, fun k hk => .inl (List.mem_singleton.mp hk ▸ by simpa using hmem)⟩
  · rename_i hnew
    split
    · rename_i hmem
      refine ⟨⟨hs.note hj (hp.reaches_all j (by simpa using hmem)), List.prefix_rfl, List.subset_append_left _ _,
        by simp⟩, fun k hk => .inr ?_⟩
      rw [List.mem_singleton.mp hk]
      exact List.mem_append_right _ (List.mem_singleton_self _)
    · rename_i hout
      have hv := ih (hp.cons hj (by simpa using hout)) hs (by simpa using hnew)
      exact ⟨⟨hv.sorting, hv.kept, hv.noted, by simp⟩, fun k hk => .inl (hv.met k hk)⟩

theorem foldl_follow_visited {fuel : Nat} {path : List Nat} (ih : Visits g fuel) (hp : Path g (fuel + 1) path i) :
    ∀ (js : List Nat) {s : Sorted}, (∀ j ∈ js, g.Edge i j) → Sorting g (i :: path) s →
      Followed g path i js s (js.foldl (g.follow fuel path i) s)
  | [], _, _, hs => ⟨.refl hs, by simp⟩
  | j :: js, s, hjs, hs => by
    obtain ⟨hfirst, hmet⟩ := follow_visited ih hp (hjs j List.mem_cons_self) hs
    obtain ⟨hrest, hall⟩ :=
      foldl_follow_visited ih hp js (fun k hk => hjs k (List.mem_cons_of_mem _ hk)) hfirst.sorting
    rw [List.foldl_cons]
    refine ⟨⟨hrest.sorting, hfirst.kept.trans hrest.kept, List.Subset.trans hfirst.noted hrest.noted, by simp⟩,
      fun k hk => ?_⟩
    rcases List.mem_cons.mp hk with rfl | hk
    · exact (hmet k (List.mem_singleton_self k)).imp (fun hmem => hrest.kept.subset hmem) fun hmem => hrest.noted hmem
    · exact hall k hk

/-- Visiting a node sorts it, and what it uses before it. -/
theorem visit_visited : ∀ fuel : Nat, Visits g fuel
  | 0, path, i, s, hp, _, _ => by
    -- Without fuel the path would already hold every node, and `i` besides.
    have := length_le_count hp.nodup hp.lt
    have := hp.fuel
    simp only [List.length_cons] at *
    omega
  | fuel + 1, path, i, s, hp, hs, hi => by
    have hstart : Sorting g (i :: path) s := by
      refine ⟨hs.nodup, hs.lt, fun p hmem => ?_, hs.back, hs.uses⟩
      rcases List.mem_cons.mp hmem with rfl | hmem
      · exact hi
      · exact hs.fresh p hmem
    obtain ⟨hall, hmet⟩ := foldl_follow_visited (visit_visited fuel) hp (g.successors i) (fun _ hj => hj) hstart
    rw [visit_succ]
    refine ⟨hall.sorting.finish (hp.lt i List.mem_cons_self) (List.nodup_cons.mp hp.nodup).1 hmet,
      hall.kept.trans (List.prefix_append _ _), hall.noted, fun a ha => ?_⟩
    rw [List.mem_singleton.mp ha]
    exact List.mem_append_right _ (List.mem_singleton_self i)

/-- The sort lists every node once, and what a node uses before it unless the edge is noted. -/
theorem sort_sorting (g : Digraph) : Sorting g [] g.sort ∧ ∀ i < g.count, i ∈ g.sort.order := by
  have hfold : ∀ (is : List Nat) {s : Sorted}, (∀ i ∈ is, i < g.count) → Sorting g [] s →
      Visited g [] is s (is.foldl (fun s i => if s.order.contains i then s else g.visit g.count [] i s) s) := by
    intro is
    induction is with
    | nil => exact fun _ hs => .refl hs
    | cons i is ih =>
      intro s his hs
      have hstep : Visited g [] [i] s (if s.order.contains i then s else g.visit g.count [] i s) := by
        split
        · rename_i hmem
          exact ⟨hs, List.prefix_rfl, List.Subset.refl _, fun a ha => List.mem_singleton.mp ha ▸ by simpa using hmem⟩
        · rename_i hnew
          have hpath : Path g g.count [] i := ⟨by simp, List.nodup_singleton i,
            fun p hp => List.mem_singleton.mp hp ▸ his i List.mem_cons_self, by simp⟩
          exact visit_visited g.count hpath hs (by simpa using hnew)
      have hrest := ih (fun j hj => his j (List.mem_cons_of_mem _ hj)) hstep.sorting
      rw [List.foldl_cons]
      refine ⟨hrest.sorting, hstep.kept.trans hrest.kept, List.Subset.trans hstep.noted hrest.noted, fun j hj => ?_⟩
      rcases List.mem_cons.mp hj with rfl | hj
      · exact hrest.kept.subset (hstep.met j (List.mem_singleton_self j))
      · exact hrest.met j hj
  have hall := hfold (List.range g.count) (s := ⟨[], []⟩) (fun i hi => List.mem_range.mp hi)
    ⟨List.nodup_nil, by simp, by simp, by simp, by simp⟩
  exact ⟨hall.sorting, fun i hi => hall.met i (List.mem_range.mpr hi)⟩

end Concord.Digraph
