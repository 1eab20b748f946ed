import Mathlib.Data.List.Sort
import Concord.Proofs.Graph.Cycles

/-! What the sort tells of any graph, whatever cycles it has: it orders the nodes that are on no cycle together, and
    it notes an edge if and only if there is a cycle. -/

namespace Concord.Digraph

variable {g : Digraph} {i j : Nat} {components : List (List Nat)} {c : List Nat}

/-! ### Noted edges -/

/-- A noted edge is on a cycle. -/
theorem leads_of_back {e : Nat × Nat} (he : e ∈ g.sort.backEdges) : g.Leads e.1 e.1 := by
  obtain ⟨hedge, hreach⟩ := g.sort_sorting.1.back e he
  exact .head' hedge hreach

/-- Without noted edges, whatever a node leads to stands before it. -/
theorem idxOf_lt_of_leads (h : g.sort.backEdges = []) (hi : i < g.count) (hleads : g.Leads i j) :
    g.sort.order.idxOf j < g.sort.order.idxOf i := by
  obtain ⟨hsorting, hall⟩ := g.sort_sorting
  have hedge : ∀ {a b}, a < g.count → g.Edge a b → g.sort.order.idxOf b < g.sort.order.idxOf a := by
    intro a b ha hab
    refine (hsorting.uses a (hall a ha) b hab).resolve_right fun hback => ?_
    rw [h] at hback
    cases hback
  induction hleads with
  | single hij => exact hedge hi hij
  | tail hik hkj ih => exact Nat.lt_trans (hedge (Leads.lt hik) hkj) ih

theorem backEdges_eq_nil_iff : g.sort.backEdges = [] ↔ ∀ i, ¬g.Leads i i := by
  constructor
  · exact fun h i hleads => Nat.lt_irrefl _ (idxOf_lt_of_leads h hleads.lt hleads)
  · exact fun h => List.eq_nil_iff_forall_not_mem.mpr fun e he => h e.1 (leads_of_back he)

/-! ### Components -/

/-- Two nodes reach each other: they are strongly connected. -/
def Strong (g : Digraph) (i j : Nat) : Prop := g.Reaches i j ∧ g.Reaches j i

/-- The strongly connected components of a graph, in any order, and the nodes of each in any order. -/
structure Components (g : Digraph) (components : List (List Nat)) : Prop where
  nodup : components.flatten.Nodup
  covers : ∀ i < g.count, ∃ c ∈ components, i ∈ c
  nonempty : ∀ c ∈ components, c ≠ []
  strong : ∀ c ∈ components, ∀ i ∈ c, ∀ j, j ∈ c ↔ j < g.count ∧ g.Strong i j

/-- A component is a cycle: it has several nodes, or one that uses itself. -/
def isCycle (g : Digraph) (c : List Nat) : Bool := 1 < c.length || g.hasEdge (c.headD 0) (c.headD 0)

/-- Those of some components that are cycles, each in order. -/
def cyclesAmong (g : Digraph) (components : List (List Nat)) : List (List Nat) :=
  (components.filter g.isCycle).map (List.insertionSort (· ≤ ·))

theorem Components.lt (h : g.Components components) (hc : c ∈ components) (hi : i ∈ c) : i < g.count :=
  ((h.strong c hc i hi i).mp hi).1

theorem Components.nodup_of_mem (h : g.Components components) (hc : c ∈ components) : c.Nodup :=
  (List.nodup_flatten.mp h.nodup).1 c hc

/-- A node that is strongly connected with another leads to it and back. -/
theorem leads_of_strong (hne : i ≠ j) (h : g.Strong i j) : g.Leads i j ∧ g.Leads j i :=
  ⟨(Relation.reflTransGen_iff_eq_or_transGen.mp h.1).resolve_left hne.symm,
    (Relation.reflTransGen_iff_eq_or_transGen.mp h.2).resolve_left hne⟩

/-- A component is a cycle if and only if its nodes lead to themselves. -/
theorem Components.isCycle_iff (h : g.Components components) (hc : c ∈ components) (hi : i ∈ c) :
    g.isCycle c = true ↔ g.Leads i i := by
  unfold isCycle
  rw [Bool.or_eq_true, decide_eq_true_iff]
  constructor
  · rintro (hlen | hloop)
    · -- Another node of the component is led to, and leads back.
      obtain ⟨j, hj, hne⟩ : ∃ j ∈ c, j ≠ i := by
        by_contra hall
        push Not at hall
        have hsub : c ⊆ [i] := fun j hj => List.mem_singleton.mpr (hall j hj)
        have := ((h.nodup_of_mem hc).subperm hsub).length_le
        rw [List.length_singleton] at this
        omega
      have hleads := leads_of_strong hne.symm ((h.strong c hc i hi j).mp hj).2
      exact hleads.1.trans hleads.2
    · obtain ⟨first, rest, rfl⟩ := List.exists_cons_of_ne_nil (h.nonempty c hc)
      have hfirst : first ∈ first :: rest := List.mem_cons_self
      have hedge : g.Edge first first := edge_iff.mpr ⟨h.lt hc hfirst, List.contains_iff_mem.mp hloop⟩
      obtain ⟨-, hto, hfrom⟩ := (h.strong _ hc i hi first).mp hfirst
      exact .trans_right hto (.head' hedge hfrom)
  · intro hleads
    by_cases hlen : 1 < c.length
    · exact .inl hlen
    · -- The component has this node only, so the first step of the cycle goes to the node itself.
      have hone : c = [i] := by
        obtain ⟨first, rest, rfl⟩ := List.exists_cons_of_ne_nil (h.nonempty c hc)
        rw [List.length_cons] at hlen
        cases List.eq_nil_of_length_eq_zero (show rest.length = 0 by omega)
        rw [List.mem_singleton.mp hi]
      obtain ⟨next, hedge, hback⟩ := Relation.TransGen.head'_iff.mp hleads
      have hnext : next ∈ c := (h.strong c hc i hi next).mpr ⟨hedge.lt, .single hedge, hback⟩
      rw [hone, List.mem_singleton] at hnext
      rw [hnext] at hedge
      rw [hone]
      exact .inr (List.contains_iff_mem.mpr (edge_iff.mp hedge).2)

theorem component_sorted (g : Digraph) (i : Nat) : (g.component i).Pairwise (· < ·) :=
  List.Pairwise.filter _ List.pairwise_lt_range

/-- In order, a component that is a cycle has the nodes that one of its nodes shares a cycle with. -/
theorem Components.sorted_eq (h : g.Components components) (hc : c ∈ components) (hi : i ∈ c)
    (hleads : g.Leads i i) : c.insertionSort (· ≤ ·) = g.component i := by
  refine List.Perm.eq_of_pairwise' (List.pairwise_insertionSort (· ≤ ·) c)
    ((component_sorted g i).imp Nat.le_of_lt) ((List.perm_insertionSort (· ≤ ·) c).trans ?_)
  refine (List.perm_ext_iff_of_nodup (h.nodup_of_mem hc) (component_sorted g i).nodup).mpr fun j => ?_
  rw [h.strong c hc i hi, mem_component hleads.lt]
  constructor
  · rintro ⟨-, hstrong⟩
    by_cases hij : i = j
    · exact hij ▸ ⟨hleads, hleads⟩
    · exact leads_of_strong hij hstrong
  · exact fun ⟨hto, hfrom⟩ => ⟨hto.lt, hto.to_reflTransGen, hfrom.to_reflTransGen⟩

theorem mem_cyclesAmong (h : g.Components components) :
    c ∈ g.cyclesAmong components ↔ ∃ i, g.Leads i i ∧ c = g.component i := by
  unfold cyclesAmong
  constructor
  · intro hmem
    obtain ⟨d, hd, rfl⟩ := List.mem_map.mp hmem
    obtain ⟨hd, hcycle⟩ := List.mem_filter.mp hd
    obtain ⟨i, hi⟩ := List.exists_mem_of_ne_nil d (h.nonempty d hd)
    have hleads := (h.isCycle_iff hd hi).mp hcycle
    exact ⟨i, hleads, h.sorted_eq hd hi hleads⟩
  · rintro ⟨i, hleads, rfl⟩
    obtain ⟨d, hd, hi⟩ := h.covers i hleads.lt
    refine List.mem_map.mpr ⟨d, List.mem_filter.mpr ⟨hd, (h.isCycle_iff hd hi).mpr hleads⟩, ?_⟩
    exact h.sorted_eq hd hi hleads

theorem mem_cyclicComponents_iff : c ∈ g.cyclicComponents ↔ ∃ i, g.Leads i i ∧ c = g.component i := by
  constructor
  · intro hc
    have hmem := hc
    rw [cyclicComponents_eq] at hmem
    obtain ⟨first, hfirst, heq⟩ := List.mem_filterMap.mp hmem
    split at heq
    · rename_i hfind
      cases heq
      have hself : first ∈ (List.range g.count).filter (g.together first) :=
        List.mem_filter.mpr ⟨hfirst, List.find?_some hfind⟩
      exact ⟨first, (mem_cyclicComponents.mp ⟨_, hc, hself⟩).2, rfl⟩
    · cases heq
  · rintro ⟨i, hleads, rfl⟩
    obtain ⟨d, hd, hi⟩ := mem_cyclicComponents.mpr ⟨hleads.lt, hleads⟩
    exact eq_component hd hi ▸ hd

theorem nodup_cyclicComponents (g : Digraph) : g.cyclicComponents.Nodup := by
  rw [cyclicComponents_eq]
  refine List.Nodup.filterMap (fun i j c hi hj => ?_) List.nodup_range
  -- A component is listed at its first node.
  have hfirst : ∀ {k : Nat}, c ∈ (if (List.range g.count).find? (g.together k) = some k then
      some ((List.range g.count).filter (g.together k)) else none) → c.head? = some k := by
    intro k hk
    split at hk
    · rename_i hfind
      cases hk
      rw [List.head?_filter, hfind]
    · cases hk
  exact Option.some.inj ((hfirst hi).symm.trans (hfirst hj))

theorem Components.nodup_cyclesAmong (h : g.Components components) : (g.cyclesAmong components).Nodup := by
  unfold cyclesAmong
  refine List.pairwise_map.mpr (((List.nodup_flatten.mp h.nodup).2.filter g.isCycle).imp_of_mem ?_)
  intro c d hc _ hdisjoint heq
  obtain ⟨i, hi⟩ := List.exists_mem_of_ne_nil c (h.nonempty c (List.mem_filter.mp hc).1)
  exact hdisjoint hi ((List.mem_insertionSort (· ≤ ·)).mp (heq ▸ (List.mem_insertionSort (· ≤ ·)).mpr hi))

/-- The cyclic components are the cycles among the strongly connected components, however these are found. -/
theorem cyclesAmong_perm (h : g.Components components) : (g.cyclesAmong components).Perm g.cyclicComponents :=
  (List.perm_ext_iff_of_nodup h.nodup_cyclesAmong (nodup_cyclicComponents g)).mpr fun _ =>
    (mem_cyclesAmong h).trans mem_cyclicComponents_iff.symm

theorem cyclicComponents_eq_nil_iff : g.cyclicComponents = [] ↔ ∀ i, ¬g.Leads i i := by
  rw [List.eq_nil_iff_forall_not_mem]
  constructor
  · exact fun h i hleads => h _ (mem_cyclicComponents_iff.mpr ⟨i, hleads, rfl⟩)
  · intro h c hc
    obtain ⟨i, hleads, -⟩ := mem_cyclicComponents_iff.mp hc
    exact h i hleads

/-! ### The sort -/

/-- Of any graph, the sort lists every node once, and a node that is used before its user unless they are strongly
    connected. It notes an edge if and only if there is a cycle, and that is so if and only if there are cyclic
    components: the cycles among the strongly connected components, whatever finds these. -/
theorem sort_topological (g : Digraph) :
    g.sort.order.Perm (List.range g.count) ∧
      (∀ i j, i < g.count → j < g.count → (i, j) ∈ g.edges → ¬g.Strong i j →
        g.sort.order.idxOf j < g.sort.order.idxOf i) ∧
      (g.sort.backEdges = [] ↔ ∀ i, ¬g.Leads i i) ∧
      (g.sort.isAcyclic = true ↔ g.cyclicComponents = []) ∧
      ∀ components, g.Components components → (g.cyclesAmong components).Perm g.cyclicComponents := by
  obtain ⟨hsorting, hall⟩ := g.sort_sorting
  refine ⟨?_, fun i j hi hj hedge hstrong => ?_, backEdges_eq_nil_iff, ?_, fun _ => cyclesAmong_perm⟩
  · refine (List.perm_ext_iff_of_nodup hsorting.nodup List.nodup_range).mpr fun i => ?_
    rw [List.mem_range]
    exact ⟨hsorting.lt i, hall i⟩
  · have hij : g.Edge i j := edge_iff.mpr ⟨hj, hedge⟩
    refine (hsorting.uses i (hall i hi) j hij).resolve_right fun hback => hstrong ?_
    exact ⟨.single hij, (hsorting.back _ hback).2⟩
  · unfold Sorted.isAcyclic
    rw [List.isEmpty_iff, backEdges_eq_nil_iff, cyclicComponents_eq_nil_iff]

/-- A cycle of three nodes that is used twice by a fourth one, a node that uses itself, and one that uses both. -/
def knotted : Digraph := ⟨6, [(0, 1), (1, 2), (2, 0), (3, 1), (3, 1), (4, 4), (5, 3), (5, 4)]⟩

theorem strong_iff (hi : i < g.count) (hj : j < g.count) : g.Strong i j ↔ i = j ∨ g.together i j = true := by
  rw [together_iff hi hj]
  constructor
  · intro h
    by_cases hij : i = j
    · exact .inl hij
    · exact .inr (leads_of_strong hij h)
  · rintro (rfl | h)
    · exact ⟨.refl, .refl⟩
    · exact ⟨h.1.to_reflTransGen, h.2.to_reflTransGen⟩

theorem knotted_components : knotted.Components [[5], [2, 0, 1], [4], [3]] where
  nodup := by decide
  covers := by decide
  nonempty := by decide
  strong := by
    have hall : ∀ c ∈ [[5], [2, 0, 1], [4], [3]], ∀ i ∈ c, i < 6 ∧
        ∀ j < 6, j ∈ c ↔ i = j ∨ knotted.together i j = true := by
      decide +kernel
    intro c hc i hi j
    obtain ⟨hlt, hstrong⟩ := hall c hc i hi
    constructor
    · intro hj
      have hj' := (hall c hc j hj).1
      exact ⟨hj', (strong_iff hlt hj').mpr ((hstrong j hj').mp hj)⟩
    · exact fun ⟨hj, h⟩ => (hstrong j hj).mpr ((strong_iff hlt hj).mp h)

theorem sort_topological_knotted :
    knotted.sort.order = [2, 1, 0, 3, 4, 5] ∧ knotted.sort.backEdges = [(2, 0), (4, 4)] ∧
      knotted.sort.order.idxOf 1 < knotted.sort.order.idxOf 3 ∧
      (knotted.cyclesAmong [[5], [2, 0, 1], [4], [3]]).Perm knotted.cyclicComponents ∧
      knotted.cyclesAmong [[5], [2, 0, 1], [4], [3]] = [[0, 1, 2], [4]] := by
  obtain ⟨-, hbefore, -, -, hcycles⟩ := sort_topological knotted
  have hstrong : ¬knotted.Strong 3 1 := by
    rw [strong_iff (by decide) (by decide)]
    decide +kernel
  exact ⟨by decide +kernel, by decide +kernel, hbefore 3 1 (by decide) (by decide) (by decide) hstrong,
    hcycles _ knotted_components, by decide +kernel⟩

end Concord.Digraph
