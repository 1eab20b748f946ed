import Mathlib.Data.List.Chain
import Concord.Proofs.Graph.Acyclic
import Concord.Proofs.Graph.Walks

/-! The walk that shows a cycle. It goes from the first node of a component along edges through all of its nodes, and
    back to the first. -/

namespace Concord.Digraph

variable {g : Digraph} {members path path' others : List Nat}
  {i j k start : Nat} {w : Walk}

/-! ### Trails -/

theorem Trail.head? (h : g.Trail i j path) : path.head? = some i := by
  induction h with
  | single => rfl
  | step _ _ ih => rw [List.head?_append, ih, Option.some_or]

theorem Trail.getLast? (h : g.Trail i j path) : path.getLast? = some j := by
  cases h with
  | single => rfl
  | step => exact List.getLast?_concat

theorem Trail.chain (h : g.Trail i j path) : path.IsChain g.Edge := by
  induction h with
  | single => exact .singleton _
  | step h hedge ih =>
    refine List.isChain_append.mpr ⟨ih, .singleton _, fun a ha b hb => ?_⟩
    rw [h.getLast?] at ha
    cases ha
    cases hb
    exact hedge

theorem Trail.eq_cons (h : g.Trail i j path) : path = i :: path.tail := by
  have hhead := h.head?
  cases path with
  | nil => cases hhead
  | cons a path => rw [Option.some.inj hhead, List.tail_cons]

/-- A trail goes on where another one ends. -/
theorem Trail.append (h : g.Trail i j path) (h' : g.Trail j k path') : g.Trail i k (path ++ path'.tail) := by
  induction h' with
  | single => rwa [List.tail_cons, List.append_nil]
  | step h' hedge ih =>
    rw [List.tail_append_of_ne_nil h'.ne_nil, ← List.append_assoc]
    exact ih.step hedge

/-! ### Components -/

/-- What leads from a node of a component to another one stays in the component. -/
theorem leads_within (hto : g.Leads k i) (hleads : g.Leads i j) (hfrom : g.Leads j k) :
    Relation.TransGen (fun a b => g.Edge a b ∧ b ∈ g.component k) i j := by
  have hk : k < g.count := Leads.lt hfrom
  induction hleads with
  | single hij => exact .single ⟨hij, (mem_component hk).mpr ⟨hto.tail hij, hfrom⟩⟩
  | tail hleads hij ih =>
    have hmem := (mem_component hk).mpr ⟨(hto.trans hleads).tail hij, hfrom⟩
    exact (ih (.head hij hfrom)).tail ⟨hij, hmem⟩

/-- From each of some nodes there is a way to each of them that does not leave them. -/
def Knit (g : Digraph) (members : List Nat) : Prop :=
  ∀ i ∈ members, ∀ j ∈ members, Relation.TransGen (fun a b => g.Edge a b ∧ b ∈ members) i j

theorem knit_component (hk : k < g.count) : g.Knit (g.component k) := by
  intro i hi j hj
  obtain ⟨hki, hik⟩ := (mem_component hk).mp hi
  obtain ⟨hkj, hjk⟩ := (mem_component hk).mp hj
  exact leads_within hki (hik.trans hkj) hjk

/-! ### Walks -/

/-- A walk on its way through some nodes: it has come along edges from the start, and has met all that it need not meet
    any more. As long as it is at the start it has met nothing else. -/
structure Walk.Under (g : Digraph) (start : Nat) (others : List Nat) (w : Walk) : Prop where
  inside : w.Inside (start :: others)
  trail : g.Trail start w.current w.met
  met : ∀ i ∈ start :: others, i ∈ w.met ∨ i ∈ w.pending
  others : w.pending ⊆ others
  begun : w.current = start → w.met = [start]

theorem under_start (g : Digraph) (start : Nat) (others : List Nat) : Walk.Under g start others ⟨[start], start, others⟩ where
  inside := inside_others start others
  trail := .single
  met _ hi := (List.mem_cons.mp hi).imp_left fun heq => List.mem_singleton.mpr heq
  others := List.Subset.refl _
  begun _ := rfl

/-- A walk goes on to a node that is pending. -/
theorem Walk.Under.along (h : w.Under g start others) (hstart : start ∉ others) (htrail : g.Trail w.current j path)
    (hpath : path ⊆ start :: others) (hj : j ∈ w.pending) : (w.along path).Under g start others := by
  have hcurrent : (w.along path).current = j := by
    show path.getLastD w.current = j
    rw [List.getLastD_eq_getLast?, htrail.getLast?, Option.getD_some]
  refine ⟨h.inside.along hpath, ?_, fun i hi => ?_, fun _ hi => h.others (List.mem_filter.mp hi).1, fun hback => ?_⟩
  · rw [hcurrent]
    exact h.trail.append htrail
  · rcases h.met i hi with hmet | hpending
    · exact .inl (List.mem_append_left _ hmet)
    · by_cases hnew : i ∈ path
      · rw [htrail.eq_cons] at hnew
        refine .inl ?_
        rcases List.mem_cons.mp hnew with rfl | hnew
        · exact List.mem_append_left _ (List.mem_of_getLast? h.trail.getLast?)
        · exact List.mem_append_right _ hnew
      · exact .inr (List.mem_filter.mpr ⟨hpending, by simpa using hnew⟩)
  · rw [hcurrent] at hback
    exact absurd (hback ▸ h.others hj) hstart

theorem Walk.length_along (hj : j ∈ w.pending) (hpath : j ∈ path) :
    (w.along path).pending.length < w.pending.length :=
  List.length_filter_lt_length_iff_exists.mpr ⟨j, hj, by simpa using hpath⟩

/-- Among knit nodes a walk goes on until it has met all. -/
theorem walkThrough_meets (hknit : g.Knit (start :: others)) (hstart : start ∉ others) : ∀ (fuel : Nat) {w : Walk},
    w.Under g start others → w.pending.length ≤ fuel →
      (g.walkThrough (start :: others) fuel w).Under g start others ∧
        (g.walkThrough (start :: others) fuel w).pending = []
  | 0, _, h, hfuel => ⟨h, List.eq_nil_of_length_eq_zero (Nat.le_zero.mp hfuel)⟩
  | fuel + 1, w, h, hfuel => by
    by_cases hpending : w.pending = []
    · rw [walkThrough_nil hpending]
      exact ⟨h, hpending⟩
    · obtain ⟨next, hnext⟩ := List.exists_mem_of_ne_nil _ hpending
      obtain ⟨path, hpath⟩ := exists_shortestPath h.inside.current (List.contains_iff_mem.mpr hnext)
        (hknit _ h.inside.current _ (h.inside.pending hnext))
      obtain ⟨j, hj, htrail, -, hsub⟩ := shortestPath_trail h.inside.current hpath
      have hj' : j ∈ w.pending := List.contains_iff_mem.mp hj
      have hlength := Walk.length_along hj' (List.mem_of_getLast? htrail.getLast?)
      rw [walkThrough_cons hpending, hpath, Option.map_some, Option.getD_some]
      exact walkThrough_meets hknit hstart fuel (h.along hstart htrail hsub hj') (by omega)

/-! ### Tours -/

/-- A closed walk through some nodes: from the first of them along edges back to it, through all of them and through
    nothing else. -/
structure IsTour (g : Digraph) (component walk : List Nat) : Prop where
  first : walk.head? = component.head?
  last : walk.getLast? = component.head?
  moves : 2 ≤ walk.length
  edges : walk.IsChain g.Edge
  through : ∀ i, i ∈ walk ↔ i ∈ component

/-- All that the walk through a component repeats comes to an end of its own: each search, the way back from what it
    finds, and the walk itself, which has then met all. -/
structure TourEnds (g : Digraph) (component : List Nat) : Prop where
  search : ∀ current ∈ component, ∀ goal, (g.search component current goal).IsOver
  retrace : ∀ current ∈ component, ∀ goal, (g.search component current goal).found.isSome = true →
    (g.shortestPath component current goal).isSome = true
  walk : ∀ start others, component = start :: others →
    (g.walkThrough component others.length ⟨[start], start, others⟩).pending = []

theorem Search.path_isSome {members : List Nat} {goal : Nat → Bool} {s : Search}
    (h : Searching g members goal start [] s) (hfound : s.found.isSome = true) : (s.path start).isSome = true := by
  obtain ⟨j, hj⟩ := Option.isSome_iff_exists.mp hfound
  obtain ⟨path, hpath, -⟩ := path_trail h hj
  exact Option.isSome_iff_exists.mpr ⟨path, hpath⟩

theorem tour_ends (hknit : g.Knit members) (hnodup : members.Nodup) : g.TourEnds members where
  search _ hcurrent _ := (search_ends _ _ hcurrent).2
  retrace _ hcurrent _ hfound := Search.path_isSome (search_ends _ _ hcurrent).1 hfound
  walk start others heq := by
    subst heq
    exact (walkThrough_meets hknit (List.nodup_cons.mp hnodup).1 _ (under_start g start others) (Nat.le_refl _)).2

/-- A walk that has met all goes back to the start. -/
theorem goBack_tour (hknit : g.Knit (start :: others)) (h : w.Under g start others) (hpending : w.pending = []) :
    g.IsTour (start :: others) (goBack g (start :: others) start w) := by
  have hmet : ∀ i ∈ start :: others, i ∈ w.met := by
    intro i hi
    rcases h.met i hi with hmem | hmem
    · exact hmem
    · rw [hpending] at hmem
      cases hmem
  have hstart : start ∈ start :: others := List.mem_cons_self
  obtain ⟨path, hpath⟩ : ∃ path, g.shortestPath (start :: others) w.current (· == start) = some path :=
    exists_shortestPath h.inside.current (beq_self_eq_true start) (hknit _ h.inside.current _ hstart)
  obtain ⟨j, hj, htrail, hlength, hsub⟩ := shortestPath_trail h.inside.current hpath
  obtain rfl : j = start := beq_iff_eq.mp hj
  -- A walk that is still at the start has met all with the start alone, which then uses itself.
  have hgo : w.current ≠ j ∨ g.hasEdge j j = true := by
    by_cases hcurrent : w.current = j
    · have hone : ∀ i ∈ j :: others, i = j := by
        intro i hi
        have hmem := hmet i hi
        rw [h.begun hcurrent] at hmem
        exact List.mem_singleton.mp hmem
      obtain ⟨next, ⟨hedge, hnext⟩, -⟩ := Relation.TransGen.head'_iff.mp (hknit j hstart j hstart)
      rw [hone next hnext] at hedge
      exact .inr (List.contains_iff_mem.mpr (edge_iff.mp hedge).2)
    · exact .inl hcurrent
  have htour : goBack g (j :: others) j w = w.met ++ path.tail := by
    unfold goBack
    rw [hpath]
    exact if_pos hgo
  have hclosed : g.Trail j j (w.met ++ path.tail) := h.trail.append htrail
  rw [htour]
  refine ⟨hclosed.head?, hclosed.getLast?, ?_, hclosed.chain, fun i => ⟨fun hi => ?_, fun hi => ?_⟩⟩
  · have hpos : 0 < w.met.length := List.length_pos_iff.mpr h.trail.ne_nil
    rw [List.length_append, List.length_tail]
    omega
  · rcases List.mem_append.mp hi with hi | hi
    · exact h.inside.met hi
    · exact hsub (List.mem_of_mem_tail hi)
  · exact List.mem_append_left _ (hmet i hi)

theorem cycleWalk_tour (hknit : g.Knit members) (hnodup : members.Nodup) (hne : members ≠ []) :
    g.IsTour members (g.cycleWalk members) := by
  obtain ⟨start, others, rfl⟩ := List.exists_cons_of_ne_nil hne
  obtain ⟨hunder, hpending⟩ := walkThrough_meets hknit (List.nodup_cons.mp hnodup).1 others.length
    (under_start g start others) (Nat.le_refl _)
  have htour := goBack_tour hknit hunder hpending
  have hmoves := htour.moves
  rw [cycleWalk_cons]
  dsimp only
  rwa [if_neg (by omega)]

/-- The walk through a cyclic component comes to its end, and is a closed walk from the first node of the component
    along edges through all of its nodes and through no other. That is so for the components found by mutual reach, and
    for those among any list of the strongly connected components. -/
theorem cycleWalk_closed {component : List Nat} (h : component ∈ g.cyclicComponents ∨
    ∃ components, g.Components components ∧ component ∈ g.cyclesAmong components) :
    component ≠ [] ∧ g.TourEnds component ∧ g.IsTour component (g.cycleWalk component) := by
  obtain ⟨i, hleads, rfl⟩ : ∃ i, g.Leads i i ∧ component = g.component i := by
    rcases h with h | ⟨components, hcomponents, h⟩
    · exact mem_cyclicComponents_iff.mp h
    · exact (mem_cyclesAmong hcomponents).mp h
  have hi : i < g.count := Leads.lt hleads
  have hknit : g.Knit (g.component i) := knit_component hi
  have hnodup : (g.component i).Nodup := (component_sorted g i).nodup
  have hne : g.component i ≠ [] := List.ne_nil_of_mem ((mem_component hi).mpr ⟨hleads, hleads⟩)
  exact ⟨hne, tour_ends hknit hnodup, cycleWalk_tour hknit hnodup hne⟩

/-- Two cycles through one node, one of them over parallel edges, and a node that uses itself and the first. -/
def petals : Digraph := ⟨4, [(0, 1), (1, 0), (0, 2), (2, 0), (2, 0), (3, 0), (3, 3)]⟩

/-- From the second node the search meets its start again before it finds the third. -/
theorem cycleWalk_closed_petals :
    petals.cyclicComponents = [[0, 1, 2], [3]] ∧ petals.cycleWalk [0, 1, 2] = [0, 1, 0, 2, 0] ∧
      petals.cycleWalk [3] = [3, 3] ∧ petals.IsTour [0, 1, 2] (petals.cycleWalk [0, 1, 2]) ∧
      petals.IsTour [3] (petals.cycleWalk [3]) := by
  have hcomponents : petals.cyclicComponents = [[0, 1, 2], [3]] := by decide +kernel
  have hfirst : [0, 1, 2] ∈ petals.cyclicComponents := by rw [hcomponents]; exact List.mem_cons_self
  have hsecond : [3] ∈ petals.cyclicComponents := by rw [hcomponents]; decide
  exact ⟨hcomponents, by decide +kernel, by decide +kernel, (cycleWalk_closed (.inl hfirst)).2.2,
    (cycleWalk_closed (.inl hsecond)).2.2⟩

end Concord.Digraph
