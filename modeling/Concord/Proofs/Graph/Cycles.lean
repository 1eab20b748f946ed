import Mathlib.Data.List.Find
import Concord.Proofs.Graph.Sorting

/-! Nodes on cycles. The descendants of a node are those that it reaches in one step or more, and the cyclic
    components hold the nodes that reach themselves. -/

namespace Concord.Digraph

variable {g : Digraph} {i j : Nat}

/-- A node is reached from another in one step or more. -/
abbrev Leads (g : Digraph) : Nat → Nat → Prop := Relation.TransGen g.Edge

theorem Leads.lt (h : g.Leads i j) : j < g.count := by
  cases h with
  | single h => exact h.lt
  | tail _ h => exact h.lt

/-! ### Spreading -/

/-- The nodes that one round of spreading adds. -/
def fringe (next : Nat → List Nat) (seen frontier : List Nat) : List Nat :=
  frontier.foldl (fun more i => more ++ (next i).filter fun j => !seen.contains j && !more.contains j) []

theorem spread_succ (next : Nat → List Nat) (fuel : Nat) (seen frontier : List Nat) :
    spread next (fuel + 1) seen frontier =
      if (fringe next seen frontier).isEmpty then seen
      else spread next fuel (seen ++ fringe next seen frontier) (fringe next seen frontier) := rfl

section
variable {next : Nat → List Nat} {seen frontier : List Nat}

/-- What a round adds is new, each node once, and all that is next to the frontier is there then. -/
structure Fringe (next : Nat → List Nat) (seen frontier more : List Nat) : Prop where
  nodup : more.Nodup
  fresh : ∀ j ∈ more, j ∉ seen
  sound : ∀ j ∈ more, ∃ i ∈ frontier, j ∈ next i
  complete : ∀ i ∈ frontier, ∀ j ∈ next i, j ∈ seen ∨ j ∈ more

theorem fringe_spec (hnext : ∀ i, (next i).Nodup) : Fringe next seen frontier (fringe next seen frontier) := by
  have key : ∀ (rest done more : List Nat), Fringe next seen done more → Fringe next seen (done ++ rest)
      (rest.foldl (fun more i => more ++ (next i).filter fun j => !seen.contains j && !more.contains j) more) := by
    intro rest
    induction rest with
    | nil => simp
    | cons i rest ih =>
      intro done more h
      have hnew : ∀ j, j ∈ (next i).filter (fun j => !seen.contains j && !more.contains j) ↔
          j ∈ next i ∧ j ∉ seen ∧ j ∉ more := by simp
      have hstep : Fringe next seen (done ++ [i])
          (more ++ (next i).filter fun j => !seen.contains j && !more.contains j) := by
        refine ⟨?_, fun j hj => ?_, fun j hj => ?_, fun k hk j hj => ?_⟩
        · refine List.nodup_append.mpr ⟨h.nodup, (hnext i).filter _, fun a ha b hb heq => ?_⟩
          exact ((hnew b).mp hb).2.2 (heq ▸ ha)
        · rcases List.mem_append.mp hj with hj | hj
          · exact h.fresh j hj
          · exact ((hnew j).mp hj).2.1
        · rcases List.mem_append.mp hj with hj | hj
          · obtain ⟨k, hk, hkj⟩ := h.sound j hj
            exact ⟨k, List.mem_append_left _ hk, hkj⟩
          · exact ⟨i, by simp, ((hnew j).mp hj).1⟩
        · rcases List.mem_append.mp hk with hk | hk
          · exact (h.complete k hk j hj).imp_right fun hmem => List.mem_append_left _ hmem
          · obtain rfl := List.mem_singleton.mp hk
            by_cases hseen : j ∈ seen
            · exact .inl hseen
            · by_cases hmore : j ∈ more
              · exact .inr (List.mem_append_left _ hmore)
              · exact .inr (List.mem_append_right _ ((hnew j).mpr ⟨hj, hseen, hmore⟩))
      have := ih (done ++ [i]) _ hstep
      rwa [List.append_assoc, List.singleton_append] at this
  exact key frontier [] [] ⟨List.nodup_nil, by simp, by simp, by simp⟩

/-- What holds of the nodes at the start, and of what is next to nodes that it holds of, holds of all. -/
theorem spread_induction {P : Nat → Prop} (hnext : ∀ i, (next i).Nodup) (hstep : ∀ i, P i → ∀ j ∈ next i, P j) :
    ∀ (fuel : Nat) {seen frontier : List Nat}, (∀ i ∈ seen, P i) → (∀ i ∈ frontier, P i) →
      ∀ i ∈ spread next fuel seen frontier, P i
  | 0, _, _, hseen, _ => hseen
  | fuel + 1, seen, frontier, hseen, hfrontier => by
    have hf : Fringe next seen frontier (fringe next seen frontier) := fringe_spec hnext
    have hmore : ∀ j ∈ fringe next seen frontier, P j := by
      intro j hj
      obtain ⟨i, hi, hij⟩ := hf.sound j hj
      exact hstep i (hfrontier i hi) j hij
    rw [spread_succ]
    split
    · exact hseen
    · refine spread_induction hnext hstep fuel (fun i hi => ?_) hmore
      exact (List.mem_append.mp hi).elim (hseen i) (hmore i)

/-- With fuel for all nodes, spreading ends with a set that is closed under going on. -/
theorem spread_closed {n : Nat} (hnext : ∀ i, (next i).Nodup) (hlt : ∀ i, ∀ j ∈ next i, j < n) :
    ∀ (fuel : Nat) {seen frontier : List Nat}, n ≤ seen.length + fuel → seen.Nodup → (∀ i ∈ seen, i < n) →
      (∀ i ∈ seen, i ∉ frontier → ∀ j ∈ next i, j ∈ seen) →
      seen ⊆ spread next fuel seen frontier ∧
        ∀ i ∈ spread next fuel seen frontier, ∀ j ∈ next i, j ∈ spread next fuel seen frontier
  | 0, seen, frontier, hfuel, hnodup, hin, _ => by
    -- So many different nodes are all nodes.
    have hsub : seen ⊆ List.range n := fun i hi => List.mem_range.mpr (hin i hi)
    have hperm := (hnodup.subperm hsub).perm_of_length_le (by simpa using hfuel)
    exact ⟨List.Subset.refl _, fun i _ j hj => hperm.mem_iff.mpr (List.mem_range.mpr (hlt i j hj))⟩
  | fuel + 1, seen, frontier, hfuel, hnodup, hin, hclosed => by
    have hf : Fringe next seen frontier (fringe next seen frontier) := fringe_spec hnext
    have hnear : ∀ i ∈ seen, ∀ j ∈ next i, j ∈ seen ∨ j ∈ fringe next seen frontier := by
      intro i hi j hj
      by_cases hmem : i ∈ frontier
      · exact hf.complete i hmem j hj
      · exact .inl (hclosed i hi hmem j hj)
    rw [spread_succ]
    split
    · rename_i hnone
      rw [List.isEmpty_iff] at hnone
      refine ⟨List.Subset.refl _, fun i hi j hj => ?_⟩
      simpa [hnone] using hnear i hi j hj
    · rename_i hsome
      have hpos : 0 < (fringe next seen frontier).length := by
        rw [List.length_pos_iff]
        simpa using hsome
      have hin' : ∀ i ∈ seen ++ fringe next seen frontier, i < n := by
        intro i hi
        rcases List.mem_append.mp hi with hi | hi
        · exact hin i hi
        · obtain ⟨k, -, hk⟩ := hf.sound i hi
          exact hlt k i hk
      have hnodup' : (seen ++ fringe next seen frontier).Nodup :=
        List.nodup_append.mpr ⟨hnodup, hf.nodup, fun a ha b hb heq => hf.fresh b hb (heq ▸ ha)⟩
      obtain ⟨hsub, hall⟩ := spread_closed hnext hlt fuel (by rw [List.length_append]; omega) hnodup' hin'
        fun i hi hnot j hj => List.mem_append.mpr (hnear i ((List.mem_append.mp hi).resolve_right hnot) j hj)
      exact ⟨fun i hi => hsub (List.mem_append_left _ hi), hall⟩

end

/-! ### Descendants -/

theorem nodup_successors (g : Digraph) (i : Nat) : (g.successors i).Nodup := List.Nodup.filter _ List.nodup_range

/-- The successors of the nodes of a graph, as `descendants` looks them up. -/
def listed (g : Digraph) (i : Nat) : List Nat := (Array.ofFn fun i : Fin g.count => g.successors i).getD i []

theorem listed_of_lt (h : i < g.count) : g.listed i = g.successors i := by
  unfold listed
  rw [Array.getD_eq_getD_getElem?, Array.getElem?_ofFn, dif_pos h]
  rfl

theorem listed_of_le (h : g.count ≤ i) : g.listed i = [] := by
  unfold listed
  rw [Array.getD_eq_getD_getElem?, Array.getElem?_ofFn, dif_neg (Nat.not_lt.mpr h)]
  rfl

theorem mem_listed : j ∈ g.listed i ↔ i < g.count ∧ g.Edge i j := by
  rcases Nat.lt_or_ge i g.count with h | h
  · simp [listed_of_lt h, Edge, h]
  · simp [listed_of_le h, Nat.not_lt.mpr h]

theorem nodup_listed (g : Digraph) (i : Nat) : (g.listed i).Nodup := by
  rcases Nat.lt_or_ge i g.count with h | h
  · rw [listed_of_lt h]
    exact nodup_successors g i
  · rw [listed_of_le h]
    exact List.nodup_nil

theorem descendants_eq (h : i < g.count) :
    g.descendants.getD i [] = spread g.listed g.count (g.successors i) (g.successors i) := by
  unfold descendants
  dsimp only
  rw [Array.getD_eq_getD_getElem?, Array.getElem?_map, Array.getElem?_ofFn, dif_pos h]
  rfl

/-- The descendants of a node are those that it leads to. -/
theorem mem_descendants (h : i < g.count) : j ∈ g.descendants.getD i [] ↔ g.Leads i j := by
  rw [descendants_eq h]
  have hstart : ∀ k ∈ g.successors i, g.Leads i k := fun k hk => .single hk
  constructor
  · refine spread_induction (P := g.Leads i) (nodup_listed g) (fun k hk l hl => ?_) g.count hstart hstart j
    exact hk.tail (mem_listed.mp hl).2
  · obtain ⟨hsub, hclosed⟩ : g.successors i ⊆ spread g.listed g.count (g.successors i) (g.successors i) ∧ _ :=
      spread_closed (n := g.count) (nodup_listed g) (fun k l hl => (mem_listed.mp hl).2.lt) g.count
        (Nat.le_add_left _ _) (nodup_successors g i) (fun k hk => Edge.lt hk) fun k hk hnot => absurd hk hnot
    intro hleads
    induction hleads with
    | single hij => exact hsub hij
    | tail hleads hjk ih =>
      exact hclosed _ ih _ (mem_listed.mpr ⟨Leads.lt hleads, hjk⟩)

/-! ### Components -/

/-- Two nodes reach each other. -/
def together (g : Digraph) (i j : Nat) : Bool :=
  (g.descendants.getD i []).contains j && (g.descendants.getD j []).contains i

theorem cyclicComponents_eq (g : Digraph) : g.cyclicComponents = (List.range g.count).filterMap fun i =>
    if (List.range g.count).find? (g.together i) = some i then some ((List.range g.count).filter (g.together i))
    else none := rfl

theorem together_iff (hi : i < g.count) (hj : j < g.count) : g.together i j = true ↔ g.Leads i j ∧ g.Leads j i := by
  unfold together
  rw [Bool.and_eq_true, List.contains_iff_mem, List.contains_iff_mem, mem_descendants hi, mem_descendants hj]

/-- Nodes that reach each other do so with the same nodes. -/
theorem together_congr (hi : i < g.count) (hj : j < g.count) (h : g.together i j = true) :
    ∀ k ∈ List.range g.count, g.together i k = g.together j k := by
  obtain ⟨hto, hfrom⟩ := (together_iff hi hj).mp h
  intro k hk
  rw [Bool.eq_iff_iff, together_iff hi (List.mem_range.mp hk), together_iff hj (List.mem_range.mp hk)]
  exact ⟨fun h => ⟨hfrom.trans h.1, h.2.trans hto⟩, fun h => ⟨hto.trans h.1, h.2.trans hfrom⟩⟩

/-- The nodes that a node shares a cycle with, in order. -/
def component (g : Digraph) (i : Nat) : List Nat := (List.range g.count).filter (g.together i)

theorem mem_component (hi : i < g.count) : j ∈ g.component i ↔ g.Leads i j ∧ g.Leads j i := by
  unfold component
  rw [List.mem_filter, List.mem_range]
  constructor
  · exact fun ⟨hj, h⟩ => (together_iff hi hj).mp h
  · exact fun h => ⟨Leads.lt h.1, (together_iff hi (Leads.lt h.1)).mpr h⟩

/-- A node is in one cyclic component only. -/
theorem eq_component {nodes : List Nat} (hnodes : nodes ∈ g.cyclicComponents) (hi : i ∈ nodes) : nodes = g.component i := by
  rw [cyclicComponents_eq] at hnodes
  obtain ⟨first, hfirst, heq⟩ := List.mem_filterMap.mp hnodes
  split at heq
  · cases heq
    obtain ⟨hlt, htogether⟩ := List.mem_filter.mp hi
    exact List.filter_congr (together_congr (List.mem_range.mp hfirst) (List.mem_range.mp hlt) htogether)
  · cases heq

/-- The cyclic components hold the nodes that lead to themselves. -/
theorem mem_cyclicComponents : (∃ component ∈ g.cyclicComponents, i ∈ component) ↔ i < g.count ∧ g.Leads i i := by
  rw [cyclicComponents_eq]
  constructor
  · rintro ⟨component, hcomponent, hi⟩
    obtain ⟨first, hfirst, heq⟩ := List.mem_filterMap.mp hcomponent
    split at heq
    · cases heq
      obtain ⟨hlt, htogether⟩ := List.mem_filter.mp hi
      rw [List.mem_range] at hlt hfirst
      obtain ⟨hfrom, hto⟩ := (together_iff hfirst hlt).mp htogether
      exact ⟨hlt, hto.trans hfrom⟩
    · cases heq
  · rintro ⟨hlt, hleads⟩
    have hself : (List.range g.count).find? (g.together i) ≠ none := by
      intro hnone
      exact List.find?_eq_none.mp hnone i (List.mem_range.mpr hlt) ((together_iff hlt hlt).mpr ⟨hleads, hleads⟩)
    obtain ⟨first, hfirst⟩ := Option.ne_none_iff_exists'.mp hself
    have hlt' : first < g.count := List.mem_range.mp (List.mem_of_find?_eq_some hfirst)
    have htogether := List.find?_some hfirst
    -- The first node that is together with this one is so with the same nodes.
    have hsame : (List.range g.count).find? (g.together first) = some first := by
      rw [← hfirst]
      exact (List.find?_congr (together_congr hlt hlt' htogether)).symm
    obtain ⟨hto, hfrom⟩ := (together_iff hlt hlt').mp htogether
    refine ⟨_, List.mem_filterMap.mpr ⟨first, List.mem_range.mpr hlt', if_pos hsame⟩, ?_⟩
    exact List.mem_filter.mpr ⟨List.mem_range.mpr hlt, (together_iff hlt' hlt).mpr ⟨hfrom, hto⟩⟩

end Concord.Digraph
