import Concord.Proofs.Graph.Sorting

/-! Breadth-first searches inside a set of nodes. A search comes to its end. The nodes that it has seen lead back to its
    start, each to the one that it was reached from, so what it finds has a path there; and it finds a node if there is
    a way to one. -/

namespace Concord.Digraph

variable {g : Digraph} {members path : List Nat} {goal : Nat → Bool} {start i j : Nat} {s : Search}

/-- The nodes of a path along edges from a start to an end. -/
inductive Trail (g : Digraph) (start : Nat) : Nat → List Nat → Prop where
  | single : Trail g start start [start]
  | step {i j : Nat} {path : List Nat} : Trail g start i path → g.Edge i j → Trail g start j (path ++ [j])

theorem Trail.ne_nil (h : g.Trail start i path) : path ≠ [] := by
  cases h with
  | single => exact List.cons_ne_nil _ _
  | step => exact List.append_ne_nil_of_right_ne_nil _ (List.cons_ne_nil _ _)

namespace Search

/-- The nodes that a search has seen. -/
def seen (s : Search) : List Nat := s.origins.map (·.1)

/-- A search is over: it has found what it was after, or nothing is left to go on from. -/
def IsOver (s : Search) : Prop := s.found.isSome = true ∨ s.queue = []

theorem isSome_lookup : (s.origins.lookup j).isSome = true ↔ j ∈ s.seen := by
  rw [List.lookup_isSome_iff, seen, List.mem_map]
  exact exists_congr fun p => and_congr_right fun _ => by rw [beq_iff_eq, eq_comm]

theorem mem_seen_of_lookup (h : s.origins.lookup j = some i) : j ∈ s.seen ∧ (j, i) ∈ s.origins := by
  obtain ⟨front, rest, horigins, -⟩ := List.lookup_eq_some_iff.mp h
  have hmem : (j, i) ∈ s.origins := horigins ▸ List.mem_append_right _ List.mem_cons_self
  exact ⟨List.mem_map_of_mem hmem, hmem⟩

/-! ### Going on to a node -/

/-- A node is passed over, or it is what the search was after, or it is put in the queue. -/
theorem offer_cases (members : List Nat) (goal : Nat → Bool) (i : Nat) (s : Search) (j : Nat) :
    (s.found = none → j ∈ members → j ∈ s.seen) ∧ offer members goal i s j = s ∨
    s.found = none ∧ j ∈ members ∧ j ∉ s.seen ∧
      (goal j = true ∧ offer members goal i s j = ⟨(j, i) :: s.origins, s.queue, some j⟩ ∨
        goal j = false ∧ offer members goal i s j = ⟨(j, i) :: s.origins, s.queue ++ [j], none⟩) := by
  unfold offer
  split
  · rename_i hold
    refine .inl ⟨fun hnone hj => ?_, rfl⟩
    simp only [hnone, Option.isSome_none, Bool.false_or, Bool.or_eq_true, Bool.not_eq_true', isSome_lookup] at hold
    exact hold.resolve_left (by simp [hj])
  · rename_i hnew
    simp only [Bool.or_eq_true, Bool.not_eq_true', not_or, Bool.not_eq_false, List.contains_iff_mem, isSome_lookup,
      Option.not_isSome_iff_eq_none] at hnew
    obtain ⟨⟨hnone, hj⟩, hseen⟩ := hnew
    refine .inr ⟨hnone, hj, hseen, ?_⟩
    split
    · rename_i hgoal
      exact .inl ⟨hgoal, rfl⟩
    · rename_i hgoal
      exact .inr ⟨Bool.eq_false_iff.mpr hgoal, by rw [hnone]⟩

/-- A search has met only members of a set, each of them once. -/
structure Inside (members : List Nat) (s : Search) : Prop where
  nodup : s.seen.Nodup
  seen : s.seen ⊆ members
  origin : ∀ p ∈ s.origins, p.2 ∈ members
  queue : s.queue ⊆ members

theorem Inside.length_le (h : s.Inside members) : s.origins.length ≤ members.length := by
  have hle := (h.nodup.subperm h.seen).length_le
  rwa [Search.seen, List.length_map] at hle

theorem Inside.pop {queue : List Nat} (h : s.Inside members) (hqueue : queue ⊆ s.queue) :
    Inside members { s with queue } := ⟨h.nodup, h.seen, h.origin, fun _ hi => h.queue (hqueue hi)⟩

theorem inside_start (hstart : start ∈ members) : Inside members ⟨[], [start], none⟩ :=
  ⟨List.nodup_nil, List.nil_subset _, by simp, by simpa using hstart⟩

theorem offer_inside (h : s.Inside members) (hi : i ∈ members) : (offer members goal i s j).Inside members := by
  rcases offer_cases members goal i s j with ⟨-, heq⟩ | ⟨-, hj, hseen, ⟨-, heq⟩ | ⟨-, heq⟩⟩
  · rwa [heq]
  all_goals
    rw [heq]
    refine ⟨List.nodup_cons.mpr ⟨hseen, h.nodup⟩, List.cons_subset.mpr ⟨hj, h.seen⟩,
      List.forall_mem_cons.mpr ⟨hi, h.origin⟩, ?_⟩
  · exact h.queue
  · exact List.append_subset.mpr ⟨h.queue, by simpa using hj⟩

/-- Whatever is queued has been seen for the first time. -/
theorem offer_queue : (offer members goal i s j).queue.length + s.origins.length ≤
    s.queue.length + (offer members goal i s j).origins.length := by
  rcases offer_cases members goal i s j with ⟨-, heq⟩ | ⟨-, -, -, ⟨-, heq⟩ | ⟨-, heq⟩⟩
  · simp only [heq, Nat.le_refl]
  · rw [heq, List.length_cons]
    exact Nat.add_le_add_left (Nat.le_succ _) _
  · rw [heq, List.length_append, List.length_singleton, List.length_cons]
    omega

/-- What comes of the nodes next to one. -/
structure Offered (members : List Nat) (s t : Search) : Prop where
  inside : t.Inside members
  queue : t.queue.length + s.origins.length ≤ s.queue.length + t.origins.length

theorem foldl_offer (hi : i ∈ members) :
    ∀ (l : List Nat) {s : Search}, s.Inside members → Offered members s (l.foldl (offer members goal i) s)
  | [], _, hs => ⟨hs, Nat.le_refl _⟩
  | j :: l, s, hs => by
    have hinside : (offer members goal i s j).Inside members := offer_inside hs hi
    have hrest := foldl_offer hi l hinside
    have hfirst : (offer members goal i s j).queue.length + _ ≤ _ := offer_queue
    have hqueue := hrest.queue
    rw [List.foldl_cons]
    exact ⟨hrest.inside, by omega⟩

/-! ### What a search knows -/

/-- Each node was reached from the start, or from one that had been seen before it. -/
def Grown (start : Nat) : List (Nat × Nat) → Prop
  | [] => True
  | (_, i) :: rest => (i = start ∨ i ∈ rest.map (·.1)) ∧ Grown start rest

/-- A search from a node under way, with some edges that it has yet to follow. Any other edge from a node that it has
    gone on from leads to one that it has seen, and none of these is what it is after until it has found that. -/
structure Searching (g : Digraph) (members : List Nat) (goal : Nat → Bool) (start : Nat) (due : List (Nat × Nat))
    (s : Search) : Prop where
  inside : s.Inside members
  edge : ∀ p ∈ s.origins, g.Edge p.2 p.1
  grown : Grown start s.origins
  queued : ∀ i ∈ s.queue, i = start ∨ i ∈ s.seen
  found : ∀ j, s.found = some j → j ∈ s.seen ∧ goal j = true
  missed : s.found = none → ∀ j ∈ s.seen, goal j = false
  settled : s.found = none → ∀ i, i = start ∨ i ∈ s.seen → i ∉ s.queue → ∀ j ∈ members, g.Edge i j →
    j ∈ s.seen ∨ (i, j) ∈ due

theorem searching_start (hstart : start ∈ members) : Searching g members goal start [] ⟨[], [start], none⟩ where
  inside := inside_start hstart
  edge := by simp
  grown := trivial
  queued i hi := .inl (List.mem_singleton.mp hi)
  found _ hj := by cases hj
  missed _ _ hj := by cases hj
  settled _ i hi hqueue := absurd (List.mem_singleton.mpr (hi.resolve_right List.not_mem_nil)) hqueue

theorem Searching.offer {due : List (Nat × Nat)} (h : Searching g members goal start ((i, j) :: due) s)
    (hi : i ∈ members) (hseen : i = start ∨ i ∈ s.seen) (hedge : g.Edge i j) :
    Searching g members goal start due (Search.offer members goal i s j) := by
  have hinside : (Search.offer members goal i s j).Inside members := offer_inside h.inside hi
  rcases offer_cases members goal i s j with ⟨hold, heq⟩ | ⟨hnone, hj, -, hnew⟩
  · rw [heq]
    refine ⟨h.inside, h.edge, h.grown, h.queued, h.found, h.missed, fun hnone a ha hqueue b hb hab => ?_⟩
    rcases h.settled hnone a ha hqueue b hb hab with hmem | hmem
    · exact .inl hmem
    · rcases List.mem_cons.mp hmem with hsame | hmem
      · cases hsame
        exact .inl (hold hnone hb)
      · exact .inr hmem
  · have hedges : ∀ p ∈ (j, i) :: s.origins, g.Edge p.2 p.1 := List.forall_mem_cons.mpr ⟨hedge, h.edge⟩
    have hgrown : Grown start ((j, i) :: s.origins) := ⟨hseen, h.grown⟩
    rcases hnew with ⟨hgoal, heq⟩ | ⟨hgoal, heq⟩ <;> rw [heq] at hinside ⊢
    · exact ⟨hinside, hedges, hgrown, fun a ha => (h.queued a ha).imp_right (List.mem_cons_of_mem _),
        fun b hb => Option.some.inj hb ▸ ⟨List.mem_cons_self, hgoal⟩, nofun, nofun⟩
    · refine ⟨hinside, hedges, hgrown, fun a ha => ?_, nofun, fun _ => ?_, fun _ a ha hqueue b hb hab => ?_⟩
      · rcases List.mem_append.mp ha with ha | ha
        · exact (h.queued a ha).imp_right (List.mem_cons_of_mem _)
        · exact .inr (List.mem_singleton.mp ha ▸ List.mem_cons_self)
      · exact List.forall_mem_cons.mpr ⟨hgoal, h.missed hnone⟩
      · -- The new node is in the queue, so it is an older one that has been gone on from.
        have hqueue' : a ∉ s.queue ∧ a ≠ j := by simpa using hqueue
        have ha' : a = start ∨ a ∈ s.seen := ha.imp_right fun hmem => (List.mem_cons.mp hmem).resolve_left hqueue'.2
        rcases h.settled hnone a ha' hqueue'.1 b hb hab with hmem | hmem
        · exact .inl (List.mem_cons_of_mem _ hmem)
        · rcases List.mem_cons.mp hmem with hsame | hmem
          · cases hsame
            exact .inl List.mem_cons_self
          · exact .inr hmem

theorem seen_offer : s.seen ⊆ (offer members goal i s j).seen := by
  rcases offer_cases members goal i s j with ⟨-, heq⟩ | ⟨-, -, -, ⟨-, heq⟩ | ⟨-, heq⟩⟩ <;> rw [heq]
  · exact List.Subset.refl _
  all_goals exact List.subset_cons_self _ _

theorem Searching.foldl_offer (hi : i ∈ members) : ∀ (l : List Nat) {s : Search},
    Searching g members goal start (l.map (i, ·)) s → (i = start ∨ i ∈ s.seen) → (∀ j ∈ l, g.Edge i j) →
      Searching g members goal start [] (l.foldl (Search.offer members goal i) s)
  | [], _, h, _, _ => h
  | j :: l, _, h, hseen, hl => by
    obtain ⟨hedge, hl⟩ := List.forall_mem_cons.mp hl
    exact Searching.foldl_offer hi l (h.offer hi hseen hedge) (hseen.imp_right fun hmem => seen_offer hmem) hl

/-- A search goes on from the first node of its queue. -/
theorem Searching.next {queue : List Nat} (h : Searching g members goal start [] s) (hqueue : s.queue = i :: queue) :
    Searching g members goal start [] ((g.successors i).foldl (Search.offer members goal i) { s with queue }) := by
  have hi : i ∈ s.queue := hqueue ▸ List.mem_cons_self
  have hpop : queue ⊆ s.queue := hqueue ▸ List.subset_cons_self _ _
  refine Searching.foldl_offer (h.inside.queue hi) _ ?_ (h.queued i hi) fun j hj => hj
  refine ⟨h.inside.pop hpop, h.edge, h.grown, fun a ha => h.queued a (hpop ha), h.found, h.missed, ?_⟩
  intro hnone a ha hout b hb hab
  by_cases hai : a = i
  · exact .inr (hai ▸ List.mem_map_of_mem (hai ▸ hab))
  · have hout' : a ∉ s.queue := by
      rw [hqueue, List.mem_cons, not_or]
      exact ⟨hai, hout⟩
    exact .inl ((h.settled hnone a ha hout' b hb hab).resolve_right List.not_mem_nil)

theorem run_cons {fuel : Nat} {queue : List Nat} (hnone : s.found = none) (hqueue : s.queue = i :: queue) :
    run g members goal (fuel + 1) s =
      run g members goal fuel ((g.successors i).foldl (Search.offer members goal i) { s with queue }) := by
  rw [run, hnone, hqueue]

theorem run_over {fuel : Nat} (h : s.IsOver) : run g members goal fuel s = s := by
  cases fuel with
  | zero => rfl
  | succ fuel =>
    rw [run]
    split
    · rename_i hnone hqueue
      rcases h with h | h
      · rw [hnone] at h
        cases h
      · rw [hqueue] at h
        cases h
    · rfl

theorem over_or_next (s : Search) : s.IsOver ∨ s.found = none ∧ ∃ i queue, s.queue = i :: queue := by
  cases hfound : s.found with
  | some j => exact .inl (.inl (by rw [hfound]; rfl))
  | none =>
    cases hqueue : s.queue with
    | nil => exact .inl (.inr hqueue)
    | cons i queue => exact .inr ⟨rfl, i, queue, rfl⟩

/-- A search comes to its end: it goes on from as many nodes at most as there are members left to see and nodes in its
    queue. -/
theorem run_ends : ∀ (fuel : Nat) {s : Search}, Searching g members goal start [] s →
    s.queue.length + g.count < s.origins.length + fuel →
      Searching g members goal start [] (run g members goal fuel s) ∧ (run g members goal fuel s).IsOver
  | 0, s, h, hfuel => by
    have hle : s.seen.length ≤ g.count := length_le_count h.inside.nodup fun j hj => by
      obtain ⟨p, hp, rfl⟩ := List.mem_map.mp hj
      exact (h.edge p hp).lt
    rw [seen, List.length_map] at hle
    omega
  | fuel + 1, s, h, hfuel => by
    rcases over_or_next s with hover | ⟨hnone, i, queue, hqueue⟩
    · rw [run_over hover]
      exact ⟨h, hover⟩
    · have hi : i ∈ members := h.inside.queue (hqueue ▸ List.mem_cons_self)
      have hpop := h.inside.pop (hqueue ▸ List.subset_cons_self i queue)
      have hoffered : Offered members _ ((g.successors i).foldl (offer members goal i) _) := Search.foldl_offer hi _ hpop
      have hgrowth := hoffered.queue
      rw [hqueue, List.length_cons] at hfuel
      dsimp only at hgrowth
      rw [run_cons hnone hqueue]
      exact run_ends fuel (h.next hqueue) (by omega)

/-! ### The way back -/

/-- From a node that has been seen, going from each node to the one that it was reached from ends at the start. -/
theorem retrace_trail (h : Searching g members goal start [] s) : ∀ {rest front : List (Nat × Nat)},
    s.origins = front ++ rest → Grown start rest → ∀ {fuel j : Nat}, j = start ∨ j ∈ rest.map (·.1) →
      rest.length < fuel → ∃ back, s.retrace start fuel j = some back ∧ g.Trail start j back.reverse ∧
        ∀ k ∈ back, k = start ∨ k ∈ s.seen := by
  intro rest
  -- The node that a node was reached from stands further down, so the rest of the list bounds the way.
  induction rest with
  | nil =>
    intro front _ _ fuel j hj hfuel
    obtain rfl := hj.resolve_right List.not_mem_nil
    obtain ⟨fuel, rfl⟩ := Nat.exists_eq_succ_of_ne_zero (Nat.ne_zero_of_lt hfuel)
    exact ⟨[j], by rw [Nat.succ_eq_add_one, retrace, if_pos rfl], .single, by simp⟩
  | cons p rest ih =>
    intro front horigins hgrown fuel j hj hfuel
    obtain ⟨k, i⟩ := p
    obtain ⟨hi, hrest⟩ := hgrown
    obtain ⟨fuel, rfl⟩ := Nat.exists_eq_succ_of_ne_zero (Nat.ne_zero_of_lt hfuel)
    have hfuel' : rest.length < fuel := Nat.lt_of_succ_lt_succ hfuel
    have hfront : s.origins = (front ++ [(k, i)]) ++ rest := by rw [horigins, List.append_assoc, List.singleton_append]
    by_cases hstart : j = start
    · rw [hstart]
      exact ⟨[start], by rw [Nat.succ_eq_add_one, retrace, if_pos rfl], .single, by simp⟩
    rcases List.mem_cons.mp (hj.resolve_left hstart) with hjk | hmem
    · dsimp only at hjk
      subst hjk
      have hnew : ∀ p ∈ front, (j != p.1) = true := by
        intro p hp
        have hnodup := h.inside.nodup
        rw [seen, horigins, List.map_append, List.nodup_append] at hnodup
        exact bne_iff_ne.mpr (hnodup.2.2 p.1 (List.mem_map_of_mem hp) j List.mem_cons_self).symm
      have hlookup : s.origins.lookup j = some i := List.lookup_eq_some_iff.mpr ⟨front, rest, horigins, hnew⟩
      have hedge : g.Edge i j := h.edge (j, i) (mem_seen_of_lookup hlookup).2
      obtain ⟨back, hback, htrail, hseen⟩ := ih hfront hrest hi hfuel'
      refine ⟨j :: back, ?_, ?_, List.forall_mem_cons.mpr ⟨.inr (mem_seen_of_lookup hlookup).1, hseen⟩⟩
      · rw [Nat.succ_eq_add_one, retrace, if_neg hstart, hlookup, Option.bind_some, hback, Option.map_some]
      · rw [List.reverse_cons]
        exact htrail.step hedge
    · have hmore : rest.length < fuel + 1 := Nat.lt_succ_of_lt hfuel'
      obtain ⟨back, hback⟩ := ih hfront hrest (.inr hmem) hmore
      exact ⟨back, hback⟩

theorem Grown.suffix : ∀ {front rest : List (Nat × Nat)}, Grown start (front ++ rest) → Grown start rest
  | [], _, h => h
  | _ :: _, _, h => Grown.suffix h.2

/-- What was found has a path from the start to it, of one step or more, through nodes that have been seen. -/
theorem path_trail (h : Searching g members goal start [] s) (hfound : s.found = some j) :
    ∃ path, s.path start = some path ∧ g.Trail start j path ∧ 2 ≤ path.length ∧ ∀ k ∈ path, k = start ∨ k ∈ s.seen := by
  have hj : j ∈ s.seen := (h.found j hfound).1
  obtain ⟨i, hlookup⟩ := Option.isSome_iff_exists.mp (isSome_lookup.mpr hj)
  obtain ⟨front, rest, horigins, -⟩ := List.lookup_eq_some_iff.mp hlookup
  obtain ⟨hi, hrest⟩ : Grown start ((j, i) :: rest) := Grown.suffix (horigins ▸ h.grown)
  have hfuel : rest.length < s.origins.length + 1 := by
    rw [horigins, List.length_append, List.length_cons]
    omega
  have hfront : s.origins = (front ++ [(j, i)]) ++ rest := by rw [horigins, List.append_assoc, List.singleton_append]
  obtain ⟨back, hback, htrail, hseen⟩ := retrace_trail h hfront hrest hi hfuel
  have hpos : 0 < back.length := by
    rw [← List.length_reverse]
    exact List.length_pos_iff.mpr (htrail.ne_nil)
  refine ⟨(j :: back).reverse, ?_, ?_, ?_, fun k hk => ?_⟩
  · rw [path, hfound, Option.bind_some, hlookup, Option.bind_some, hback, Option.map_some]
  · rw [List.reverse_cons]
    exact htrail.step (h.edge (j, i) (mem_seen_of_lookup hlookup).2)
  · rw [List.length_reverse, List.length_cons]
    omega
  · rcases List.mem_cons.mp (List.mem_reverse.mp hk) with rfl | hk
    · exact .inr hj
    · exact hseen k hk

end Search

/-! ### Shortest paths -/

/-- A search has enough steps to come to its end. -/
theorem search_ends (g : Digraph) (goal : Nat → Bool) (hstart : start ∈ members) :
    Search.Searching g members goal start [] (g.search members start goal) ∧ (g.search members start goal).IsOver :=
  Search.run_ends _ (Search.searching_start hstart) (by simp only [List.length_cons, List.length_nil]; omega)

/-- What a search finds is a path inside the set, of one step or more, to a node that passes the test. -/
theorem shortestPath_trail (hstart : start ∈ members) (h : g.shortestPath members start goal = some path) :
    ∃ j, goal j = true ∧ g.Trail start j path ∧ 2 ≤ path.length ∧ path ⊆ members := by
  obtain ⟨hsearch, -⟩ := search_ends g goal hstart
  have hsome := h
  unfold shortestPath Search.path at hsome
  obtain ⟨j, hfound, -⟩ := Option.bind_eq_some_iff.mp hsome
  obtain ⟨path', hpath, htrail, hlength, hseen⟩ := Search.path_trail hsearch hfound
  obtain rfl : path' = path := Option.some.inj (hpath.symm.trans h)
  refine ⟨j, (hsearch.found j hfound).2, htrail, hlength, fun k hk => ?_⟩
  rcases hseen k hk with rfl | hk
  · exact hstart
  · exact hsearch.inside.seen hk

/-- A search finds a path if there is a way inside the set to a node that passes the test. -/
theorem exists_shortestPath (hstart : start ∈ members) (hgoal : goal j = true)
    (hway : Relation.TransGen (fun a b => g.Edge a b ∧ b ∈ members) start j) :
    ∃ path, g.shortestPath members start goal = some path := by
  obtain ⟨hsearch, hover⟩ := search_ends g goal hstart
  cases hfound : (g.search members start goal).found with
  | some k =>
    obtain ⟨path, hpath, -⟩ := Search.path_trail hsearch hfound
    exact ⟨path, hpath⟩
  | none =>
    -- All that there is a way to has been seen, and nothing that has been seen passes the test.
    have hqueue : (g.search members start goal).queue = [] := hover.resolve_left (by rw [hfound]; exact Bool.false_ne_true)
    have hstep : ∀ a, a = start ∨ a ∈ (g.search members start goal).seen → ∀ b ∈ members, g.Edge a b →
        b ∈ (g.search members start goal).seen := by
      intro a ha b hb hab
      exact (hsearch.settled hfound a ha (hqueue ▸ List.not_mem_nil) b hb hab).resolve_right List.not_mem_nil
    have hj : j ∈ (g.search members start goal).seen := by
      clear hgoal
      induction hway with
      | single h => exact hstep _ (.inl rfl) _ h.2 h.1
      | tail _ h ih => exact hstep _ (.inr ih) _ h.2 h.1
    rw [hsearch.missed hfound j hj] at hgoal
    cases hgoal

end Concord.Digraph
