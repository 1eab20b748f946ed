import Concord.Proofs.Graph.Searches

/-! Walks inside a set of nodes. They do not depend on the numbers of the nodes, as long as these are in the same
    order, nor on what lies outside the set. -/

namespace Concord.Digraph

variable {g g' : Digraph} {members : List Nat} {f : Nat → Nat} {goal goal' : Nat → Bool}
  {path : List Nat} {i j start current : Nat} {s : Search}

/-- A set of nodes of one graph is one of another under other numbers, with the same edges in the same order. -/
structure Renumbers (g g' : Digraph) (members : List Nat) (f : Nat → Nat) : Prop where
  inj : ∀ i ∈ members, ∀ j ∈ members, f i = f j → i = j
  successors : ∀ i ∈ members,
    (g'.successors (f i)).filter (members.map f).contains = ((g.successors i).filter members.contains).map f
  loop : ∀ i ∈ members, g'.hasEdge (f i) (f i) = g.hasEdge i i
  count : members.length ≤ g.count
  count' : members.length ≤ g'.count

theorem Renumbers.contains_map (h : Renumbers g g' members f) {l : List Nat} (hl : l ⊆ members) (hj : j ∈ members) :
    (l.map f).contains (f j) = l.contains j := by
  rw [Bool.eq_iff_iff, List.contains_iff_mem, List.contains_iff_mem, List.mem_map]
  constructor
  · rintro ⟨i, hi, heq⟩
    exact h.inj i (hl hi) j hj heq ▸ hi
  · exact fun hmem => ⟨j, hmem, rfl⟩

/-! ### Searches -/

/-- What a list has under a key, it has under other numbers too. -/
theorem Renumbers.lookup_map (h : Renumbers g g' members f) (hj : j ∈ members) : ∀ {origins : List (Nat × Nat)},
    (∀ p ∈ origins, p.1 ∈ members) → (origins.map (Prod.map f f)).lookup (f j) = (origins.lookup j).map f
  | [], _ => rfl
  | (k, i) :: origins, hkeys => by
    obtain ⟨hk, hkeys⟩ := List.forall_mem_cons.mp hkeys
    have hsame : (f j == f k) = (j == k) := by
      rw [Bool.eq_iff_iff, beq_iff_eq, beq_iff_eq]
      exact ⟨h.inj j hj k hk, congrArg f⟩
    rw [List.map_cons, Prod.map_apply, List.lookup_cons, List.lookup_cons, hsame]
    split
    · rfl
    · exact h.lookup_map hj hkeys

namespace Search

/-- A search under other numbers. -/
def map (f : Nat → Nat) (s : Search) : Search := ⟨s.origins.map (Prod.map f f), s.queue.map f, s.found.map f⟩

theorem Inside.lookup_map (h : s.Inside members) (hrenumber : Renumbers g g' members f) (hj : j ∈ members) :
    (s.map f).origins.lookup (f j) = (s.origins.lookup j).map f :=
  hrenumber.lookup_map hj fun _ hp => h.seen (List.mem_map_of_mem hp)

theorem offer_outside (hj : j ∉ members) : offer members goal i s j = s := by
  unfold offer
  rw [if_pos]
  simp [hj]

theorem offer_map (h : Renumbers g g' members f) (hgoal : ∀ j ∈ members, goal' (f j) = goal j)
    (hs : s.Inside members) (hj : j ∈ members) :
    offer (members.map f) goal' (f i) (s.map f) (f j) = (offer members goal i s j).map f := by
  have hfound : (s.map f).found.isSome = s.found.isSome := Option.isSome_map
  have hseen : ((s.map f).origins.lookup (f j)).isSome = (s.origins.lookup j).isSome := by
    rw [hs.lookup_map h hj, Option.isSome_map]
  unfold offer
  rw [hfound, hseen, h.contains_map (List.Subset.refl _) hj, hgoal j hj]
  split
  · rfl
  · split
    · rfl
    · simp [map]

theorem foldl_offer_map (h : Renumbers g g' members f) (hgoal : ∀ j ∈ members, goal' (f j) = goal j)
    (hi : i ∈ members) : ∀ (l : List Nat) {s : Search}, l ⊆ members → s.Inside members →
      (l.map f).foldl (offer (members.map f) goal' (f i)) (s.map f) = (l.foldl (offer members goal i) s).map f
  | [], _, _, _ => rfl
  | j :: l, s, hl, hs => by
    obtain ⟨hj, hl⟩ := List.cons_subset.mp hl
    rw [List.map_cons, List.foldl_cons, List.foldl_cons, offer_map h hgoal hs hj]
    exact foldl_offer_map h hgoal hi l hl (offer_inside hs hi)

/-- What lies outside is passed over. -/
theorem foldl_offer_filter (l : List Nat) :
    l.foldl (offer members goal i) s = (l.filter members.contains).foldl (offer members goal i) s := by
  induction l generalizing s with
  | nil => rfl
  | cons j l ih =>
    by_cases hj : j ∈ members
    · rw [List.filter_cons_of_pos (List.contains_iff_mem.mpr hj), List.foldl_cons, List.foldl_cons, ih]
    · rw [List.filter_cons_of_neg (by simpa using hj), List.foldl_cons, offer_outside hj, ih]

/-- Under other numbers a search finds the same. The bounds have room for what is left of the set in each graph. -/
theorem run_map (h : Renumbers g g' members f) (hgoal : ∀ j ∈ members, goal' (f j) = goal j) :
    ∀ (fuel fuel' : Nat) {s : Search}, s.Inside members → s.queue.length + members.length < s.origins.length + fuel →
      s.queue.length + members.length < s.origins.length + fuel' →
      run g' (members.map f) goal' fuel' (s.map f) = (run g members goal fuel s).map f
  | 0, _, s, hs, hfuel, _ => by
    have := hs.length_le
    omega
  | _ + 1, 0, s, hs, _, hfuel' => by
    have := hs.length_le
    omega
  | fuel + 1, fuel' + 1, s, hs, hfuel, hfuel' => by
    obtain ⟨origins, queue, found⟩ := s
    cases found with
    | some j => rfl
    | none =>
      cases queue with
      | nil => rfl
      | cons i queue =>
        have hstart : Inside members ⟨origins, queue, none⟩ := hs.pop (List.subset_cons_self _ _)
        have hi : i ∈ members := hs.queue List.mem_cons_self
        have hoffered : Offered members ⟨origins, queue, none⟩
            ((g.successors i).foldl (offer members goal i) ⟨origins, queue, none⟩) :=
          foldl_offer hi (g.successors i) hstart
        have hqueue := hoffered.queue
        simp only [List.length_cons] at hfuel hfuel' hqueue
        have hnext := run_map h hgoal fuel fuel' hoffered.inside (by omega) (by omega)
        have hmap : (g'.successors (f i)).foldl (offer (members.map f) goal' (f i)) (map f ⟨origins, queue, none⟩) =
            ((g.successors i).foldl (offer members goal i) ⟨origins, queue, none⟩).map f := by
          rw [foldl_offer_filter, foldl_offer_filter (g.successors _), h.successors i hi]
          refine foldl_offer_map h hgoal hi _ (fun j hj => ?_) hstart
          exact List.contains_iff_mem.mp (List.mem_filter.mp hj).2
        rw [← hmap] at hnext
        exact hnext

theorem retrace_map (h : Renumbers g g' members f) (hs : s.Inside members) (hstart : start ∈ members) :
    ∀ (fuel : Nat) {j : Nat}, j ∈ members →
      (s.map f).retrace (f start) fuel (f j) = (s.retrace start fuel j).map (List.map f)
  | 0, _, _ => rfl
  | fuel + 1, j, hj => by
    have hsame : f j = f start ↔ j = start := ⟨h.inj j hj start hstart, congrArg f⟩
    rw [retrace, retrace]
    simp only [hsame, hs.lookup_map h hj]
    split
    · rfl
    · cases hlookup : s.origins.lookup j with
      | none => rfl
      | some i =>
        have hi : i ∈ members := hs.origin _ (mem_seen_of_lookup hlookup).2
        rw [Option.map_some, Option.bind_some, Option.bind_some, retrace_map h hs hstart fuel hi, Option.map_map,
          Option.map_map]
        rfl

theorem path_map (h : Renumbers g g' members f) (hs : s.Inside members) (hstart : start ∈ members)
    (hfound : ∀ j, s.found = some j → j ∈ members) :
    (s.map f).path (f start) = (s.path start).map (List.map f) := by
  have hlength : (s.map f).origins.length = s.origins.length := List.length_map _
  unfold path
  rw [hlength]
  cases hj : s.found with
  | none => simp [map, hj]
  | some j =>
    have hj' : (s.map f).found = some (f j) := by rw [map, hj, Option.map_some]
    rw [hj', Option.bind_some, Option.bind_some, hs.lookup_map h (hfound j hj)]
    cases hlookup : s.origins.lookup j with
    | none => rfl
    | some i =>
      have hi : i ∈ members := hs.origin _ (mem_seen_of_lookup hlookup).2
      rw [Option.map_some, Option.bind_some, Option.bind_some, retrace_map h hs hstart _ hi, Option.map_map,
        Option.map_map]
      congr 1
      funext back
      rw [Function.comp_apply, Function.comp_apply, List.map_reverse, List.map_cons]

end Search

/-! ### Walks -/

theorem shortestPath_subset (hstart : start ∈ members) (h : g.shortestPath members start goal = some path) :
    path ⊆ members := by
  obtain ⟨_, -, -, -, hsub⟩ := shortestPath_trail hstart h
  exact hsub

theorem shortestPath_map (h : Renumbers g g' members f) (hgoal : ∀ j ∈ members, goal' (f j) = goal j)
    (hstart : start ∈ members) :
    g'.shortestPath (members.map f) (f start) goal' = (g.shortestPath members start goal).map (List.map f) := by
  have hcount := h.count
  have hcount' := h.count'
  have hrun := Search.run_map h hgoal (g.count + 2) (g'.count + 2) (Search.inside_start hstart)
    (by simp only [List.length_cons, List.length_nil]; omega) (by simp only [List.length_cons, List.length_nil]; omega)
  obtain ⟨hsearch, -⟩ := search_ends g goal hstart
  unfold shortestPath
  rw [show g'.search (members.map f) (f start) goal' = (g.search members start goal).map f from hrun]
  exact Search.path_map h hsearch.inside hstart fun j hj => hsearch.inside.seen (hsearch.found j hj).1

theorem getLastD_mem {l : List Nat} (hl : l ⊆ members) (hcurrent : current ∈ members) : l.getLastD current ∈ members := by
  rw [List.getLastD_eq_getLast?]
  cases hlast : l.getLast? with
  | none => exact hcurrent
  | some i => exact hl (List.mem_of_getLast? hlast)

theorem getLastD_map (l : List Nat) : (l.map f).getLastD (f current) = f (l.getLastD current) := by
  rw [List.getLastD_eq_getLast?, List.getLastD_eq_getLast?, List.getLast?_map, Option.getD_map]

/-- A walk under other numbers. -/
def Walk.map (f : Nat → Nat) (w : Walk) : Walk := ⟨w.met.map f, f w.current, w.pending.map f⟩

/-- A walk does not leave a set. -/
structure Walk.Inside (members : List Nat) (w : Walk) : Prop where
  met : w.met ⊆ members
  current : w.current ∈ members
  pending : w.pending ⊆ members

/-- A walk goes on along a path. -/
def Walk.along (w : Walk) (path : List Nat) : Walk :=
  ⟨w.met ++ path.tail, path.getLastD w.current, w.pending.filter fun i => !path.contains i⟩

theorem Walk.Inside.along {w : Walk} (h : w.Inside members) (hpath : path ⊆ members) : (w.along path).Inside members where
  met := List.append_subset.mpr ⟨h.met, fun _ hj => hpath (List.mem_of_mem_tail hj)⟩
  current := getLastD_mem hpath h.current
  pending _ hj := h.pending (List.mem_filter.mp hj).1

theorem walkThrough_nil {w : Walk} (h : w.pending = []) : ∀ fuel, g.walkThrough members fuel w = w
  | 0 => rfl
  | fuel + 1 => by
    rw [walkThrough, if_pos (List.isEmpty_iff.mpr h)]

theorem walkThrough_cons {w : Walk} (h : w.pending ≠ []) (fuel : Nat) : g.walkThrough members (fuel + 1) w =
    ((g.shortestPath members w.current w.pending.contains).map fun path =>
      g.walkThrough members fuel (w.along path)).getD w := by
  rw [walkThrough, if_neg (by simpa using h)]
  cases g.shortestPath members w.current w.pending.contains <;> rfl

theorem walkThrough_inside : ∀ (fuel : Nat) {w : Walk}, w.Inside members → (g.walkThrough members fuel w).Inside members
  | 0, _, h => h
  | fuel + 1, w, h => by
    by_cases hpending : w.pending = []
    · rwa [walkThrough_nil hpending]
    · rw [walkThrough_cons hpending]
      cases hpath : g.shortestPath members w.current w.pending.contains with
      | none => exact h
      | some path => exact walkThrough_inside fuel (h.along (shortestPath_subset h.current hpath))

theorem walkThrough_map (h : Renumbers g g' members f) : ∀ (fuel : Nat) {w : Walk}, w.Inside members →
    g'.walkThrough (members.map f) fuel (w.map f) = (g.walkThrough members fuel w).map f
  | 0, _, _ => rfl
  | fuel + 1, w, hw => by
    have hmap : (w.map f).pending = w.pending.map f := rfl
    by_cases hpending : w.pending = []
    · rw [walkThrough_nil hpending, walkThrough_nil (by rw [hmap, hpending, List.map_nil])]
    · have hgoal : ∀ j ∈ members, (w.map f).pending.contains (f j) = w.pending.contains j :=
        fun j hj => h.contains_map hw.pending hj
      rw [walkThrough_cons hpending, walkThrough_cons (by simpa [hmap] using hpending),
        show (w.map f).current = f w.current from rfl, shortestPath_map h hgoal hw.current]
      cases hpath : g.shortestPath members w.current w.pending.contains with
      | none => rfl
      | some path =>
        have hsub := shortestPath_subset hw.current hpath
        have hrest : ((w.pending.map f).filter fun i => !(path.map f).contains i) =
            (w.pending.filter fun i => !path.contains i).map f := by
          rw [List.filter_map]
          congr 1
          refine List.filter_congr fun j hj => ?_
          rw [Function.comp_apply, h.contains_map hsub (hw.pending hj)]
        have halong : (w.map f).along (path.map f) = (w.along path).map f := by
          unfold Walk.along Walk.map
          dsimp only
          rw [hrest, getLastD_map, ← List.map_tail, ← List.map_append]
        simp only [Option.map_some, Option.getD_some]
        rw [halong]
        exact walkThrough_map h fuel (hw.along hsub)

/-- A walk through a component goes back to where it started, if it can. -/
def goBack (g : Digraph) (component : List Nat) (start : Nat) (w : Walk) : List Nat :=
  match g.shortestPath component w.current (· == start) with
  | some path => if w.current ≠ start ∨ g.hasEdge start start then w.met ++ path.tail else w.met
  | none => w.met

theorem cycleWalk_cons (start : Nat) (others : List Nat) : g.cycleWalk (start :: others) =
    let walk := goBack g (start :: others) start
      (g.walkThrough (start :: others) others.length ⟨[start], start, others⟩)
    if walk.length = 1 then walk ++ [start] else walk := rfl

/-- The walk through a component as it starts. -/
theorem inside_others (start : Nat) (others : List Nat) : Walk.Inside (start :: others) ⟨[start], start, others⟩ where
  met := List.cons_subset.mpr ⟨List.mem_cons_self, List.nil_subset _⟩
  current := List.mem_cons_self
  pending := List.subset_cons_self _ _

theorem goBack_subset {w : Walk} (hw : w.Inside members) : goBack g members start w ⊆ members := by
  unfold goBack
  split
  · rename_i hpath
    split
    · exact List.append_subset.mpr
        ⟨hw.met, fun j hj => shortestPath_subset hw.current hpath (List.mem_of_mem_tail hj)⟩
    · exact hw.met
  · exact hw.met

theorem goBack_map (h : Renumbers g g' members f) {w : Walk} (hstart : start ∈ members) (hw : w.Inside members) :
    goBack g' (members.map f) (f start) (w.map f) = (goBack g members start w).map f := by
  have hsame : ∀ j ∈ members, (f j == f start) = (j == start) := by
    intro j hj
    rw [Bool.eq_iff_iff, beq_iff_eq, beq_iff_eq]
    exact ⟨h.inj j hj start hstart, congrArg f⟩
  have hne : f w.current = f start ↔ w.current = start := ⟨h.inj _ hw.current _ hstart, congrArg f⟩
  unfold goBack
  rw [show (w.map f).current = f w.current from rfl, shortestPath_map h hsame hw.current]
  cases g.shortestPath members w.current (· == start) with
  | none => rfl
  | some path =>
    dsimp only [Option.map, Walk.map]
    simp only [ne_eq, hne, h.loop start hstart]
    split
    · rw [List.map_append, List.map_tail]
    · rfl

theorem cycleWalk_subset : ∀ component : List Nat, g.cycleWalk component ⊆ component
  | [] => List.Subset.refl _
  | start :: others => by
    have hwalk := walkThrough_inside (g := g) others.length (inside_others start others)
    rw [cycleWalk_cons]
    dsimp only
    split
    · exact List.append_subset.mpr ⟨goBack_subset hwalk, List.cons_subset.mpr ⟨List.mem_cons_self, List.nil_subset _⟩⟩
    · exact goBack_subset hwalk

/-- The walk through a component is the same under other numbers. -/
theorem cycleWalk_map : ∀ {component : List Nat}, Renumbers g g' component f →
    g'.cycleWalk (component.map f) = (g.cycleWalk component).map f
  | [], _ => rfl
  | start :: others, h => by
    have hstart := inside_others start others
    have hwalk := walkThrough_map h others.length hstart
    have hmem : start ∈ start :: others := List.mem_cons_self
    have hback := goBack_map h hmem (walkThrough_inside (g := g) others.length hstart)
    rw [← hwalk] at hback
    rw [List.map_cons, cycleWalk_cons, cycleWalk_cons, List.length_map]
    dsimp only
    rw [show Walk.mk [f start] (f start) (others.map f) = Walk.map f ⟨[start], start, others⟩ from rfl,
      ← List.map_cons, hback, List.length_map]
    split
    · rw [List.map_append, List.map_singleton]
    · rfl

end Concord.Digraph
