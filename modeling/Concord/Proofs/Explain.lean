import Mathlib.Algebra.BigOperators.Group.List.Basic
import Concord.Explain
import Concord.Proofs.Conformance
import Concord.Proofs.Evaluate.Levels

/-! The tree of a variable is complete and shows nothing twice. It is what a walk over the uses of nodes comes by. The
    walk keeps in a stack what is to be shown next: a node that it meets for the first time puts the uses of its parents
    in front. From one step of the walk follows what holds of all lines together. -/

namespace Concord

namespace Explain

variable {s : NodeStore} {v : ResolvedVariable} {plan : Option Plan} {id k : Nat}

/-! ### Lines -/

/-- A use of a node in the tree: the node, where it stands, and as which parent of which node it is used. The root is
    used by none. -/
structure Spot where
  node : Nat
  level : Nat
  margin : Margin
  under : Option (Nat × Nat)

/-- The use of a node that a line shows, and the level that the line refers to, unless it shows the node in full. -/
structure Entry where
  spot : Spot
  refers : Option Nat

def Entry.line (v : ResolvedVariable) (plan : Option Plan) (e : Entry) : String :=
  match e.refers with
  | some first => referenceLine e.spot.margin first
  | none => fullLine v plan e.spot.level e.spot.margin e.spot.node

/-- The parents of a node with what stands in front of them. -/
def Spot.uses (s : NodeStore) (p : Spot) : List (Nat × Margin) :=
  (s.parents p.node).zip (childMargins p.margin (s.parents p.node).length)

/-- The uses of the parents of a node below it. -/
def Spot.below (s : NodeStore) (p : Spot) : List Spot :=
  (p.uses s).zipIdx.map fun x => ⟨x.1.1, p.level + 1, x.1.2, some (p.node, x.2)⟩

theorem map_fst_uses (s : NodeStore) (p : Spot) : (p.uses s).map Prod.fst = s.parents p.node := by
  refine List.map_fst_zip (Nat.le_of_eq ?_)
  rw [childMargins, List.length_map, List.length_range]

theorem nodes_below (s : NodeStore) (p : Spot) : (p.below s).map (·.node) = s.parents p.node := by
  have hfirst := congrArg (List.map Prod.fst) (List.zipIdx_map_fst 0 (p.uses s))
  rw [List.map_map, map_fst_uses] at hfirst
  unfold Spot.below
  rw [List.map_map]
  exact hfirst

/-- The nodes that are shown in full, as they are used there. -/
def fulls (es : List Entry) : List Spot := (es.filter fun e => e.refers.isNone).map (·.spot)

/-- The levels at which nodes are shown in full, the latest first. -/
def known (es : List Entry) : List (Nat × Nat) := ((fulls es).map fun p => (p.node, p.level)).reverse

theorem known_append (p : Spot) (es : List Entry) (seen : List (Nat × Nat)) :
    known (⟨p, none⟩ :: es) ++ seen = known es ++ (p.node, p.level) :: seen := by
  have hfulls : fulls (⟨p, none⟩ :: es) = p :: fulls es := rfl
  unfold known
  rw [hfulls, List.map_cons, List.reverse_cons, List.append_assoc, List.singleton_append]

theorem map_fst_known (es : List Entry) : (known es).map Prod.fst = ((fulls es).map (·.node)).reverse := by
  unfold known
  rw [List.map_reverse, List.map_map]
  rfl

/-! ### The walk -/

/-- The uses in a stack are shown one after the other, with the levels of the nodes that were shown in full before and
    those after. -/
inductive Shows (s : NodeStore) : List Spot → List (Nat × Nat) → List Entry → List (Nat × Nat) → Prop where
  | done {seen : List (Nat × Nat)} : Shows s [] seen [] seen
  | again {p : Spot} {rest : List Spot} {seen seen' : List (Nat × Nat)} {es : List Entry} {first : Nat} :
      seen.lookup p.node = some first → Shows s rest seen es seen' →
      Shows s (p :: rest) seen (⟨p, some first⟩ :: es) seen'
  | first {p : Spot} {rest : List Spot} {seen seen' : List (Nat × Nat)} {es : List Entry} :
      seen.lookup p.node = none → Shows s (p.below s ++ rest) ((p.node, p.level) :: seen) es seen' →
      Shows s (p :: rest) seen (⟨p, none⟩ :: es) seen'

variable {ps qs : List Spot} {seen seen' seen'' : List (Nat × Nat)} {es es' : List Entry}

theorem Shows.append (h : Shows s ps seen es seen') (h' : Shows s qs seen' es' seen'') :
    Shows s (ps ++ qs) seen (es ++ es') seen'' := by
  induction h with
  | done => exact h'
  | again hseen _ ih => exact .again hseen (ih h')
  | first hseen _ ih =>
    have hrest := ih h'
    rw [List.append_assoc] at hrest
    exact .first hseen hrest

/-- The levels that are known are those of the nodes that were shown in full. -/
theorem Shows.seen_eq (h : Shows s ps seen es seen') :
    seen' = known es ++ seen := by
  induction h with
  | done => rfl
  | again _ _ ih => exact ih
  | first _ _ ih => rw [ih, known_append]

theorem lookup_eq_none_iff {l : List (Nat × Nat)} : l.lookup id = none ↔ id ∉ l.map Prod.fst := by
  rw [List.lookup_eq_none_iff]
  constructor
  · intro h hmem
    obtain ⟨x, hx, rfl⟩ := List.mem_map.mp hmem
    simpa using h x hx
  · intro h x hx
    rw [bne_iff_ne]
    rintro rfl
    exact h (List.mem_map_of_mem hx)

/-- No level is known twice. -/
theorem Shows.nodup (h : Shows s ps seen es seen') (hn : (seen.map Prod.fst).Nodup) : (seen'.map Prod.fst).Nodup := by
  induction h with
  | done => exact hn
  | again _ _ ih => exact ih hn
  | first hseen _ ih => exact ih (List.nodup_cons.mpr ⟨lookup_eq_none_iff.mp hseen, hn⟩)

/-- Whatever holds of the nodes in the stack, and of the parents of nodes that it holds of, holds of all nodes that are
    shown. -/
theorem Shows.closed {P : Nat → Prop} (hstep : ∀ i, P i → ∀ p ∈ s.parents i, P p) (h : Shows s ps seen es seen')
    (hps : ∀ p ∈ ps, P p.node) : ∀ e ∈ es, P e.spot.node := by
  induction h with
  | done => exact List.forall_mem_nil _
  | again _ _ ih =>
    obtain ⟨hp, hrest⟩ := List.forall_mem_cons.mp hps
    exact List.forall_mem_cons.mpr ⟨hp, ih hrest⟩
  | @first p _ _ _ _ _ _ ih =>
    obtain ⟨hp, hrest⟩ := List.forall_mem_cons.mp hps
    refine List.forall_mem_cons.mpr ⟨hp, ih fun q hq => ?_⟩
    rcases List.mem_append.mp hq with hq | hq
    · exact hstep p.node hp q.node (nodes_below s p ▸ List.mem_map_of_mem hq)
    · exact hrest q hq

section
variable {before after : List Entry} {e : Entry}

/-- The walk when it comes to a line: the use that is shown is on top of the stack, and the stack holds what it held at
    first or what the lines before have put there. -/
theorem Shows.split (h : Shows s ps seen es seen') (hes : es = before ++ e :: after) :
    ∃ rest, Shows s (e.spot :: rest) (known before ++ seen) (e :: after) seen' ∧
      ∀ q ∈ e.spot :: rest, q ∈ ps ∨ ∃ f ∈ before, f.refers = none ∧ q ∈ f.spot.below s := by
  induction before generalizing ps seen es with
  | nil =>
    subst hes
    cases h with
    | again hseen hrest => exact ⟨_, .again hseen hrest, fun q hq => .inl hq⟩
    | first hseen hrest => exact ⟨_, .first hseen hrest, fun q hq => .inl hq⟩
  | cons f before ih =>
    subst hes
    cases h with
    | again hseen hrest =>
      obtain ⟨rest, hshows, hstack⟩ := ih hrest rfl
      exact ⟨rest, hshows, fun q hq => (hstack q hq).imp (List.mem_cons_of_mem _) fun ⟨g, hg, hfull⟩ =>
        ⟨g, List.mem_cons_of_mem _ hg, hfull⟩⟩
    | first hseen hrest =>
      obtain ⟨rest, hshows, hstack⟩ := ih hrest rfl
      refine ⟨rest, ?_, fun q hq => ?_⟩
      · rw [known_append]
        exact hshows
      · rcases hstack q hq with hmem | ⟨g, hg, hfull⟩
        · rcases List.mem_append.mp hmem with hmem | hmem
          · exact .inr ⟨_, List.mem_cons_self, rfl, hmem⟩
          · exact .inl (List.mem_cons_of_mem _ hmem)
        · exact .inr ⟨g, List.mem_cons_of_mem _ hg, hfull⟩

/-- A line refers to the level that is known of its node by then, and is in full if none is. -/
theorem Shows.refers_eq (h : Shows s ps seen es seen') (hes : es = before ++ e :: after) :
    e.refers = (known before ++ seen).lookup e.spot.node := by
  obtain ⟨rest, hshows, -⟩ := h.split hes
  obtain ⟨p, refers⟩ := e
  cases hshows with
  | again hseen _ => exact hseen.symm
  | first hseen _ => exact hseen.symm

end

/-! ### From the root -/

theorem mem_fulls {p : Spot} : p ∈ fulls es ↔ ∃ e ∈ es, e.refers = none ∧ e.spot = p := by
  unfold fulls
  simp only [List.mem_map, List.mem_filter, Option.isNone_iff_eq_none, and_assoc]

theorem lookup_eq_some_iff {l : List (Nat × Nat)} (hn : (l.map Prod.fst).Nodup) :
    l.lookup id = some k ↔ (id, k) ∈ l := by
  rw [List.lookup_eq_some_iff]
  constructor
  · rintro ⟨front, back, rfl, -⟩
    exact List.mem_append_right _ List.mem_cons_self
  · intro h
    obtain ⟨front, back, rfl⟩ := List.append_of_mem h
    refine ⟨front, back, rfl, fun x hx => bne_iff_ne.mpr ?_⟩
    rintro rfl
    rw [List.map_append, List.map_cons] at hn
    exact (List.disjoint_of_nodup_append hn) (List.mem_map_of_mem hx) List.mem_cons_self

section
variable {before after : List Entry} {e : Entry} {i : Nat} {p : Spot}

/-- A node is shown in full once. -/
theorem Shows.nodup_fulls (h : Shows s ps [] es seen') : ((fulls es).map (·.node)).Nodup := by
  have hn := h.nodup List.nodup_nil
  rwa [h.seen_eq, List.append_nil, map_fst_known, List.nodup_reverse] at hn

theorem Shows.refers_iff (h : Shows s ps [] es seen') (hes : es = before ++ e :: after) :
    e.refers = some k ↔ ∃ f ∈ before, f.refers = none ∧ f.spot.node = e.spot.node ∧ f.spot.level = k := by
  have hn : ((known before).map Prod.fst).Nodup := by
    have hfulls := h.nodup_fulls
    rw [hes, fulls, List.filter_append, List.map_append, List.map_append] at hfulls
    rw [map_fst_known, List.nodup_reverse]
    exact hfulls.of_append_left
  rw [h.refers_eq hes, List.append_nil, lookup_eq_some_iff hn, known, List.mem_reverse, List.mem_map]
  constructor
  · rintro ⟨p, hp, heq⟩
    obtain ⟨f, hf, hfull, rfl⟩ := mem_fulls.mp hp
    obtain ⟨hnode, hlevel⟩ := Prod.mk.inj heq
    exact ⟨f, hf, hfull, hnode, hlevel⟩
  · rintro ⟨f, hf, hfull, hnode, hlevel⟩
    exact ⟨f.spot, mem_fulls.mpr ⟨f, hf, hfull, rfl⟩, Prod.ext hnode hlevel⟩

end

/-- The root, with nothing above it. -/
def top (v : ResolvedVariable) : Spot := ⟨v.root, 1, ⟨"", ""⟩, none⟩

/-- The places of the parents of a node. -/
def slots (s : NodeStore) (i : Nat) : List (Nat × Nat) := (List.range (s.parents i).length).map fun j => (i, j)

/-- The lines of a tree: every node that the root depends on is shown in full once, and every place among the parents of
    such a node has one line. A line refers to a level exactly if its node was shown in full before, at that level. A
    line hangs under an earlier one, one level above, that shows in full the node whose parent it is. -/
structure Complete (v : ResolvedVariable) (es : List Entry) : Prop where
  root : es.head? = some ⟨top v, none⟩
  full : ((fulls es).map (·.node)).Perm (v.store.reachable v.root)
  uses : (es.filterMap (·.spot.under)).Perm ((v.store.reachable v.root).flatMap (slots v.store))
  parent : ∀ e ∈ es, ∀ i j, e.spot.under = some (i, j) → (v.store.parents i)[j]? = some e.spot.node
  count : es.length = 1 + ((v.store.reachable v.root).map fun i => (v.store.parents i).length).sum
  refers : ∀ before e after, es = before ++ e :: after → ∀ k, e.refers = some k ↔
    ∃ f ∈ before, f.refers = none ∧ f.spot.node = e.spot.node ∧ f.spot.level = k
  level : ∀ before e after, es = before ++ e :: after → ∀ i j, e.spot.under = some (i, j) →
    ∃ f ∈ before, f.refers = none ∧ f.spot.node = i ∧ e.spot ∈ f.spot.below v.store ∧ e.spot.level = f.spot.level + 1

end Explain
end Concord
