import Mathlib.Data.List.GetD
import Concord.Proofs.Graph.Typed

/-! What is reached from some nodes. If parents stand before their children, going once through the
    nodes from the last to the first finds all that is reached. -/

namespace Concord.NodeStore

variable {s : NodeStore} {through : Nat → Bool}

/-- Parents stand before their children. -/
def ParentsBelow (s : NodeStore) : Prop := ∀ i p, p ∈ s.parents i → p < i

theorem subset_close : ∀ (n : Nat) (wanted : List Nat), wanted ⊆ s.close through n wanted
  | 0, _ => List.Subset.refl _
  | i + 1, wanted => by
    unfold close
    split
    · exact List.Subset.trans (List.subset_append_right ..) (subset_close i _)
    · exact subset_close i wanted

/-- Whatever holds of the nodes given, and of the parents of nodes that it holds of, holds of all that
    is reached. -/
theorem close_induction {P : Nat → Prop} (hstep : ∀ i, P i → through i = true → ∀ p ∈ s.parents i, P p) :
    ∀ (n : Nat) {wanted : List Nat}, (∀ i ∈ wanted, P i) → ∀ i ∈ s.close through n wanted, P i
  | 0, _, h => h
  | i + 1, wanted, h => by
    unfold close
    split
    · rename_i hi
      rw [Bool.and_eq_true, List.contains_iff_mem] at hi
      refine close_induction hstep i fun j hj => ?_
      rcases List.mem_append.mp hj with hj | hj
      · exact hstep i (h i hi.1) hi.2 j hj
      · exact h j hj
    · exact close_induction hstep i h

theorem mem_close (hb : s.ParentsBelow) {x : Nat} :
    ∀ (n : Nat) {wanted : List Nat}, x ∈ s.close through n wanted → x ∈ wanted ∨ x < n
  | 0, _, h => .inl h
  | i + 1, wanted, h => by
    unfold close at h
    split at h
    · rcases mem_close hb i h with h | h
      · rcases List.mem_append.mp h with h | h
        · exact .inr (Nat.lt_succ_of_lt (hb i x h))
        · exact .inl h
      · exact .inr (Nat.lt_succ_of_lt h)
    · exact (mem_close hb i h).imp id Nat.lt_succ_of_lt

/-- With a node that is passed, its parents are reached. -/
theorem parents_subset_close (hb : s.ParentsBelow) :
    ∀ (n : Nat) {wanted : List Nat} {i : Nat}, i ∈ s.close through n wanted → through i = true → i < n →
      s.parents i ⊆ s.close through n wanted
  | 0, _, _, _, _, hlt => absurd hlt (Nat.not_lt_zero _)
  | n + 1, wanted, i, h, ht, hlt => by
    unfold close at h ⊢
    rcases Nat.lt_or_eq_of_le (Nat.le_of_lt_succ hlt) with hlt | rfl
    · split at h
      · rename_i hc
        rw [if_pos hc]
        exact parents_subset_close hb n h ht hlt
      · rename_i hc
        rw [if_neg hc]
        exact parents_subset_close hb n h ht hlt
    · by_cases hi : i ∈ wanted
      · rw [if_pos (by rw [Bool.and_eq_true, List.contains_iff_mem]; exact ⟨hi, ht⟩)]
        exact List.Subset.trans (List.subset_append_left ..) (subset_close i _)
      · have hc : ¬(wanted.contains i && through i) = true := by
          rw [Bool.and_eq_true, List.contains_iff_mem]
          exact fun h => hi h.1
        rw [if_neg hc] at h
        exact absurd ((mem_close hb i h).resolve_left hi) (Nat.lt_irrefl _)

theorem mem_reachedThrough {start : List Nat} {i : Nat} :
    i ∈ s.reachedThrough through start ↔
      i < s.count ∧ i ∈ s.close through s.count start ∧ through i = true := by
  unfold reachedThrough
  rw [List.mem_filter, List.mem_range, Bool.and_eq_true, List.contains_iff_mem]

theorem sorted_reachedThrough (start : List Nat) : (s.reachedThrough through start).Pairwise (· < ·) :=
  List.Pairwise.filter _ List.pairwise_lt_range

/-- A parent of a node that is reached is reached if it passes the test. -/
theorem parent_mem_reachedThrough (hb : s.ParentsBelow) {start : List Nat} {i p : Nat}
    (hi : i ∈ s.reachedThrough through start) (hp : p ∈ s.parents i) (ht : through p = true) :
    p ∈ s.reachedThrough through start := by
  obtain ⟨hlt, hc, hti⟩ := mem_reachedThrough.mp hi
  exact mem_reachedThrough.mpr
    ⟨Nat.lt_trans (hb i p hp) hlt, parents_subset_close hb _ hc hti hlt hp, ht⟩

theorem start_mem_reachedThrough {start : List Nat} {i : Nat} (hlt : i < s.count) (hi : i ∈ start)
    (ht : through i = true) : i ∈ s.reachedThrough through start :=
  mem_reachedThrough.mpr ⟨hlt, subset_close _ _ hi, ht⟩

theorem self_mem_reachable {root : Nat} (h : root < s.count) : root ∈ s.reachable root :=
  start_mem_reachedThrough h (List.mem_singleton_self root) rfl

theorem reachedThrough_induction {P : Nat → Prop} {start : List Nat}
    (hstep : ∀ i, P i → through i = true → ∀ p ∈ s.parents i, P p) (h : ∀ i ∈ start, P i) :
    ∀ i ∈ s.reachedThrough through start, P i := fun i hi =>
  close_induction hstep _ h i (mem_reachedThrough.mp hi).2.1

end Concord.NodeStore

/-! Evaluation of a graph once through: each node in its turn, from the values of its parents. -/

namespace Concord.NodeStore

variable {β : Type} [Inhabited β]

/-- The values of the first nodes. The value of a node is made by `f` from those of its parents. -/
def valuesTo (s : NodeStore) (f : Nat → List β → β) : Nat → List β
  | 0 => []
  | n + 1 =>
    let done := s.valuesTo f n
    done ++ [f n ((s.parents n).map fun p => done.getD p default)]

/-- The value of a node. -/
def valueAt (s : NodeStore) (f : Nat → List β → β) (id : Nat) : β :=
  (s.valuesTo f (id + 1)).getD id default

variable {s : NodeStore} {f : Nat → List β → β} {i : Nat}

@[simp] theorem length_valuesTo : ∀ n, (s.valuesTo f n).length = n
  | 0 => rfl
  | n + 1 => by
    rw [valuesTo, List.length_append, length_valuesTo n]
    rfl

theorem getD_valuesTo : ∀ {n : Nat}, i < n → (s.valuesTo f n).getD i default = s.valueAt f i
  | 0, h => absurd h (Nat.not_lt_zero _)
  | n + 1, h => by
    rcases Nat.lt_or_eq_of_le (Nat.le_of_lt_succ h) with h | rfl
    · rw [valuesTo, List.getD_append _ _ _ _ (by rwa [length_valuesTo]), getD_valuesTo h]
    · rfl

/-- A node has the value that `f` makes from those of its parents. -/
theorem valueAt_eq (hb : s.ParentsBelow) (i : Nat) :
    s.valueAt f i = f i ((s.parents i).map (s.valueAt f)) := by
  have hparents : (s.parents i).map (fun p => (s.valuesTo f i).getD p default) =
      (s.parents i).map (s.valueAt f) := List.map_congr_left fun p hp => getD_valuesTo (hb i p hp)
  rw [← hparents]
  unfold valueAt
  rw [valuesTo, List.getD_append_right _ _ _ _ (Nat.le_of_eq (length_valuesTo i)), length_valuesTo, Nat.sub_self]
  rfl

end Concord.NodeStore
