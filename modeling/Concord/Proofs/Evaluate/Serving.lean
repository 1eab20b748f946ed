import Concord.Evaluate.Ledger

/-! The ledger gives up no value too early: as long as each place counts at least the readings to come,
    every value that was put in can still be read. -/

namespace Concord.Ledger

variable {α : Type} {l : Ledger α} {v : Nat → Option α} {done future : List Nat} {id i : Nat} {value : α}

/-- How many readings a place still counts. -/
def remaining (l : Ledger α) (id : Nat) : Nat := ((l.slots[id]?).map (·.remaining)).getD 0

/-- The values of the places that are done can be read as often as is to come. -/
structure Serves (l : Ledger α) (v : Nat → Option α) (done future : List Nat) : Prop where
  count : ∀ id, future.count id ≤ l.remaining id
  held : ∀ id ∈ done, 0 < l.remaining id → l.get? id = v id

/-! ### Places -/

theorem remaining_of_slot {slot : Slot α} (h : l.slots[id]? = some slot) : l.remaining id = slot.remaining := by
  unfold remaining
  rw [h]
  rfl

theorem get?_of_slot {slot : Slot α} (h : l.slots[id]? = some slot) : l.get? id = slot.value := by
  unfold get?
  rw [h]
  rfl

theorem remaining_of_none (h : l.slots[id]? = none) : l.remaining id = 0 := by
  unfold remaining
  rw [h]
  rfl

theorem get?_of_none (h : l.slots[id]? = none) : l.get? id = none := by
  unfold get?
  rw [h]
  rfl

theorem getElem?_set_slot {slot : Slot α} (new : Slot α) (h : l.slots[id]? = some slot) :
    (l.slots.set id new)[id]? = some new :=
  List.getElem?_set_self (List.getElem?_eq_some_iff.mp h).1

theorem remaining_ofUses (uses : List Nat) (id : Nat) :
    (ofUses uses : Ledger α).remaining id = uses.getD id 0 := by
  unfold remaining ofUses
  rw [List.getElem?_map, Option.map_map, List.getD_eq_getElem?_getD]
  cases uses[id]? <;> rfl

theorem get?_ofUses (uses : List Nat) (id : Nat) : (ofUses uses : Ledger α).get? id = none := by
  unfold get? ofUses
  rw [List.getElem?_map]
  cases uses[id]? <;> rfl

/-! ### Insertion -/

/-- Further places are empty and will not be read. -/
theorem getElem?_grow (l : Ledger α) (count i : Nat) : (l.grow count).slots[i]? = l.slots[i]? ∨
    (l.grow count).slots[i]? = some ⟨none, 0⟩ ∧ l.slots[i]? = none := by
  by_cases hi : i < l.slots.length
  · exact .inl (List.getElem?_append_left hi)
  · have hnone : l.slots[i]? = none := List.getElem?_eq_none_iff.mpr (Nat.le_of_not_lt hi)
    unfold grow
    rw [List.getElem?_append_right (Nat.le_of_not_lt hi), List.getElem?_replicate, hnone]
    split
    · exact .inr ⟨rfl, rfl⟩
    · exact .inl rfl

theorem remaining_grow (l : Ledger α) (count : Nat) : (l.grow count).remaining i = l.remaining i := by
  rcases getElem?_grow l count i with hsame | ⟨hnew, hnone⟩
  · unfold remaining
    rw [hsame]
  · rw [remaining_of_slot hnew, remaining_of_none hnone]

theorem get?_grow (l : Ledger α) (count : Nat) : (l.grow count).get? i = l.get? i := by
  rcases getElem?_grow l count i with hsame | ⟨hnew, hnone⟩
  · unfold get?
    rw [hsame]
  · rw [get?_of_slot hnew, get?_of_none hnone]

theorem remaining_insert : (l.insert id value).remaining i = l.remaining i := by
  unfold insert
  split
  · exact remaining_grow l _
  · rename_i slot hslot
    split
    · rfl
    · by_cases h : id = i
      · subst h
        rw [remaining_of_slot (getElem?_set_slot _ hslot), remaining_of_slot hslot]
      · unfold remaining
        rw [List.getElem?_set_ne h]

theorem get?_insert_self (h : 0 < l.remaining id) : (l.insert id value).get? id = some value := by
  unfold insert
  split
  · rename_i hslot
    rw [remaining_of_none hslot] at h
    exact absurd h (Nat.lt_irrefl 0)
  · rename_i slot hslot
    rw [remaining_of_slot hslot] at h
    rw [if_neg (Nat.ne_of_gt h), get?_of_slot (getElem?_set_slot _ hslot)]

/-- A value that will not be read is not put in. -/
theorem get?_insert_refused (h : l.remaining id = 0) : (l.insert id value).get? i = l.get? i := by
  unfold insert
  split
  · exact get?_grow l _
  · rename_i slot hslot
    rw [if_pos ((remaining_of_slot hslot).symm.trans h)]

theorem get?_insert_ne (h : id ≠ i) : (l.insert id value).get? i = l.get? i := by
  unfold insert
  split
  · exact get?_grow l _
  · split
    · rfl
    · unfold get?
      rw [List.getElem?_set_ne h]

/-! ### Release -/

theorem remaining_release_self : (l.release id).remaining id = l.remaining id - 1 := by
  unfold release
  split
  · rename_i hslot
    rw [remaining_of_none hslot]
  · rename_i slot hslot
    rw [remaining_of_slot hslot]
    split
    · rw [remaining_of_slot (getElem?_set_slot _ hslot)]
      dsimp only
      omega
    · rw [remaining_of_slot (getElem?_set_slot _ hslot)]

theorem remaining_release_ne (h : id ≠ i) : (l.release id).remaining i = l.remaining i := by
  unfold release
  split
  · rfl
  · split <;> simp only [remaining, List.getElem?_set_ne h]

theorem get?_release_ne (h : id ≠ i) : (l.release id).get? i = l.get? i := by
  unfold release
  split
  · rfl
  · split <;> simp only [get?, List.getElem?_set_ne h]

theorem get?_release_self (h : 1 < l.remaining id) : (l.release id).get? id = l.get? id := by
  unfold release
  split
  · rfl
  · rename_i slot hslot
    rw [remaining_of_slot hslot] at h
    rw [if_neg (Nat.not_le.mpr h), get?_of_slot (getElem?_set_slot _ hslot), get?_of_slot hslot]

/-- The last reading gives the value up. -/
theorem get?_release_last (h : l.remaining id ≤ 1) : (l.release id).get? id = none := by
  unfold release
  split
  · rename_i hslot
    exact get?_of_none hslot
  · rename_i slot hslot
    rw [remaining_of_slot hslot] at h
    rw [if_pos h, get?_of_slot (getElem?_set_slot _ hslot)]

/-! ### Taking out -/

theorem take_of_none (h : l.get? id = none) : l.take id = (none, l) := by
  unfold take
  rw [h]

theorem take_fst : (l.take id).1 = l.get? id := by
  unfold take
  split <;> exact Eq.symm ‹_›

theorem getElem?_take_self (h : (l.get? id).isSome = true) : (l.take id).2.slots[id]? = some ⟨none, 0⟩ := by
  obtain ⟨value, hvalue⟩ := Option.isSome_iff_exists.mp h
  obtain ⟨slot, hslot, -⟩ := Option.bind_eq_some_iff.mp hvalue
  unfold take
  rw [hvalue]
  exact getElem?_set_slot _ hslot

theorem getElem?_take_ne (h : id ≠ i) : (l.take id).2.slots[i]? = l.slots[i]? := by
  unfold take
  split
  · rfl
  · exact List.getElem?_set_ne h

theorem get?_take_self : (l.take id).2.get? id = none := by
  by_cases h : (l.get? id).isSome = true
  · rw [get?_of_slot (getElem?_take_self h)]
  · have hnone := Option.not_isSome_iff_eq_none.mp h
    rw [take_of_none hnone, hnone]

theorem get?_take_ne (h : id ≠ i) : (l.take id).2.get? i = l.get? i := by
  unfold get?
  rw [getElem?_take_ne h]

theorem remaining_take_self (h : (l.get? id).isSome = true) : (l.take id).2.remaining id = 0 := by
  rw [remaining_of_slot (getElem?_take_self h)]

theorem remaining_take_ne (h : id ≠ i) : (l.take id).2.remaining i = l.remaining i := by
  unfold remaining
  rw [getElem?_take_ne h]

/-! ### Readings -/

theorem serves_ofUses {uses : List Nat} (h : ∀ id, future.count id ≤ uses.getD id 0) :
    (ofUses uses : Ledger α).Serves v [] future :=
  ⟨fun id => by rw [remaining_ofUses]; exact h id, fun _ h => absurd h List.not_mem_nil⟩

theorem Serves.get? (h : l.Serves v done future) (hid : id ∈ done) (hf : id ∈ future) : l.get? id = v id :=
  h.held id hid (Nat.lt_of_lt_of_le (List.count_pos_iff.mpr hf) (h.count id))

theorem Serves.insert (h : l.Serves v done future) (hv : v id = some value) :
    (l.insert id value).Serves v (done ++ [id]) future := by
  refine ⟨fun i => by rw [remaining_insert]; exact h.count i, fun i hi hpos => ?_⟩
  rw [remaining_insert] at hpos
  by_cases heq : id = i
  · subst heq
    rw [get?_insert_self hpos, hv]
  · rw [get?_insert_ne heq]
    rcases List.mem_append.mp hi with hi | hi
    · exact h.held i hi hpos
    · exact absurd (List.mem_singleton.mp hi).symm heq

theorem Serves.release (h : l.Serves v done (id :: future)) : (l.release id).Serves v done future := by
  refine ⟨fun i => ?_, fun i hi hpos => ?_⟩
  · have hc := h.count i
    by_cases heq : id = i
    · subst heq
      rw [List.count_cons_self] at hc
      rw [remaining_release_self]
      omega
    · rw [List.count_cons_of_ne heq] at hc
      rwa [remaining_release_ne heq]
  · by_cases heq : id = i
    · subst heq
      rw [remaining_release_self] at hpos
      rw [get?_release_self (by omega)]
      exact h.held id hi (by omega)
    · rw [remaining_release_ne heq] at hpos
      rw [get?_release_ne heq]
      exact h.held i hi hpos

theorem Serves.releases {now : List Nat} :
    ∀ {l : Ledger α}, l.Serves v done (now ++ future) → (now.foldl Ledger.release l).Serves v done future := by
  induction now with
  | nil => exact fun h => h
  | cons id now ih => exact fun h => ih (Serves.release h)

end Concord.Ledger
