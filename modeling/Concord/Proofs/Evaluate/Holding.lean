import Concord.Proofs.Evaluate.Serving

/-! What the ledger holds: the values that were put in and for which a reading is to come, and no others. -/

namespace Concord.Ledger

variable {α : Type} {l : Ledger α} {done due due' : List Nat} {id i : Nat} {value : α}

/-- Each place counts the readings to come, `due`. It has a value as long as there are any, once it is done. -/
structure Holds (l : Ledger α) (done due : List Nat) : Prop where
  count : ∀ id, l.remaining id = due.count id
  held : ∀ id, (l.get? id).isSome = true ↔ id ∈ done ∧ id ∈ due
  live : l.live = l.slots.countP (·.value.isSome)

/-! ### Counting -/

/-- How the number of values changes with one place. -/
theorem countP_set_slot {slot : Slot α} (new : Slot α) (h : l.slots[id]? = some slot) :
    (l.slots.set id new).countP (·.value.isSome) + slot.value.isSome.toNat =
      l.slots.countP (·.value.isSome) + new.value.isSome.toNat := by
  obtain ⟨hlt, heq⟩ := List.getElem?_eq_some_iff.mp h
  have hset := List.countP_set (p := fun s : Slot α => s.value.isSome) (a := new) hlt
  have hpos : slot.value.isSome = true → 0 < l.slots.countP (·.value.isSome) := fun hs =>
    List.countP_pos_iff.mpr ⟨slot, heq ▸ List.getElem_mem hlt, hs⟩
  have hif : ∀ b : Bool, (if b = true then 1 else 0) = b.toNat := by decide
  rw [hset, heq, hif, hif]
  cases hs : slot.value.isSome with
  | false => rfl
  | true =>
    have := hpos hs
    rw [Bool.toNat_true]
    omega

theorem countP_grow (l : Ledger α) (count : Nat) :
    (l.grow count).slots.countP (·.value.isSome) = l.slots.countP (·.value.isSome) := by
  unfold grow
  rw [List.countP_append, List.countP_replicate]
  rfl

/-- The values are counted. -/
def Counted (l : Ledger α) : Prop := l.live = l.slots.countP (·.value.isSome)

theorem counted_ofUses (uses : List Nat) : (ofUses uses : Ledger α).Counted := by
  have hzero : (ofUses uses : Ledger α).slots.countP (·.value.isSome) = 0 := by
    rw [List.countP_eq_zero]
    intro slot hslot
    obtain ⟨n, -, rfl⟩ := List.mem_map.mp hslot
    exact Bool.false_ne_true
  exact hzero.symm

theorem Counted.insert (h : l.Counted) : (l.insert id value).Counted := by
  unfold Ledger.insert
  split
  · exact h.trans (countP_grow l _).symm
  · rename_i slot hslot
    split
    · exact h
    · have hset := countP_set_slot ⟨some value, slot.remaining⟩ hslot
      unfold Counted at h ⊢
      cases hs : slot.value.isSome <;> simp only [hs, Option.isSome_some, Bool.false_eq_true, if_false, if_true,
        Bool.toNat_false, Bool.toNat_true] at hset ⊢ <;> omega

theorem Counted.release (h : l.Counted) : (l.release id).Counted := by
  unfold Ledger.release
  split
  · exact h
  · rename_i slot hslot
    unfold Counted at h ⊢
    split
    · have hset := countP_set_slot ⟨none, 0⟩ hslot
      cases hs : slot.value.isSome <;> simp only [hs, Option.isSome_none, Bool.false_eq_true, if_false, if_true,
        Bool.toNat_false, Bool.toNat_true] at hset ⊢ <;> omega
    · have hset := countP_set_slot ⟨slot.value, slot.remaining - 1⟩ hslot
      dsimp only at hset ⊢
      omega

theorem Counted.take (h : l.Counted) : (l.take id).2.Counted := by
  unfold Ledger.take
  split
  · exact h
  · rename_i value hget
    obtain ⟨slot, hslot, hvalue⟩ := Option.bind_eq_some_iff.mp hget
    have hset := countP_set_slot ⟨none, 0⟩ hslot
    unfold Counted at h ⊢
    simp only [hvalue, Option.isSome_some, Option.isSome_none, Bool.toNat_true, Bool.toNat_false] at hset
    dsimp only
    omega

/-- Where a value is held, there is one to be counted off. -/
theorem Counted.pos (h : l.Counted) (hid : (l.get? id).isSome = true) : 0 < l.live := by
  obtain ⟨value, hvalue⟩ := Option.isSome_iff_exists.mp hid
  obtain ⟨slot, hslot, hvalue⟩ := Option.bind_eq_some_iff.mp hvalue
  rw [h, List.countP_pos_iff]
  exact ⟨slot, List.mem_of_getElem? hslot, Option.isSome_iff_exists.mpr ⟨value, hvalue⟩⟩

/-! ### What is held -/

theorem holds_ofUses {uses : List Nat} (h : ∀ id, uses.getD id 0 = due.count id) :
    (ofUses uses : Ledger α).Holds [] due := by
  refine ⟨fun id => by rw [remaining_ofUses, h], fun id => ?_, counted_ofUses uses⟩
  rw [get?_ofUses]
  simp

/-- The order of the readings to come does not matter. -/
theorem Holds.perm (h : l.Holds done due) (hperm : due.Perm due') : l.Holds done due' :=
  ⟨fun id => (h.count id).trans (hperm.count_eq id), fun id => (h.held id).trans (by rw [hperm.mem_iff]), h.live⟩

theorem Holds.isSome (h : l.Holds done due) (hdone : id ∈ done) (hdue : id ∈ due) : (l.get? id).isSome = true :=
  (h.held id).mpr ⟨hdone, hdue⟩

theorem Holds.insert (h : l.Holds done due) (hid : id ∉ done) : (l.insert id value).Holds (done ++ [id]) due := by
  have hnone : l.get? id = none := by
    rw [← Option.not_isSome_iff_eq_none, h.held]
    exact fun hin => hid hin.1
  refine ⟨fun i => by rw [remaining_insert, h.count], fun i => ?_, Counted.insert h.live⟩
  rw [List.mem_append, List.mem_singleton]
  by_cases heq : id = i
  · subst heq
    by_cases hdue : id ∈ due
    · have hpos : 0 < l.remaining id := by rw [h.count]; exact List.count_pos_iff.mpr hdue
      simp [get?_insert_self hpos, hdue]
    · have hzero : l.remaining id = 0 := by rw [h.count]; exact List.count_eq_zero.mpr hdue
      simp [get?_insert_refused hzero, hnone, hdue]
  · rw [get?_insert_ne heq, h.held]
    simp [Ne.symm heq]

theorem Holds.release (h : l.Holds done (id :: due)) : (l.release id).Holds done due := by
  have hcount : l.remaining id = due.count id + 1 := by rw [h.count, List.count_cons_self]
  refine ⟨fun i => ?_, fun i => ?_, Counted.release h.live⟩
  · by_cases heq : id = i
    · subst heq
      rw [remaining_release_self, hcount, Nat.add_sub_cancel]
    · rw [remaining_release_ne heq, h.count, List.count_cons_of_ne heq]
  · by_cases heq : id = i
    · subst heq
      by_cases hdue : id ∈ due
      · have hpos := List.count_pos_iff.mpr hdue
        rw [get?_release_self (by omega), h.held]
        simp [hdue]
      · have hzero : due.count id = 0 := List.count_eq_zero.mpr hdue
        simp [get?_release_last (show l.remaining id ≤ 1 by omega), hdue]
    · rw [get?_release_ne heq, h.held, List.mem_cons]
      simp [Ne.symm heq]

theorem Holds.releases {now : List Nat} :
    ∀ {l : Ledger α}, l.Holds done (now ++ due) → (now.foldl Ledger.release l).Holds done due := by
  induction now with
  | nil => exact fun h => h
  | cons id now ih => exact fun h => ih (Holds.release h)

/-! ### The values that are live -/

/-- Some places have values, no others, and the values are counted. -/
structure Keeps (l : Ledger α) (P : Nat → Prop) : Prop where
  held : ∀ id, (l.get? id).isSome = true ↔ P id
  live : l.live = l.slots.countP (·.value.isSome)

variable {P Q : Nat → Prop}

theorem Keeps.congr (h : l.Keeps P) (heq : ∀ id, P id ↔ Q id) : l.Keeps Q :=
  ⟨fun id => (h.held id).trans (heq id), h.live⟩

theorem Holds.keeps (h : l.Holds done due) (hdue : ∀ id, id ∈ due ↔ Q id) : l.Keeps fun id => id ∈ done ∧ Q id :=
  ⟨fun id => (h.held id).trans (and_congr_right fun _ => hdue id), h.live⟩

theorem Keeps.live_eq_zero_iff (h : l.Keeps P) : l.live = 0 ↔ ∀ id, ¬P id := by
  rw [h.live, List.countP_eq_zero]
  constructor
  · intro hnone id hid
    obtain ⟨value, hvalue⟩ := Option.isSome_iff_exists.mp ((h.held id).mpr hid)
    obtain ⟨slot, hslot, hvalue⟩ := Option.bind_eq_some_iff.mp hvalue
    exact hnone slot (List.mem_of_getElem? hslot) (Option.isSome_iff_exists.mpr ⟨value, hvalue⟩)
  · intro hnone slot hslot hsome
    obtain ⟨id, hid⟩ := List.mem_iff_getElem?.mp hslot
    rw [← get?_of_slot hid] at hsome
    exact hnone id ((h.held id).mp hsome)

/-- What is taken out is no longer held. -/
theorem Keeps.take (h : l.Keeps P) : (l.take id).2.Keeps fun i => P i ∧ i ≠ id := by
  refine ⟨fun i => ?_, Counted.take h.live⟩
  by_cases heq : id = i
  · subst heq
    simp [get?_take_self]
  · rw [get?_take_ne heq, h.held]
    simp [Ne.symm heq]

end Concord.Ledger
