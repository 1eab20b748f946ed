import Mathlib.Data.List.Infix
import Mathlib.Order.Bounds.Basic
import Concord.Proofs.Evaluate.Holding

/-! The books of the ledger, whatever it is asked to do and in whatever order: how many values it holds and held at
    most, and of which places, told from what was done so far. -/

namespace Concord.Ledger

variable {α : Type} {l : Ledger α} {uses : List Nat} {id i : Nat} {value : α}

/-! ### Operations -/

/-- What a ledger is asked to do. -/
inductive Op (α : Type) where
  | insert (id : Nat) (value : α)
  | release (id : Nat)
  | take (id : Nat)

variable {ops : List (Op α)} {op : Op α}

/-- The place that an operation is about. -/
def Op.place : Op α → Nat
  | insert id _ => id
  | release id => id
  | take id => id

/-- The ledger behind an operation. -/
def apply (l : Ledger α) : Op α → Ledger α
  | .insert id value => l.insert id value
  | .release id => l.release id
  | .take id => (l.take id).2

/-- The ledger of some uses behind some operations. -/
def after (uses : List Nat) (ops : List (Op α)) : Ledger α := ops.foldl apply (ofUses uses)

theorem after_concat : after uses (ops ++ [op]) = (after uses ops).apply op := by
  unfold after
  rw [List.foldl_append]
  rfl

theorem get?_apply_ne (h : op.place ≠ i) : (l.apply op).get? i = l.get? i := by
  cases op with
  | insert => exact get?_insert_ne h
  | release => exact get?_release_ne h
  | take => exact get?_take_ne h

theorem remaining_apply_ne (h : op.place ≠ i) : (l.apply op).remaining i = l.remaining i := by
  cases op with
  | insert => exact remaining_insert
  | release => exact remaining_release_ne h
  | take => exact remaining_take_ne h

/-! ### How many values there are -/

theorem Counted.apply (h : l.Counted) (op : Op α) : (l.apply op).Counted := by
  cases op with
  | insert => exact h.insert
  | release => exact h.release
  | take => exact h.take

theorem counted_after (uses : List Nat) (ops : List (Op α)) : (after uses ops).Counted := by
  induction ops using List.reverseRecOn with
  | nil => exact counted_ofUses uses
  | append_singleton ops op ih =>
    rw [after_concat]
    exact ih.apply op

/-- The operation gives a value up: it is the last reading of it, or takes it out. -/
def givesUp (l : Ledger α) : Op α → Bool
  | .insert _ _ => false
  | .release id => l.remaining id ≤ 1 && (l.get? id).isSome
  | .take id => (l.get? id).isSome

/-- What is given up is counted off. -/
theorem live_apply (h : l.Counted) (hop : l.givesUp op = true) : (l.apply op).live + 1 = l.live := by
  cases op with
  | insert => cases hop
  | release id =>
    obtain ⟨hlast, hsome⟩ := Bool.and_eq_true_iff.mp hop
    have hpos := h.pos hsome
    show (l.release id).live + 1 = l.live
    unfold release
    split
    · rename_i hslot
      rw [get?_of_none hslot] at hsome
      cases hsome
    · rename_i slot hslot
      rw [remaining_of_slot hslot] at hlast
      rw [get?_of_slot hslot] at hsome
      rw [if_pos (of_decide_eq_true hlast), if_pos hsome]
      exact Nat.sub_add_cancel hpos
  | take id =>
    have hpos := h.pos hop
    obtain ⟨value, hvalue⟩ := Option.isSome_iff_exists.mp hop
    show (l.take id).2.live + 1 = l.live
    unfold take
    rw [hvalue]
    exact Nat.sub_add_cancel hpos

theorem peak_apply (h : l.live ≤ l.peak) (op : Op α) : (l.apply op).peak = max l.peak (l.apply op).live := by
  have hkept : l.peak = max l.peak l.live := (Nat.max_eq_left h).symm
  have hless : l.peak = max l.peak (l.live - 1) := (Nat.max_eq_left (by omega)).symm
  cases op with
  | insert id value =>
    show (l.insert id value).peak = max l.peak (l.insert id value).live
    unfold insert
    split
    · exact hkept
    · split
      · exact hkept
      · rfl
  | release id =>
    show (l.release id).peak = max l.peak (l.release id).live
    unfold release
    split
    · exact hkept
    · split
      · dsimp only
        split
        · exact hless
        · exact hkept
      · exact hkept
  | take id =>
    show (l.take id).2.peak = max l.peak (l.take id).2.live
    unfold take
    split
    · exact hkept
    · exact hless

/-- The peak is the greatest number of values so far. -/
theorem peak_after (uses : List Nat) (ops : List (Op α)) :
    IsGreatest {n | ∃ done, done <+: ops ∧ (after uses done).live = n} (after uses ops).peak := by
  induction ops using List.reverseRecOn with
  | nil =>
    refine ⟨⟨[], List.prefix_rfl, rfl⟩, ?_⟩
    rintro n ⟨done, hdone, rfl⟩
    rw [List.prefix_nil.mp hdone]
    exact Nat.le_refl 0
  | append_singleton ops op ih =>
    have hlive : (after uses ops).live ≤ (after uses ops).peak := ih.2 ⟨ops, List.prefix_rfl, rfl⟩
    have hpeak : (after uses (ops ++ [op])).peak = max (after uses ops).peak (after uses (ops ++ [op])).live := by
      rw [after_concat]
      exact peak_apply hlive op
    rw [hpeak]
    refine ⟨?_, ?_⟩
    · rcases Nat.le_total (after uses (ops ++ [op])).live (after uses ops).peak with hle | hle
      · obtain ⟨done, hdone, hn⟩ := ih.1
        exact ⟨done, hdone.trans (List.prefix_append _ _), hn.trans (Nat.max_eq_left hle).symm⟩
      · exact ⟨_, List.prefix_rfl, (Nat.max_eq_right hle).symm⟩
    · rintro n ⟨done, hdone, rfl⟩
      rcases List.prefix_concat_iff.mp hdone with rfl | hdone
      · exact Nat.le_max_right _ _
      · exact Nat.le_trans (ih.2 ⟨done, hdone, rfl⟩) (Nat.le_max_left _ _)

/-! ### What was done -/

/-- Among some operations is one that something holds of, together with those in front of it. -/
def Ever (P : List (Op α) → Op α → Prop) (ops : List (Op α)) : Prop :=
  ∃ before op rest, ops = before ++ op :: rest ∧ P before op

theorem not_ever_nil {P : List (Op α) → Op α → Prop} : ¬Ever P [] := by
  rintro ⟨before, op, rest, hsplit, -⟩
  exact List.append_ne_nil_of_right_ne_nil _ (List.cons_ne_nil op rest) hsplit.symm

theorem ever_concat {P : List (Op α) → Op α → Prop} : Ever P (ops ++ [op]) ↔ Ever P ops ∨ P ops op := by
  constructor
  · rintro ⟨before, x, rest, hsplit, hx⟩
    rcases List.eq_nil_or_concat' rest with rfl | ⟨rest, last, rfl⟩
    · obtain ⟨rfl, hop⟩ := List.append_inj' hsplit rfl
      cases hop
      exact .inr hx
    · rw [← List.cons_append, ← List.append_assoc] at hsplit
      exact .inl ⟨before, x, rest, (List.append_inj' hsplit rfl).1, hx⟩
  · rintro (⟨before, x, rest, rfl, hx⟩ | hop)
    · exact ⟨before, x, rest ++ [op], by rw [List.append_assoc, List.cons_append], hx⟩
    · exact ⟨ops, op, [], rfl, hop⟩

/-- A value was put in while uses remained. -/
def PutIn (uses : List Nat) (id : Nat) : List (Op α) → Prop :=
  Ever fun before op => (∃ value, op = .insert id value) ∧ 0 < (after uses before).remaining id

/-- A value was taken out. -/
def TakenOut (uses : List Nat) (id : Nat) : List (Op α) → Prop :=
  Ever fun before op => op = .take id ∧ ((after uses before).take id).1.isSome = true

/-- How often a place was released. -/
def releases (id : Nat) (ops : List (Op α)) : Nat :=
  ops.countP fun
    | .release i => i == id
    | _ => false

/-! ### What a place holds -/

/-- What a place tells of the operations so far: the uses that are left, and whether there is a value. -/
structure Tells (uses : List Nat) (ops : List (Op α)) (id : Nat) : Prop where
  ended : TakenOut uses id ops → (after uses ops).remaining id = 0
  left : ¬TakenOut uses id ops → (after uses ops).remaining id = uses.getD id 0 - releases id ops
  present : ((after uses ops).get? id).isSome = true ↔ PutIn uses id ops ∧ 0 < (after uses ops).remaining id
  latest : ∀ value, (after uses ops).get? id = some value →
    ∃ before rest, ops = before ++ .insert id value :: rest ∧ ∀ other, .insert id other ∉ rest

theorem tells_nil (uses : List Nat) (id : Nat) : Tells uses ([] : List (Op α)) id := by
  have hnone : (after uses ([] : List (Op α))).get? id = none := get?_ofUses uses id
  refine ⟨fun h => absurd h not_ever_nil, fun _ => remaining_ofUses uses id, ?_, fun value h => ?_⟩
  · rw [hnone]
    exact iff_of_false Bool.false_ne_true fun h => not_ever_nil h.1
  · rw [hnone] at h
    cases h

/-- A value stays the latest one if nothing is put in. -/
theorem Tells.latest_concat (h : Tells uses ops id) (hop : ∀ other, op ≠ .insert id other)
    (hget : (after uses ops).get? id = some value) :
    ∃ before rest, ops ++ [op] = before ++ .insert id value :: rest ∧ ∀ other, .insert id other ∉ rest := by
  obtain ⟨before, rest, rfl, hrest⟩ := h.latest value hget
  refine ⟨before, rest ++ [op], by rw [List.append_assoc, List.cons_append], fun other hother => ?_⟩
  rcases List.mem_append.mp hother with hother | hother
  · exact hrest other hother
  · exact hop other (List.mem_singleton.mp hother).symm

/-- An operation on another place tells nothing new. -/
theorem Tells.concat_ne (h : Tells uses ops id) (hop : op.place ≠ id) : Tells uses (ops ++ [op]) id := by
  have hinsert : ∀ value, op ≠ .insert id value := by
    rintro value rfl
    exact hop rfl
  have htake : op ≠ .take id := by
    rintro rfl
    exact hop rfl
  have htaken : TakenOut uses id (ops ++ [op]) ↔ TakenOut uses id ops :=
    ever_concat.trans (or_iff_left fun h => htake h.1)
  have hput : PutIn uses id (ops ++ [op]) ↔ PutIn uses id ops :=
    ever_concat.trans (or_iff_left fun ⟨⟨value, hvalue⟩, _⟩ => hinsert value hvalue)
  have hreleases : releases id (ops ++ [op]) = releases id ops := by
    unfold releases
    rw [List.countP_append, Nat.add_eq_left, List.countP_eq_zero]
    intro x hx
    rw [List.mem_singleton.mp hx]
    cases op with
    | release i => exact fun heq => hop (beq_iff_eq.mp heq)
    | insert | take => exact Bool.false_ne_true
  refine ⟨?_, ?_, ?_, ?_⟩ <;>
    rw [after_concat] <;> simp only [htaken, hput, hreleases, get?_apply_ne hop, remaining_apply_ne hop]
  · exact h.ended
  · exact h.left
  · exact h.present
  · exact fun value hget => h.latest_concat hinsert hget

theorem Tells.insert (h : Tells uses ops id) (value : α) : Tells uses (ops ++ [.insert id value]) id := by
  have htaken : TakenOut uses id (ops ++ [.insert id value]) ↔ TakenOut uses id ops :=
    ever_concat.trans (or_iff_left fun h => by cases h.1)
  have hput : PutIn uses id (ops ++ [.insert id value]) ↔ PutIn uses id ops ∨ 0 < (after uses ops).remaining id :=
    ever_concat.trans (or_congr_right (and_iff_right ⟨value, rfl⟩))
  have hreleases : releases id (ops ++ [.insert id value]) = releases id ops := List.countP_append
  have hremaining : (after uses (ops ++ [.insert id value])).remaining id = (after uses ops).remaining id := by
    rw [after_concat]
    exact remaining_insert
  have hget : (after uses (ops ++ [.insert id value])).get? id = ((after uses ops).insert id value).get? id := by
    rw [after_concat]
    rfl
  refine ⟨?_, ?_, ?_, ?_⟩ <;> simp only [htaken, hput, hreleases, hremaining, hget]
  · exact h.ended
  · exact h.left
  · by_cases hpos : 0 < (after uses ops).remaining id
    · rw [get?_insert_self hpos]
      exact iff_of_true rfl ⟨.inr hpos, hpos⟩
    · rw [get?_insert_refused (Nat.eq_zero_of_not_pos hpos), h.present]
      simp only [hpos, and_false]
  · intro other hother
    by_cases hpos : 0 < (after uses ops).remaining id
    · rw [get?_insert_self hpos] at hother
      cases hother
      exact ⟨ops, [], rfl, fun _ => List.not_mem_nil⟩
    · rw [get?_insert_refused (Nat.eq_zero_of_not_pos hpos)] at hother
      exact absurd (h.present.mp (Option.isSome_iff_exists.mpr ⟨other, hother⟩)).2 hpos

theorem Tells.release (h : Tells uses ops id) : Tells uses (ops ++ [.release id]) id := by
  have htaken : TakenOut uses id (ops ++ [.release id]) ↔ TakenOut uses id ops :=
    ever_concat.trans (or_iff_left fun h => by cases h.1)
  have hput : PutIn uses id (ops ++ [.release id]) ↔ PutIn uses id ops :=
    ever_concat.trans (or_iff_left fun ⟨⟨value, hvalue⟩, _⟩ => by cases hvalue)
  have hreleases : releases id (ops ++ [.release id]) = releases id ops + 1 := by
    unfold releases
    rw [List.countP_append]
    simp
  have hremaining : (after uses (ops ++ [.release id])).remaining id = (after uses ops).remaining id - 1 := by
    rw [after_concat]
    exact remaining_release_self
  have hget : (after uses (ops ++ [.release id])).get? id = ((after uses ops).release id).get? id := by
    rw [after_concat]
    rfl
  refine ⟨fun hout => ?_, fun hout => ?_, ?_, fun value hvalue => ?_⟩
  · rw [hremaining, h.ended (htaken.mp hout)]
  · rw [hremaining, h.left (mt htaken.mpr hout), hreleases, Nat.sub_sub]
  · rw [hput, hremaining, hget]
    by_cases hmore : 1 < (after uses ops).remaining id
    · rw [get?_release_self hmore, h.present]
      exact and_congr_right fun _ => ⟨fun _ => by omega, fun _ => by omega⟩
    · rw [get?_release_last (Nat.le_of_not_lt hmore)]
      exact iff_of_false Bool.false_ne_true fun hleft => by omega
  · rw [hget] at hvalue
    by_cases hmore : 1 < (after uses ops).remaining id
    · rw [get?_release_self hmore] at hvalue
      exact h.latest_concat (fun _ heq => by cases heq) hvalue
    · rw [get?_release_last (Nat.le_of_not_lt hmore)] at hvalue
      cases hvalue

theorem Tells.take (h : Tells uses ops id) : Tells uses (ops ++ [.take id]) id := by
  have htaken : TakenOut uses id (ops ++ [.take id]) ↔
      TakenOut uses id ops ∨ ((after uses ops).get? id).isSome = true := by
    refine ever_concat.trans (or_congr_right ?_)
    rw [take_fst]
    exact and_iff_right rfl
  have hput : PutIn uses id (ops ++ [.take id]) ↔ PutIn uses id ops :=
    ever_concat.trans (or_iff_left fun ⟨⟨value, hvalue⟩, _⟩ => by cases hvalue)
  have hreleases : releases id (ops ++ [.take id]) = releases id ops := List.countP_append
  have hget : (after uses (ops ++ [.take id])).get? id = none := by
    rw [after_concat]
    exact get?_take_self
  have hlatest : ∀ value, (after uses (ops ++ [.take id])).get? id = some value →
      ∃ before rest, ops ++ [.take id] = before ++ .insert id value :: rest ∧ ∀ other, .insert id other ∉ rest := by
    intro value hvalue
    rw [hget] at hvalue
    cases hvalue
  by_cases hsome : ((after uses ops).get? id).isSome = true
  · have hremaining : (after uses (ops ++ [.take id])).remaining id = 0 := by
      rw [after_concat]
      exact remaining_take_self hsome
    refine ⟨fun _ => hremaining, fun hout => absurd (htaken.mpr (.inr hsome)) hout, ?_, hlatest⟩
    rw [hget, hremaining]
    exact iff_of_false Bool.false_ne_true fun hleft => Nat.lt_irrefl 0 hleft.2
  · have hsame : after uses (ops ++ [.take id]) = after uses ops := by
      rw [after_concat]
      exact congrArg Prod.snd (take_of_none (Option.not_isSome_iff_eq_none.mp hsome))
    rw [or_iff_left hsome] at htaken
    refine ⟨?_, ?_, ?_, hlatest⟩
    · rw [htaken, hsame]
      exact h.ended
    · rw [htaken, hsame, hreleases]
      exact h.left
    · rw [hput, hsame]
      exact h.present

theorem tells (uses : List Nat) (ops : List (Op α)) (id : Nat) : Tells uses ops id := by
  induction ops using List.reverseRecOn with
  | nil => exact tells_nil uses id
  | append_singleton ops op ih =>
    by_cases hop : op.place = id
    · subst hop
      cases op with
      | insert _ value => exact ih.insert value
      | release => exact ih.release
      | take => exact ih.take
    · exact ih.concat_ne hop

/-! ### The books -/

/-- The books behind some operations: `live` is the number of values, and each one given up next is counted off; `peak`
    is the greatest number so far. Values are held only where readings are to come, and are not put in elsewhere. A
    place has a value if one was put in while uses remained, it was released less often than it had uses, and no value
    of it was taken out; it is the one put in last. -/
structure Balanced (uses : List Nat) (ops : List (Op α)) : Prop where
  live : (after uses ops).live = (after uses ops).slots.countP (·.value.isSome)
  peak : IsGreatest {n | ∃ done, done <+: ops ∧ (after uses done).live = n} (after uses ops).peak
  countedOff : ∀ op, (after uses ops).givesUp op = true → ((after uses ops).apply op).live + 1 = (after uses ops).live
  positive : ∀ id, ((after uses ops).get? id).isSome = true → 0 < (after uses ops).remaining id
  refused : ∀ id value, (after uses ops).remaining id = 0 →
    ((after uses ops).insert id value).get? id = none ∧ ((after uses ops).insert id value).live = (after uses ops).live
  present : ∀ id, ((after uses ops).get? id).isSome = true ↔
    PutIn uses id ops ∧ releases id ops < uses.getD id 0 ∧ ¬TakenOut uses id ops
  latest : ∀ id value, (after uses ops).get? id = some value →
    ∃ before rest, ops = before ++ .insert id value :: rest ∧ ∀ other, .insert id other ∉ rest

theorem live_insert_refused (h : l.remaining id = 0) : (l.insert id value).live = l.live := by
  unfold insert
  split
  · rfl
  · rename_i slot hslot
    rw [if_pos ((remaining_of_slot hslot).symm.trans h)]

/-- The books balance, whatever the uses and the operations. -/
theorem after_balanced (uses : List Nat) (ops : List (Op α)) : Balanced uses ops where
  live := counted_after uses ops
  peak := peak_after uses ops
  countedOff := fun _ hop => live_apply (counted_after uses ops) hop
  positive := fun id hsome => ((tells uses ops id).present.mp hsome).2
  refused := fun id value hzero => by
    refine ⟨?_, live_insert_refused hzero⟩
    rw [get?_insert_refused hzero, ← Option.not_isSome_iff_eq_none, (tells uses ops id).present, hzero]
    exact fun h => Nat.lt_irrefl 0 h.2
  present := fun id => by
    have htells := tells uses ops id
    rw [htells.present]
    refine and_congr_right fun _ => ⟨fun hpos => ?_, fun ⟨hfewer, hout⟩ => ?_⟩
    · have hout : ¬TakenOut uses id ops := fun hout => Nat.ne_of_gt hpos (htells.ended hout)
      rw [htells.left hout] at hpos
      exact ⟨by omega, hout⟩
    · rw [htells.left hout]
      omega
  latest := fun id => (tells uses ops id).latest

end Concord.Ledger
