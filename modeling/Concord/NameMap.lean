/-! Maps from names to values, listed in the order of the names. The order is part of the type, so
    two maps with the same values under the same names are equal. -/

namespace Concord

/-- Names are totally ordered: one that is neither below another nor equal to it lies above it. -/
theorem name_lt_of_not_lt {a b : String} (h : ¬a < b) (hne : a ≠ b) : b < a := by
  have h' : b ≤ a := String.not_lt.1 h
  rcases Decidable.em (b < a) with hlt | hge
  · exact hlt
  · exact absurd (String.le_antisymm (String.not_lt.1 hge) h') hne

/-- Values under names, in the order of the names, each name once. -/
@[ext] structure NameMap (α : Type) where
  entries : List (String × α)
  sorted : entries.Pairwise fun a b => a.1 < b.1

namespace NameMap

variable {α β : Type}

instance [DecidableEq α] : DecidableEq (NameMap α) := fun a b =>
  if h : a.entries = b.entries then isTrue (NameMap.ext h)
  else isFalse fun hab => h (congrArg entries hab)

def empty : NameMap α := ⟨[], List.Pairwise.nil⟩

instance : Inhabited (NameMap α) := ⟨empty⟩

/-! ### Looking up -/

def find (name : String) : List (String × α) → Option α
  | [] => none
  | (k, v) :: rest => if k = name then some v else find name rest

/-- The value under a name. -/
def get? (m : NameMap α) (name : String) : Option α := find name m.entries

def contains (m : NameMap α) (name : String) : Bool := (m.get? name).isSome

def keys (m : NameMap α) : List String := m.entries.map (·.1)

def values (m : NameMap α) : List α := m.entries.map (·.2)

/-! ### Changing one entry -/

/-- The entries with the value under `name` replaced by what `f` makes of it; `none` stands for no
    entry. -/
def alterEntries (name : String) (f : Option α → Option α) :
    List (String × α) → List (String × α)
  | [] => match f none with
    | some v => [(name, v)]
    | none => []
  | (k, w) :: rest =>
    if k < name then (k, w) :: alterEntries name f rest
    else if k = name then
      match f (some w) with
      | some v => (k, v) :: rest
      | none => rest
    else
      match f none with
      | some v => (name, v) :: (k, w) :: rest
      | none => (k, w) :: rest

theorem mem_alterEntries {name : String} {f : Option α → Option α} {p : String × α} :
    ∀ {l : List (String × α)}, p ∈ alterEntries name f l → p.1 = name ∨ p ∈ l
  | [], h => by
    simp only [alterEntries] at h
    split at h
    · simp only [List.mem_singleton] at h
      exact Or.inl (by rw [h])
    · cases h
  | (k, w) :: rest, h => by
    simp only [alterEntries] at h
    split at h
    · rcases List.mem_cons.1 h with h | h
      · exact Or.inr (h ▸ List.mem_cons_self)
      · rcases mem_alterEntries h with h | h
        · exact Or.inl h
        · exact Or.inr (List.mem_cons_of_mem _ h)
    · split at h
      · rename_i hk
        split at h
        · rcases List.mem_cons.1 h with h | h
          · exact Or.inl (by rw [h]; exact hk)
          · exact Or.inr (List.mem_cons_of_mem _ h)
        · exact Or.inr (List.mem_cons_of_mem _ h)
      · split at h
        · rcases List.mem_cons.1 h with h | h
          · exact Or.inl (by rw [h])
          · exact Or.inr h
        · exact Or.inr h

theorem sorted_alterEntries (name : String) (f : Option α → Option α) :
    ∀ {l : List (String × α)}, (l.Pairwise fun a b => a.1 < b.1) →
      (alterEntries name f l).Pairwise fun a b => a.1 < b.1
  | [], _ => by
    simp only [alterEntries]
    split
    · exact List.pairwise_singleton _ _
    · exact List.Pairwise.nil
  | (k, w) :: rest, h => by
    rw [List.pairwise_cons] at h
    simp only [alterEntries]
    split
    · rename_i hk
      refine List.pairwise_cons.2 ⟨fun p hp => ?_, sorted_alterEntries name f h.2⟩
      rcases mem_alterEntries hp with hp | hp
      · rw [hp]; exact hk
      · exact h.1 p hp
    · split
      · split
        · exact List.pairwise_cons.2 ⟨h.1, h.2⟩
        · exact h.2
      · rename_i hlt hne
        have hgt : name < k := name_lt_of_not_lt hlt hne
        split
        · refine List.pairwise_cons.2 ⟨fun p hp => ?_, List.pairwise_cons.2 h⟩
          rcases List.mem_cons.1 hp with hp | hp
          · rw [hp]; exact hgt
          · exact String.lt_trans hgt (h.1 p hp)
        · exact List.pairwise_cons.2 h

/-- The map with the value under `name` replaced by what `f` makes of it. -/
def alter (m : NameMap α) (name : String) (f : Option α → Option α) : NameMap α :=
  ⟨alterEntries name f m.entries, sorted_alterEntries name f m.sorted⟩

/-- Puts a value under a name, in place of what was there. -/
def insert (m : NameMap α) (name : String) (v : α) : NameMap α := m.alter name fun _ => some v

/-- Puts a value under a name that has none yet. -/
def insertNew (m : NameMap α) (name : String) (v : α) : NameMap α :=
  m.alter name fun old => some (old.getD v)

def erase (m : NameMap α) (name : String) : NameMap α := m.alter name fun _ => none

/-- The map of a list of entries; of two under one name the later one stays. -/
def ofList (l : List (String × α)) : NameMap α := l.foldl (fun m p => m.insert p.1 p.2) empty

/-! ### All entries at once -/

/-- Every value replaced by what `f` makes of it. -/
def map (f : String → α → β) (m : NameMap α) : NameMap β where
  entries := m.entries.map fun p => (p.1, f p.1 p.2)
  sorted := by
    rw [List.pairwise_map]
    exact m.sorted.imp fun h => h

/-- The entries that pass a test. -/
def filter (keep : String → α → Bool) (m : NameMap α) : NameMap α where
  entries := m.entries.filter fun p => keep p.1 p.2
  sorted := m.sorted.filter _

/-- What the map says about a name after a change at `name`. -/
theorem find_alterEntries {name key : String} {f : Option α → Option α} :
    ∀ {l : List (String × α)}, (l.Pairwise fun a b => a.1 < b.1) →
      find key (alterEntries name f l) = if key = name then f (find name l) else find key l
  | [], _ => by
    simp only [alterEntries]
    split <;> rename_i hf
    · by_cases hk : key = name
      · simp [find, hk, hf]
      · simp [find, hk, Ne.symm hk]
    · by_cases hk : key = name <;> simp [find, hk, hf]
  | (k, w) :: rest, h => by
    rw [List.pairwise_cons] at h
    have hnone : ∀ {x : String} {l : List (String × α)}, (∀ p ∈ l, x < p.1) → find x l = none := by
      intro x l
      induction l with
      | nil => intro _; rfl
      | cons p l ih =>
        intro hx
        have hne : p.1 ≠ x := fun e => String.lt_irrefl x (e ▸ hx p List.mem_cons_self)
        simp only [find, hne, if_false]
        exact ih fun q hq => hx q (List.mem_cons_of_mem _ hq)
    simp only [alterEntries]
    split
    · rename_i hk
      have hkn : k ≠ name := fun e => String.lt_irrefl k (e ▸ hk)
      simp only [find, hkn, if_false, find_alterEntries h.2]
      by_cases hkey : k = key
      · have : key ≠ name := hkey ▸ hkn
        simp [hkey, this]
      · simp [hkey]
    · split
      · rename_i hk
        subst hk
        have hrest : find k rest = none := hnone h.1
        split <;> rename_i hf
        · by_cases hkey : key = k
          · simp [find, hkey, hf]
          · simp [find, hkey, Ne.symm hkey]
        · by_cases hkey : key = k
          · simp [find, hkey, hf, hrest]
          · simp [find, hkey, Ne.symm hkey]
      · rename_i hlt hne
        have hgt : name < k := name_lt_of_not_lt hlt hne
        have hl : find name ((k, w) :: rest) = none := by
          apply hnone
          intro p hp
          rcases List.mem_cons.1 hp with hp | hp
          · rw [hp]; exact hgt
          · exact String.lt_trans hgt (h.1 p hp)
        rw [hl]
        split <;> rename_i hf
        · by_cases hkey : key = name
          · simp [find, hkey, hf]
          · simp [find, hkey, Ne.symm hkey]
        · by_cases hkey : key = name
          · simp [hkey, hf, hl]
          · simp [hkey]

theorem get?_alter (m : NameMap α) (name key : String) (f : Option α → Option α) :
    (m.alter name f).get? key = if key = name then f (m.get? name) else m.get? key :=
  find_alterEntries m.sorted

theorem get?_insert (m : NameMap α) (name key : String) (v : α) :
    (m.insert name v).get? key = if key = name then some v else m.get? key :=
  get?_alter m name key _

theorem get?_erase (m : NameMap α) (name key : String) :
    (m.erase name).get? key = if key = name then none else m.get? key :=
  get?_alter m name key _

end NameMap
end Concord
