import Mathlib.Data.List.Nodup
import Mathlib.Data.List.Sort
import Concord.NameMap

/-! What maps say about names: looking up in maps that are changed, filtered or made of a list of entries. A map is
    known by what it says about each name. -/

namespace Concord.NameMap

variable {α : Type} {m n : NameMap α} {name key : String} {v : α}

/-! ### Looking up -/

theorem get?_insertNew (m : NameMap α) (name key : String) (v : α) :
    (m.insertNew name v).get? key = if key = name then some ((m.get? name).getD v) else m.get? key :=
  get?_alter m name key _

theorem mem_iff_find {p : String × α} :
    ∀ {l : List (String × α)}, (l.Pairwise fun a b => a.1 < b.1) → (p ∈ l ↔ find p.1 l = some p.2)
  | [], _ => by simp [find]
  | (k, v) :: l, h => by
    rw [List.pairwise_cons] at h
    rw [find, List.mem_cons]
    split
    · rename_i hk
      have hnot : p ∉ l := fun hmem => String.lt_irrefl k (hk ▸ h.1 p hmem)
      constructor
      · rintro (rfl | hmem)
        · rfl
        · exact absurd hmem hnot
      · intro heq
        exact .inl (Prod.ext hk.symm (Option.some.inj heq).symm)
    · rename_i hk
      rw [← mem_iff_find h.2]
      exact ⟨fun hmem => hmem.resolve_left fun heq => hk (heq ▸ rfl), .inr⟩

/-- The entries of a map are what it says about names. -/
theorem mem_entries {p : String × α} : p ∈ m.entries ↔ m.get? p.1 = some p.2 := mem_iff_find m.sorted

theorem nodup_keys (m : NameMap α) : m.keys.Nodup := by
  refine List.pairwise_map.mpr (m.sorted.imp ?_)
  intro a b hlt heq
  rw [heq] at hlt
  exact String.lt_irrefl _ hlt

theorem contains_iff : m.contains name = true ↔ ∃ v, m.get? name = some v := Option.isSome_iff_exists

theorem contains_insert : (m.insert name v).contains key = true ↔ key = name ∨ m.contains key = true := by
  rw [contains, get?_insert]
  split
  · rename_i heq
    simp [heq]
  · rename_i hne
    simp [hne, contains]

theorem mem_keys : name ∈ m.keys ↔ m.contains name = true := by
  rw [contains_iff, keys, List.mem_map]
  constructor
  · rintro ⟨p, hp, rfl⟩
    exact ⟨p.2, mem_entries.mp hp⟩
  · rintro ⟨v, hv⟩
    exact ⟨(name, v), mem_entries.mpr hv, rfl⟩

/-! ### Maps made of others and of lists -/

/-- The map that says of some names what a function says. -/
theorem get?_ofList_map (names : List String) (f : String → α) (key : String) :
    (ofList (names.map fun name => (name, f name))).get? key = if key ∈ names then some (f key) else none := by
  have hfold : ∀ (names : List String) (m : NameMap α),
      ((names.map fun name => (name, f name)).foldl (fun m p => m.insert p.1 p.2) m).get? key =
        if key ∈ names then some (f key) else m.get? key := by
    intro names
    induction names with
    | nil => exact fun _ => rfl
    | cons name names ih =>
      intro m
      rw [List.map_cons, List.foldl_cons, ih, get?_insert]
      by_cases hmem : key ∈ names
      · simp [hmem]
      · by_cases heq : key = name <;> simp [hmem, heq]
  exact hfold names .empty

theorem mem_keys_ofList_map {names : List String} {f : String → α} :
    name ∈ (ofList (names.map fun name => (name, f name))).keys ↔ name ∈ names := by
  rw [mem_keys, contains, get?_ofList_map]
  split <;> simp_all

theorem get?_filter (m : NameMap α) (keep : String → α → Bool) (key : String) :
    (m.filter keep).get? key = (m.get? key).filter (keep key) := by
  have hmem : ∀ v, (m.filter keep).get? key = some v ↔ ((m.get? key).filter (keep key)) = some v := by
    intro v
    rw [← mem_entries (p := (key, v)), filter, List.mem_filter, mem_entries, Option.filter_eq_some_iff]
  exact Option.ext hmem

theorem get?_map {β : Type} (m : NameMap α) (f : String → α → β) (key : String) :
    (m.map f).get? key = (m.get? key).map (f key) := by
  refine Option.ext fun v => ?_
  rw [← mem_entries (p := (key, v)), map, List.mem_map, Option.map_eq_some_iff]
  constructor
  · rintro ⟨p, hp, heq⟩
    cases heq
    exact ⟨p.2, mem_entries.mp hp, rfl⟩
  · rintro ⟨a, ha, rfl⟩
    exact ⟨(key, a), mem_entries.mpr ha, rfl⟩

theorem ext_get? (h : ∀ key, m.get? key = n.get? key) : m = n := by
  have hnodup : ∀ m : NameMap α, m.entries.Nodup := fun m => List.Nodup.of_map _ m.nodup_keys
  refine NameMap.ext (List.Perm.eq_of_pairwise (fun a b _ _ hab hba => ?_) m.sorted n.sorted
    ((List.perm_ext_iff_of_nodup (hnodup m) (hnodup n)).mpr fun p => ?_))
  · exact absurd hba (String.lt_asymm hab)
  · rw [mem_entries, mem_entries, h]

theorem get?_foldl_insert : ∀ {l : List (String × α)} {m : NameMap α}, (l.map (·.1)).Nodup →
    ((l.foldl (fun m p => m.insert p.1 p.2) m).get? key = some v ↔
      (key, v) ∈ l ∨ key ∉ l.map (·.1) ∧ m.get? key = some v)
  | [], _, _ => by simp
  | (k, w) :: l, m, h => by
    rw [List.map_cons, List.nodup_cons] at h
    rw [List.foldl_cons, get?_foldl_insert h.2, get?_insert]
    by_cases hkey : key = k
    · subst hkey
      have hnot : ∀ x, (key, x) ∉ l := fun x hx => h.1 (List.mem_map.mpr ⟨(key, x), hx, rfl⟩)
      simp [hnot, h.1, eq_comm]
    · simp [hkey]

/-- A map is that of its entries, in any order. -/
theorem ofList_perm {l : List (String × α)} (h : l.Perm m.entries) : ofList l = m := by
  have hnodup : (l.map (·.1)).Nodup := (h.map _).nodup_iff.mpr m.nodup_keys
  refine ext_get? fun key => Option.ext fun v => ?_
  rw [ofList, get?_foldl_insert hnodup, h.mem_iff, mem_entries]
  simp [empty, get?, find]

end Concord.NameMap
