import Mathlib.Data.List.Nodup
import Mathlib.Data.List.Perm.Subperm
import Concord.Proofs.Outcome
import Concord.Resolve.Typing

/-! Axes whose names differ and whose lengths are known. What functions make of such axes is such again,
    and an axis keeps its length under its name. -/

namespace Concord

namespace Signature

variable {s t : Signature} {x : String}

/-- The length of an axis; zero if it is not known. -/
def lens (s : Signature) (x : String) : Nat := ((s.dimension? x).bind (·.length)).getD 0

/-- All names differ, and all lengths are known. -/
structure Known (s : Signature) : Prop where
  nodup : s.names.Nodup
  lengths : ∀ d ∈ s, d.length.isSome = true

/-! ### Looking up -/

@[simp] theorem names_cons (d : Dimension) (s : Signature) : names (d :: s) = d.name :: names s := rfl

theorem mem_names : x ∈ s.names ↔ ∃ d ∈ s, d.name = x := List.mem_map

theorem position_eq : s.position x = if x ∈ s.names then some (s.names.idxOf x) else none := by
  unfold position names
  induction s with
  | nil => rfl
  | cons d s ih =>
    rw [List.findIdx?_cons, List.map_cons, List.idxOf_cons, ih]
    by_cases hd : d.name = x
    · simp [hd]
    · have hne : x ≠ d.name := fun h => hd h.symm
      rw [beq_false_of_ne hd]
      simp only [List.mem_cons, hne, false_or, cond_false, Bool.false_eq_true, if_false]
      split <;> rfl

theorem named_iff : s.named x = true ↔ x ∈ s.names := by
  unfold named
  rw [position_eq]
  split
  · rename_i h
    exact ⟨fun _ => h, fun _ => rfl⟩
  · rename_i h
    exact ⟨fun h => (by cases h), fun h' => absurd h' h⟩

theorem position_of_mem (h : x ∈ s.names) : s.position x = some (s.names.idxOf x) := by
  rw [position_eq, if_pos h]

theorem position_of_not_mem (h : x ∉ s.names) : s.position x = none := by
  rw [position_eq, if_neg h]

/-- The axis of a name is the first one that has it. -/
theorem position_eq_some {axis : Nat} : s.position x = some axis ↔
    ∃ h : axis < s.length, s[axis].name = x ∧ ∀ k (hk : k < axis), s[k].name ≠ x := by
  unfold position
  rw [List.findIdx?_eq_some_iff_getElem]
  simp only [beq_iff_eq, ne_eq]

theorem dimension?_of_position {axis : Nat} (h : s.position x = some axis) : s.dimension? x = s[axis]? := by
  unfold position at h
  unfold dimension?
  rw [List.find?_eq_bind_findIdx?_getElem?, h, Option.bind_some]

/-- An axis that is the first one of its new name is the first one of its old name. -/
theorem position_renamed {map : NameMap String} {axis : Nat} (h : (s.renamed map).position x = some axis) :
    ∃ a, s[axis]? = some a ∧ s.position a.name = some axis := by
  obtain ⟨hlt, hname, hfirst⟩ := position_eq_some.mp h
  simp only [renamed, List.length_map, List.getElem_map] at hlt hname hfirst
  refine ⟨s[axis], List.getElem?_eq_getElem hlt, position_eq_some.mpr ⟨hlt, rfl, fun k hk heq => hfirst k hk ?_⟩⟩
  rw [heq]
  exact hname

theorem dimension?_of_mem {d : Dimension} (hn : s.names.Nodup) (hd : d ∈ s) : s.dimension? d.name = some d := by
  induction s with
  | nil => cases hd
  | cons e s ih =>
    obtain ⟨hnot, hn⟩ := List.nodup_cons.mp hn
    unfold dimension?
    rw [List.find?_cons]
    rcases List.mem_cons.mp hd with rfl | hd
    · rw [beq_self_eq_true]
    · have hne : e.name ≠ d.name := fun heq => hnot (mem_names.mpr ⟨d, hd, heq.symm⟩)
      rw [beq_false_of_ne hne]
      exact ih hn hd

theorem dimension?_of_not_mem (h : x ∉ s.names) : s.dimension? x = none :=
  List.find?_eq_none.mpr fun d hd heq => h (mem_names.mpr ⟨d, hd, eq_of_beq heq⟩)

theorem Known.length (h : s.Known) {d : Dimension} (hd : d ∈ s) : d.length = some (s.lens d.name) := by
  obtain ⟨n, hn⟩ := Option.isSome_iff_exists.mp (h.lengths d hd)
  unfold lens
  rw [dimension?_of_mem h.nodup hd, Option.bind_some, hn]
  rfl

theorem lens_of_mem (h : s.Known) {d : Dimension} {n : Nat} (hd : d ∈ s) (hn : d.length = some n) :
    s.lens d.name = n := Option.some.inj ((h.length hd).symm.trans hn)

theorem known_nil : Known [] := ⟨List.nodup_nil, fun _ h => absurd h List.not_mem_nil⟩

/-- The axes have the names of `s`, and their lengths there. -/
structure Within (t s : Signature) : Prop where
  names : t.names ⊆ s.names
  lens : ∀ x ∈ t.names, t.lens x = s.lens x

theorem within_of_subset (ht : t.Known) (hs : s.Known) (h : t ⊆ s) : t.Within s where
  names x hx := by
    obtain ⟨d, hd, rfl⟩ := mem_names.mp hx
    exact mem_names.mpr ⟨d, h hd, rfl⟩
  lens x hx := by
    obtain ⟨d, hd, rfl⟩ := mem_names.mp hx
    exact lens_of_mem ht hd (hs.length (h hd))

theorem Known.of_sublist (h : s.Known) (ht : t.Sublist s) : t.Known :=
  ⟨h.nodup.sublist (ht.map _), fun d hd => h.lengths d (ht.subset hd)⟩

/-! ### Leaving out an axis -/

theorem known_without (h : s.Known) : (s.without x).Known := h.of_sublist List.filter_sublist

theorem names_without (h : s.Known) : (s.without x).names = s.names.erase x := by
  rw [h.nodup.erase_eq_filter]
  unfold names without
  rw [List.filter_map]
  congr 1
  refine List.filter_congr fun d _ => ?_
  by_cases hd : d.name = x <;> simp [hd]

theorem not_mem_without (s : Signature) (x : String) : x ∉ (s.without x).names := by
  intro h
  obtain ⟨d, hd, hname⟩ := mem_names.mp h
  exact of_decide_eq_true (List.mem_filter.mp hd).2 hname

theorem within_without (h : s.Known) : (s.without x).Within s :=
  within_of_subset (known_without h) h (List.filter_subset_self s)

/-! ### Reordering axes -/

theorem positionsOf_eq_some :
    ∀ {names : List String} {taken axes : List Nat}, positionsOf s taken names = some axes →
      axes = names.map s.names.idxOf ∧ names ⊆ s.names ∧ axes.Nodup ∧ ∀ a ∈ axes, a ∉ taken
  | [], taken, axes, h => by
    cases h
    exact ⟨rfl, List.nil_subset _, List.nodup_nil, fun _ h => absurd h List.not_mem_nil⟩
  | name :: names, taken, axes, h => by
    obtain ⟨i, hi, h⟩ := Option.bind_eq_some_iff.mp h
    have hmem : name ∈ s.names := by
      by_contra hnot
      rw [position_of_not_mem hnot] at hi
      cases hi
    rw [position_of_mem hmem] at hi
    split at h
    · cases h
    · rename_i htaken
      obtain ⟨rest, hrest, h⟩ := Option.bind_eq_some_iff.mp h
      cases h
      obtain ⟨heq, hsub, hnodup, hdisj⟩ := positionsOf_eq_some hrest
      refine ⟨?_, List.cons_subset.mpr ⟨hmem, hsub⟩, List.nodup_cons.mpr ⟨?_, hnodup⟩, fun a ha => ?_⟩
      · rw [List.map_cons, Option.some.inj hi, heq]
      · exact fun hin => hdisj i hin List.mem_cons_self
      · rcases List.mem_cons.mp ha with rfl | ha
        · rwa [List.contains_iff_mem] at htaken
        · exact fun hin => hdisj a ha (List.mem_cons_of_mem _ hin)

theorem permutationTo_nodup {target : List String} {order : Permutation} (h : s.permutationTo target = some order) :
    target.Nodup := by
  unfold permutationTo at h
  split at h
  · obtain ⟨axes, haxes, rfl⟩ := Option.map_eq_some_iff.mp h
    obtain ⟨heq, -, hnodup, -⟩ := positionsOf_eq_some haxes
    exact List.Nodup.of_map _ (heq ▸ hnodup)
  · cases h

/-- A reordering to some names: these are the names of all axes, in another order. -/
theorem permutationTo_eq_some {target : List String} {order : Permutation}
    (h : s.permutationTo target = some order) :
    order.axes = target.map s.names.idxOf ∧ target.Perm s.names := by
  have hn := permutationTo_nodup h
  unfold permutationTo at h
  split at h
  · rename_i hlen
    obtain ⟨axes, haxes, rfl⟩ := Option.map_eq_some_iff.mp h
    obtain ⟨heq, hsub, -⟩ := positionsOf_eq_some haxes
    refine ⟨heq, (List.subperm_of_subset hn hsub).perm_of_length_le ?_⟩
    rw [hlen]
    exact Nat.le_of_eq (List.length_map _)
  · cases h

theorem perm_apply {target : List String} {order : Permutation} (h : s.permutationTo target = some order) :
    Signature.names (order.apply s) = target ∧ order.apply s ⊆ s := by
  obtain ⟨haxes, hperm⟩ := permutationTo_eq_some h
  have hall : ∀ l : List String, l ⊆ s.names →
      ((l.map s.names.idxOf).filterMap fun a => s[a]?).map (·.name) = l := by
    intro l hl
    induction l with
    | nil => rfl
    | cons x l ih =>
      obtain ⟨hx, hl⟩ := List.cons_subset.mp hl
      have hget : s.names[s.names.idxOf x]? = some x := by
        have hlt := List.idxOf_lt_length_of_mem hx
        rw [List.getElem?_eq_getElem hlt, List.getElem_idxOf hlt]
      rw [show s.names[s.names.idxOf x]? = _ from List.getElem?_map] at hget
      obtain ⟨d, hd, hname⟩ := Option.map_eq_some_iff.mp hget
      rw [List.map_cons, List.filterMap_cons, hd, List.map_cons, hname, ih hl]
  refine ⟨?_, fun d hd => ?_⟩
  · unfold names Permutation.apply
    rw [haxes]
    exact hall target hperm.subset
  · obtain ⟨a, -, ha⟩ := List.mem_filterMap.mp hd
    exact List.mem_of_getElem? ha

theorem known_apply (hs : s.Known) {target : List String} {order : Permutation}
    (h : s.permutationTo target = some order) : Signature.Known (order.apply s) where
  nodup := by
    rw [(perm_apply h).1]
    exact (permutationTo_eq_some h).2.nodup_iff.mpr hs.nodup
  lengths d hd := hs.lengths d ((perm_apply h).2 hd)

end Signature

/-! ### Joining axes -/

namespace Typing

open Signature

variable {out : Signature}

theorem joinDimension_names {d : Dimension} : ∀ {s out : Signature}, joinDimension d s = .ok out →
    out.names = if d.name ∈ s.names then s.names else s.names ++ [d.name]
  | [], _, h => by
    cases h
    rfl
  | e :: rest, _, h => by
    unfold joinDimension at h
    split at h
    · rename_i hname
      obtain ⟨l, -, rfl⟩ := map_eq_ok.mp h
      simp [hname]
    · rename_i hname
      obtain ⟨rest', hjoin, rfl⟩ := map_eq_ok.mp h
      rw [names_cons, names_cons, joinDimension_names hjoin]
      by_cases hd : d.name ∈ names rest <;> simp [hd, Ne.symm hname]

/-- The union has the names of all. -/
theorem union_names {signatures : List Signature} {out : Signature} (h : union signatures = .ok out) :
    ∀ s ∈ signatures, s.names ⊆ out.names := by
  have hfold : ∀ {l s out : Signature}, l.foldlM (fun out d => joinDimension d out) s = .ok out →
      s.names ⊆ out.names ∧ l.names ⊆ out.names := by
    intro l
    induction l with
    | nil =>
      intro s out h
      cases h
      exact ⟨List.Subset.refl _, List.nil_subset _⟩
    | cons d l ih =>
      intro s out h
      obtain ⟨mid, hmid, h⟩ := foldlM_cons_eq_ok.mp h
      obtain ⟨hs, hl⟩ := ih h
      have hnames := joinDimension_names hmid
      have hmem : d.name ∈ mid.names := by
        rw [hnames]
        split
        · assumption
        · exact List.mem_append_right _ (List.mem_singleton_self _)
      refine ⟨fun x hx => hs ?_, List.cons_subset.mpr ⟨hs hmem, hl⟩⟩
      rw [hnames]
      split
      · exact hx
      · exact List.mem_append_left _ hx
  intro s hs x hx
  obtain ⟨d, hd, rfl⟩ := mem_names.mp hx
  exact (hfold h).2 (mem_names.mpr ⟨d, List.mem_flatten.mpr ⟨s, hs, hd⟩, rfl⟩)

/-- Adding an axis keeps the others, and finds it of the length that it has there. -/
theorem joinDimension_known {d : Dimension} (hd : d.length.isSome = true) :
    ∀ {s out : Signature}, s.Known → joinDimension d s = .ok out →
      out.Known ∧ s ⊆ out ∧ d ∈ out ∧ ∀ x ∈ out.names, x ∈ s.names ∨ x = d.name
  | [], _, _, h => by
    cases h
    refine ⟨⟨List.nodup_singleton _, fun e he => ?_⟩, List.nil_subset _, List.mem_singleton_self d,
      fun x hx => .inr (List.mem_singleton.mp hx)⟩
    rw [List.mem_singleton.mp he]
    exact hd
  | e :: rest, _, hs, h => by
    obtain ⟨hnot, hn⟩ := List.nodup_cons.mp hs.nodup
    have hrest : Known rest := ⟨hn, fun d hd => hs.lengths d (List.mem_cons_of_mem _ hd)⟩
    have he := hs.lengths e List.mem_cons_self
    unfold joinDimension at h
    split at h
    · rename_i hname
      obtain ⟨l, hl, rfl⟩ := map_eq_ok.mp h
      obtain ⟨a, ha⟩ := Option.isSome_iff_exists.mp he
      obtain ⟨b, hb⟩ := Option.isSome_iff_exists.mp hd
      rw [ha, hb] at hl
      dsimp only [joinLength] at hl
      split at hl
      · rename_i hab
        cases hl
        have hsame : (⟨e.name, some a⟩ : Dimension) = e := by
          rw [← ha]
        have hde : d = e := by
          obtain ⟨_, _⟩ := d
          obtain ⟨_, _⟩ := e
          simp_all
        rw [hsame, hde]
        exact ⟨hs, List.Subset.refl _, List.mem_cons_self, fun x hx => .inl hx⟩
      · cases hl
    · rename_i hname
      obtain ⟨rest', hjoin, rfl⟩ := map_eq_ok.mp h
      obtain ⟨hk, hsub, hmem, hnames⟩ := joinDimension_known hd hrest hjoin
      refine ⟨⟨List.nodup_cons.mpr ⟨fun hin => ?_, hk.nodup⟩, fun x hx => ?_⟩,
        List.cons_subset_cons _ hsub, List.mem_cons_of_mem _ hmem, fun x hx => ?_⟩
      · exact (hnames _ hin).elim hnot hname
      · rcases List.mem_cons.mp hx with rfl | hx
        · exact he
        · exact hk.lengths x hx
      · rcases List.mem_cons.mp hx with rfl | hx
        · exact .inl List.mem_cons_self
        · exact (hnames x hx).imp (List.mem_cons_of_mem _) id

theorem foldlM_joinDimension_known :
    ∀ {l s out : Signature}, (∀ d ∈ l, d.length.isSome = true) → s.Known →
      l.foldlM (fun out d => joinDimension d out) s = .ok out →
      out.Known ∧ s ⊆ out ∧ l ⊆ out ∧ ∀ x ∈ out.names, x ∈ s.names ∨ x ∈ l.names
  | [], s, out, _, hs, h => by
    cases h
    exact ⟨hs, List.Subset.refl _, List.nil_subset _, fun x hx => .inl hx⟩
  | d :: l, s, out, hl, hs, h => by
    obtain ⟨mid, hmid, h⟩ := foldlM_cons_eq_ok.mp h
    obtain ⟨hk, hsub, hmem, hnames⟩ := joinDimension_known (hl d List.mem_cons_self) hs hmid
    obtain ⟨hk', hsub', hl', hnames'⟩ :=
      foldlM_joinDimension_known (fun e he => hl e (List.mem_cons_of_mem _ he)) hk h
    refine ⟨hk', List.Subset.trans hsub hsub', List.cons_subset.mpr ⟨hsub' hmem, hl'⟩, fun x hx => ?_⟩
    rcases hnames' x hx with hx | hx
    · rcases hnames x hx with hx | rfl
      · exact .inl hx
      · exact .inr List.mem_cons_self
    · exact .inr (List.mem_cons_of_mem _ hx)

/-- The union of known axes has their names, each with its one length. -/
theorem union_known {signatures : List Signature} {out : Signature} (hs : ∀ s ∈ signatures, s.Known)
    (h : union signatures = .ok out) :
    out.Known ∧ (∀ s ∈ signatures, Signature.Within s out) ∧
      ∀ x ∈ out.names, ∃ s ∈ signatures, x ∈ s.names := by
  have hlengths : ∀ d ∈ signatures.flatten, d.length.isSome = true := by
    intro d hd
    obtain ⟨s, hs', hd⟩ := List.mem_flatten.mp hd
    exact (hs s hs').lengths d hd
  obtain ⟨hk, -, hsub, hnames⟩ := foldlM_joinDimension_known hlengths known_nil h
  refine ⟨hk, fun s hmem => within_of_subset (hs s hmem) hk fun d hd => ?_, fun x hx => ?_⟩
  · exact hsub (List.mem_flatten.mpr ⟨s, hmem, hd⟩)
  · obtain ⟨d, hd, rfl⟩ := mem_names.mp ((hnames x hx).resolve_left List.not_mem_nil)
    obtain ⟨s, hmem, hd⟩ := List.mem_flatten.mp hd
    exact ⟨s, hmem, mem_names.mpr ⟨d, hd, rfl⟩⟩

end Typing
end Concord
