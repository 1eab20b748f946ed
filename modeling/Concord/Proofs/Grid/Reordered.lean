import Concord.Proofs.Grid.Index
import Concord.Proofs.Resolve.Axes

/-! Reordering the axes of signatures and of arrays. A reordering that takes each axis once is undone by its inverse,
    and what it does to the axes of an array it does to the shape and to every position. Bringing a signature into the
    order of some names succeeds exactly if these are its names, provided that they differ. -/

namespace Concord

namespace Permutation

variable {α β : Type} {p : Permutation} {n : Nat} {l : List α}

/-- Each of `n` axes is taken once. -/
def Covers (p : Permutation) (n : Nat) : Prop := p.axes.Perm (List.range n)

theorem Covers.length (h : p.Covers n) : p.axes.length = n := h.length_eq.trans List.length_range

theorem Covers.nodup (h : p.Covers n) : p.axes.Nodup := h.nodup_iff.mpr List.nodup_range

theorem Covers.mem_iff (h : p.Covers n) {a : Nat} : a ∈ p.axes ↔ a < n := (List.Perm.mem_iff h).trans List.mem_range

theorem Covers.lt (h : p.Covers n) {i : Nat} (hi : i < p.axes.length) : p.axes[i] < n :=
  h.mem_iff.mp (List.getElem_mem hi)

theorem Covers.idxOf_lt (h : p.Covers n) {a : Nat} (ha : a < n) : p.axes.idxOf a < p.axes.length :=
  List.idxOf_lt_length_of_mem (h.mem_iff.mpr ha)

/-! ### Lists by axes -/

theorem Covers.apply_eq (h : p.Covers l.length) (d : α) : p.apply l = p.axes.map fun a => l.getD a d := by
  unfold apply
  rw [← List.filterMap_eq_map]
  refine List.filterMap_congr fun a ha => ?_
  rw [Function.comp_apply, List.getD_eq_getElem?_getD, List.getElem?_eq_getElem (h.mem_iff.mp ha), Option.getD_some]

theorem Covers.getElem?_apply (h : p.Covers l.length) (i : Nat) : (p.apply l)[i]? = p.axes[i]?.bind (l[·]?) := by
  cases l with
  | nil =>
    have hnil : p.axes = [] := List.length_eq_zero_iff.mp h.length
    simp [apply, hnil]
  | cons d l =>
    rw [h.apply_eq d, List.getElem?_map]
    rcases Nat.lt_or_ge i p.axes.length with hi | hi
    · have hlt := h.lt hi
      rw [List.getElem?_eq_getElem hi, Option.map_some, Option.bind_some, List.getD_eq_getElem?_getD,
        List.getElem?_eq_getElem hlt, Option.getD_some]
    · rw [List.getElem?_eq_none hi, Option.map_none, Option.bind_none]

theorem Covers.length_apply (h : p.Covers l.length) : (p.apply l).length = l.length := by
  cases l with
  | nil => simp [apply]
  | cons d l => rw [h.apply_eq d, List.length_map, h.length]

theorem Covers.apply_perm (h : p.Covers l.length) : (p.apply l).Perm l := by
  have hall : (List.range l.length).filterMap (l[·]?) = l := by
    refine List.ext_getElem? fun i => ?_
    have hrange : (List.range l.length).filterMap (l[·]?) = apply ⟨List.range l.length⟩ l := rfl
    rw [hrange, getElem?_apply (p := ⟨List.range l.length⟩) (List.Perm.refl _)]
    rcases Nat.lt_or_ge i l.length with hi | hi
    · rw [List.getElem?_range hi, Option.bind_some]
    · rw [List.getElem?_eq_none hi, List.getElem?_eq_none (by rwa [List.length_range]), Option.bind_none]
  exact (List.Perm.filterMap (l[·]?) h).trans (List.Perm.of_eq hall)

/-! ### The inverse -/

theorem length_noted {axes : List (Nat × Nat)} : ∀ {places : List Nat},
    (axes.foldl (fun places a => places.set a.1 a.2) places).length = places.length := by
  induction axes with
  | nil => exact rfl
  | cons a axes ih => exact ih.trans List.length_set

/-- The number of each axis is noted under it. -/
theorem getElem?_noted {axes : List Nat} (hn : axes.Nodup) : ∀ {k a : Nat} {places : List Nat}, a < places.length →
    ((axes.zipIdx k).foldl (fun places a => places.set a.1 a.2) places)[a]? =
      if a ∈ axes then some (k + axes.idxOf a) else places[a]? := by
  induction axes with
  | nil => exact fun _ => (if_neg List.not_mem_nil).symm
  | cons b axes ih =>
    intro k a places ha
    obtain ⟨hb, hn⟩ := List.nodup_cons.mp hn
    rw [List.zipIdx_cons, List.foldl_cons, ih hn (by rwa [List.length_set])]
    by_cases hab : a = b
    · subst hab
      rw [if_neg hb, if_pos List.mem_cons_self, List.getElem?_set_self ha, List.idxOf_cons_self, Nat.add_zero]
    · have hmem : a ∈ b :: axes ↔ a ∈ axes := by rw [List.mem_cons, or_iff_right hab]
      rw [List.getElem?_set_ne (Ne.symm hab), List.idxOf_cons_ne _ (Ne.symm hab), Nat.succ_add_eq_add_succ]
      exact if_congr hmem.symm rfl rfl

theorem Covers.inverse_axes (h : p.Covers n) : p.inverse.axes = (List.range n).map p.axes.idxOf := by
  have hlength : p.inverse.axes.length = n := by
    unfold inverse
    rw [length_noted, List.length_replicate, h.length]
  refine List.ext_getElem? fun a => ?_
  rcases Nat.lt_or_ge a n with ha | ha
  · unfold inverse
    rw [getElem?_noted h.nodup (by rwa [List.length_replicate, h.length]), if_pos (h.mem_iff.mpr ha), Nat.zero_add,
      List.getElem?_map, List.getElem?_range ha, Option.map_some]
  · rw [List.getElem?_eq_none (by rwa [hlength]), List.getElem?_eq_none (by rwa [List.length_map, List.length_range])]

theorem Covers.inverse (h : p.Covers n) : p.inverse.Covers n := by
  have hself : p.axes.map p.axes.idxOf = List.range n := by
    refine List.ext_getElem (by rw [List.length_map, h.length, List.length_range]) fun i hi _ => ?_
    rw [List.length_map] at hi
    rw [List.getElem_map, h.nodup.idxOf_getElem i hi, List.getElem_range]
  unfold Covers
  rw [h.inverse_axes, ← hself]
  exact (hself ▸ h.symm).map p.axes.idxOf

/-- What a reordering did its inverse undoes. -/
theorem Covers.inverse_apply (h : p.Covers l.length) : p.inverse.apply (p.apply l) = l := by
  refine List.ext_getElem? fun a => ?_
  rw [Covers.getElem?_apply (h.length_apply.symm ▸ h.inverse), h.inverse_axes, List.getElem?_map]
  rcases Nat.lt_or_ge a l.length with ha | ha
  · have hi := h.idxOf_lt ha
    rw [List.getElem?_range ha, Option.map_some, Option.bind_some, h.getElem?_apply, List.getElem?_eq_getElem hi,
      List.getElem_idxOf hi, Option.bind_some]
  · rw [List.getElem?_eq_none (by rwa [List.length_range]), List.getElem?_eq_none ha]
    rfl

/-- What its inverse undid a reordering does again. -/
theorem Covers.apply_inverse (h : p.Covers l.length) : p.apply (p.inverse.apply l) = l := by
  refine List.ext_getElem? fun i => ?_
  rw [Covers.getElem?_apply (h.inverse.length_apply.symm ▸ h)]
  rcases Nat.lt_or_ge i p.axes.length with hi | hi
  · have ha := h.lt hi
    rw [List.getElem?_eq_getElem hi, Option.bind_some, h.inverse.getElem?_apply, h.inverse_axes, List.getElem?_map,
      List.getElem?_range ha, Option.map_some, Option.bind_some, h.nodup.idxOf_getElem i hi]
  · rw [List.getElem?_eq_none hi, List.getElem?_eq_none (h.length ▸ hi)]
    rfl

/-- Two lists are reordered alike. -/
theorem Covers.apply_zip {m : List β} (h : p.Covers l.length) (hlength : l.length = m.length) :
    (p.apply l).zip (p.apply m) = p.apply (l.zip m) := by
  have hm : p.Covers m.length := hlength ▸ h
  have hzip : p.Covers (l.zip m).length := by
    rwa [List.length_zip, ← hlength, Nat.min_self]
  refine List.ext_getElem? fun i => ?_
  rw [hzip.getElem?_apply, List.zip, List.getElem?_zipWith, h.getElem?_apply, hm.getElem?_apply]
  cases hi : p.axes[i]? with
  | none => rfl
  | some a => rw [Option.bind_some, Option.bind_some, Option.bind_some, List.getElem?_zipWith]

/-- What holds of two lists place by place holds of them reordered. -/
theorem Covers.forall₂ {R : α → β → Prop} {m : List β} (h : p.Covers l.length) (hR : List.Forall₂ R l m) :
    List.Forall₂ R (p.apply l) (p.apply m) := by
  obtain ⟨hlength, hget⟩ := List.forall₂_iff_get.mp hR
  have hall : ∀ axes : List Nat, (∀ a ∈ axes, a < l.length) →
      List.Forall₂ R (axes.filterMap (l[·]?)) (axes.filterMap (m[·]?)) := by
    intro axes hlt
    induction axes with
    | nil => exact .nil
    | cons a axes ih =>
      have ha := hlt a List.mem_cons_self
      rw [List.filterMap_cons_some (List.getElem?_eq_getElem ha),
        List.filterMap_cons_some (List.getElem?_eq_getElem (hlength ▸ ha))]
      exact .cons (hget a ha (hlength ▸ ha)) (ih fun b hb => hlt b (List.mem_cons_of_mem a hb))
  exact hall p.axes fun a ha => h.mem_iff.mp ha

end Permutation

/-! ### Arrays -/

theorem inBounds_iff_forall₂ : ∀ {shape index : List Nat},
    InBounds shape index ↔ List.Forall₂ (fun n i => i < n) shape index
  | [], [] => ⟨fun _ => .nil, fun _ => trivial⟩
  | [], _ :: _ => ⟨False.elim, nofun⟩
  | _ :: _, [] => ⟨False.elim, nofun⟩
  | _ :: _, _ :: _ => by rw [InBounds, List.forall₂_cons, inBounds_iff_forall₂]

theorem InBounds.apply {p : Permutation} {shape index : List Nat} (h : p.Covers shape.length)
    (hi : InBounds shape index) : InBounds (p.apply shape) (p.apply index) :=
  inBounds_iff_forall₂.mpr (h.forall₂ (inBounds_iff_forall₂.mp hi))

namespace Grid

open Permutation

variable {α : Type} {p : Permutation} {shape index : List Nat} {g : Grid α}

theorem unpermuted_eq (h : p.Covers index.length) : unpermuted p.axes index = p.inverse.apply index := by
  unfold unpermuted
  rw [h.inverse.apply_eq 0, h.inverse_axes, h.length, List.map_map]
  rfl

theorem shape_permute [Inhabited α] (h : p.Covers g.axes) : (g.permute p.axes).shape = p.apply g.shape :=
  (h.apply_eq 0).symm

section
variable [Inhabited α]

/-- The element at a position is brought to the reordered position. -/
theorem get_permute (h : p.Covers g.axes) (hi : InBounds g.shape index) :
    (g.permute p.axes).get (p.apply index) = g.get index := by
  have hindex : p.Covers index.length := hi.length ▸ h
  have hin := hi.apply h
  rw [← shape_permute h] at hin
  refine (get_ofFn hin).trans ?_
  rw [unpermuted_eq (hindex.length_apply.symm ▸ hindex), hindex.inverse_apply]

theorem permute_inverse (h : p.Covers g.axes) : (g.permute p.axes).permute p.inverse.axes = g := by
  have hshape := shape_permute h
  have haxes : (g.permute p.axes).axes = g.axes := by
    unfold axes
    rw [hshape, h.length_apply]
  have hinverse : p.inverse.Covers (g.permute p.axes).axes := haxes.symm ▸ h.inverse
  have hback : ((g.permute p.axes).permute p.inverse.axes).shape = g.shape := by
    rw [shape_permute hinverse, hshape, h.inverse_apply]
  rw [← ofFn_get ((g.permute p.axes).permute p.inverse.axes), hback]
  refine (ofFn_congr fun index hi => ?_).trans (ofFn_get g)
  have hindex : p.Covers index.length := hi.length ▸ h
  have hin := hi.apply h
  rw [← hshape] at hin
  rw [← hindex.inverse_apply, get_permute hinverse hin, get_permute h (hindex.inverse_apply.symm ▸ hi),
    hindex.inverse_apply]

end

end Grid

/-! ### Signatures -/

namespace Signature

variable {s t : Signature} {target : List String} {p : Permutation}

/-- The axes of an array of some shape, whose lengths may not all be known. -/
def Describes (s : Signature) (shape : List Nat) : Prop := List.Forall₂ (fun d n => ∀ m ∈ d.length, m = n) s shape

theorem covers_of_permutationTo (h : s.permutationTo target = some p) : p.Covers s.length := by
  obtain ⟨haxes, hperm⟩ := permutationTo_eq_some h
  have hself : s.names.map s.names.idxOf = List.range s.length := by
    have hn : s.names.Nodup := hperm.nodup_iff.mp (permutationTo_nodup h)
    refine List.ext_getElem (by simp [names]) fun i hi _ => ?_
    rw [List.length_map] at hi
    rw [List.getElem_map, hn.idxOf_getElem i hi, List.getElem_range]
  unfold Permutation.Covers
  rw [haxes, ← hself]
  exact hperm.map _

theorem positionsOf_isSome : ∀ {names : List String} {taken : List Nat}, names ⊆ s.names → names.Nodup →
    (∀ x ∈ names, s.names.idxOf x ∉ taken) → (positionsOf s taken names).isSome = true
  | [], _, _, _, _ => rfl
  | name :: names, taken, hsub, hn, htaken => by
    obtain ⟨hmem, hsub⟩ := List.cons_subset.mp hsub
    obtain ⟨hnot, hn⟩ := List.nodup_cons.mp hn
    have hfree : ¬taken.contains (s.names.idxOf name) = true := by
      rw [List.contains_iff_mem]
      exact htaken name List.mem_cons_self
    have hrest : ∀ x ∈ names, s.names.idxOf x ∉ s.names.idxOf name :: taken := by
      intro x hx hin
      rcases List.mem_cons.mp hin with heq | hin
      · exact hnot ((List.idxOf_inj (hsub hx)).mp heq ▸ hx)
      · exact htaken x (List.mem_cons_of_mem name hx) hin
    obtain ⟨axes, haxes⟩ := Option.isSome_iff_exists.mp (positionsOf_isSome hsub hn hrest)
    rw [positionsOf, position_of_mem hmem]
    show (if _ then none else _).isSome = true
    rw [if_neg hfree, haxes]
    rfl

/-- The axes can be brought into the order of some names exactly if these are theirs. -/
theorem permutationTo_isSome_iff (hn : s.names.Nodup) :
    (s.permutationTo target).isSome = true ↔ target.Perm s.names := by
  constructor
  · intro h
    obtain ⟨p, hp⟩ := Option.isSome_iff_exists.mp h
    exact (permutationTo_eq_some hp).2
  · intro hperm
    have hlength : target.length = s.length := hperm.length_eq.trans (List.length_map _)
    unfold permutationTo
    rw [if_pos hlength, Option.isSome_map]
    exact positionsOf_isSome hperm.subset (hperm.nodup_iff.mpr hn) fun _ _ => List.not_mem_nil

theorem isCompatible_iff (hn : s.names.Nodup) : s.isCompatible t = true ↔ t.names.Perm s.names :=
  permutationTo_isSome_iff hn

/-- What a reordering of the axes into the order of some names does to the signature, to all signatures with as many
    axes, and to the arrays that have these axes. -/
structure Reorders (s : Signature) (target : List String) (p : Permutation) : Prop where
  covers : p.axes.Perm (List.range s.length)
  names : names (p.apply s) = target
  lengths : (p.apply s).Perm s
  inverse_apply : ∀ r : Signature, r.length = s.length → p.inverse.apply (p.apply r) = r
  apply_inverse : ∀ r : Signature, r.length = s.length → p.apply (p.inverse.apply r) = r
  shape : ∀ {α : Type} [Inhabited α] (g : Grid α), s.Describes g.shape → Describes (p.apply s) (g.permute p.axes).shape
  elements : ∀ {α : Type} [Inhabited α] (g : Grid α), s.Describes g.shape →
    ∀ index, InBounds g.shape index → (g.permute p.axes).get (p.apply index) = g.get index
  undone : ∀ {α : Type} [Inhabited α] (g : Grid α), s.Describes g.shape → (g.permute p.axes).permute p.inverse.axes = g

theorem reorders_of_permutationTo (h : s.permutationTo target = some p) : s.Reorders target p := by
  have hc := covers_of_permutationTo h
  have hgrid : ∀ {α : Type} {g : Grid α}, s.Describes g.shape → p.Covers g.axes := by
    intro α g hg
    unfold Grid.axes
    rwa [← hg.length_eq]
  exact {
    covers := hc
    names := (perm_apply h).1
    lengths := hc.apply_perm
    inverse_apply := fun r hr => Permutation.Covers.inverse_apply (hr ▸ hc)
    apply_inverse := fun r hr => Permutation.Covers.apply_inverse (hr ▸ hc)
    shape := fun g hg => Grid.shape_permute (hgrid hg) ▸ hc.forall₂ hg
    elements := fun g hg index hi => Grid.get_permute (hgrid hg) hi
    undone := fun g hg => Grid.permute_inverse (hgrid hg) }

/-- Reordering to some names is faithful wherever it is possible, which for axes of different names it is exactly if
    these are their names. Of such signatures, to be a reordering of another is an equivalence. -/
theorem permutationTo_faithful (s : Signature) (target : List String) :
    (∀ p, s.permutationTo target = some p → s.Reorders target p) ∧
      (s.names.Nodup → ((s.permutationTo target).isSome = true ↔ target.Perm s.names)) ∧
      Equivalence fun a b : { s : Signature // s.names.Nodup } => a.1.isCompatible b.1 = true := by
  refine ⟨fun p h => reorders_of_permutationTo h, permutationTo_isSome_iff,
    ⟨fun a => ?_, fun {a b} h => ?_, fun {a b c} h h' => ?_⟩⟩
  · exact (isCompatible_iff a.2).mpr (.refl _)
  · exact (isCompatible_iff b.2).mpr ((isCompatible_iff a.2).mp h).symm
  · exact (isCompatible_iff a.2).mpr (((isCompatible_iff b.2).mp h').trans ((isCompatible_iff a.2).mp h))

theorem permutationTo_faithful_globe :
    permutationTo [⟨"time", some 4⟩, ⟨"lat", none⟩, ⟨"lon", some 2⟩] ["lon", "time", "lat"] = some ⟨[2, 0, 1]⟩ ∧
      Reorders [⟨"time", some 4⟩, ⟨"lat", none⟩, ⟨"lon", some 2⟩] ["lon", "time", "lat"] ⟨[2, 0, 1]⟩ := by
  have h : permutationTo [⟨"time", some 4⟩, ⟨"lat", none⟩, ⟨"lon", some 2⟩] ["lon", "time", "lat"] =
      some ⟨[2, 0, 1]⟩ := by
    decide
  exact ⟨h, (permutationTo_faithful _ _).1 _ h⟩

end Signature
end Concord
