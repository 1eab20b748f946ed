import Concord.Proofs.Resolve.Distinct

/-! The union of axes. It depends on the arrays only by the order in which names first occur and by the lengths that
    are known somewhere, so a part of the arrays may be joined first, and their order counts for the names' order
    only. It fails if, and only if, two of these lengths disagree. -/

namespace Concord

/-! ### First occurrences -/

section
variable {α : Type} [BEq α] [LawfulBEq α]

theorem eraseDups_filter (p : α → Bool) : ∀ l : List α, (l.filter p).eraseDups = l.eraseDups.filter p
  | [] => rfl
  | a :: l => by
    have ih := eraseDups_filter p (l.filter fun b => !b == a)
    rw [List.eraseDups_cons, List.filter_cons, List.filter_cons]
    split
    · rw [List.eraseDups_cons, List.filter_comm, ih]
    · rename_i ha
      rw [← ih, List.filter_filter]
      refine congrArg List.eraseDups (List.filter_congr fun b _ => ?_)
      by_cases hb : b = a
      · subst hb
        simp [ha]
      · simp [hb]
  termination_by l => l.length
  decreasing_by exact Nat.lt_succ_of_le (List.length_filter_le _ _)

theorem eraseDups_eraseDups : ∀ l : List α, l.eraseDups.eraseDups = l.eraseDups
  | [] => rfl
  | a :: l => by
    have ih := eraseDups_eraseDups (l.filter fun b => !b == a)
    rw [List.eraseDups_cons, List.eraseDups_cons, ← eraseDups_filter, List.filter_filter]
    simp only [Bool.and_self]
    rw [ih]
  termination_by l => l.length
  decreasing_by exact Nat.lt_succ_of_le (List.length_filter_le _ _)

/-- Repeats of a part may be left out first. -/
theorem eraseDups_append_part (front part back : List α) :
    (front ++ (part.eraseDups ++ back)).eraseDups = (front ++ (part ++ back)).eraseDups := by
  have hback : back.removeAll part.eraseDups = back.removeAll part :=
    List.filter_congr fun b _ => congrArg (!·) (by rw [Bool.eq_iff_iff]; simp [List.mem_eraseDups])
  have hpart : (part.eraseDups ++ back).eraseDups = (part ++ back).eraseDups := by
    rw [List.eraseDups_append, List.eraseDups_append, eraseDups_eraseDups, hback]
  rw [List.eraseDups_append, List.eraseDups_append, List.removeAll, List.removeAll, eraseDups_filter, eraseDups_filter,
    hpart]

end

namespace Typing

open Signature

variable {d : Dimension} {s t out : Signature} {all : List Dimension} {name : String} {n : Nat}

/-! ### Joining one axis -/

theorem joinLength_known {a b l : Option Nat} (h : joinLength name a b = .ok l) :
    l = some n ↔ a = some n ∨ b = some n := by
  unfold joinLength at h
  split at h
  · split at h
    · rename_i heq
      cases h
      rw [heq, or_self]
    · cases h
  · cases h
    simp
  · cases h
    simp

/-- Joining an axis adds its length to those that are known. -/
theorem mem_joinDimension : ∀ {s out : Signature}, joinDimension d s = .ok out →
    ((⟨name, some n⟩ : Dimension) ∈ out ↔ ⟨name, some n⟩ ∈ s ∨ d = ⟨name, some n⟩)
  | [], _, h => by
    cases h
    simp [eq_comm]
  | e :: rest, _, h => by
    unfold joinDimension at h
    split at h
    · rename_i hname
      obtain ⟨l, hl, rfl⟩ := map_eq_ok.mp h
      have hknown := joinLength_known (n := n) hl
      obtain ⟨x, a⟩ := e
      obtain ⟨y, b⟩ := d
      dsimp only at hname hknown ⊢
      subst hname
      simp only [List.mem_cons, Dimension.mk.injEq, eq_comm (a := some n), hknown, eq_comm (a := name)]
      tauto
    · obtain ⟨rest', hjoin, rfl⟩ := map_eq_ok.mp h
      rw [List.mem_cons, List.mem_cons, mem_joinDimension hjoin, or_assoc]

/-- Only lengths that disagree are refused. -/
theorem joinDimension_error {c : LengthClash} : ∀ {s : Signature}, joinDimension d s = .error c →
    c.found ≠ c.other ∧ (⟨c.name, some c.found⟩ : Dimension) ∈ s ∧ d = ⟨c.name, some c.other⟩
  | [], h => by cases h
  | e :: rest, h => by
    unfold joinDimension at h
    split at h
    · rename_i hname
      have hclash := map_eq_error.mp h
      obtain ⟨x, a⟩ := e
      obtain ⟨y, b⟩ := d
      dsimp only at hname hclash
      subst hname
      unfold joinLength at hclash
      split at hclash
      · split at hclash
        · cases hclash
        · rename_i hne
          cases hclash
          exact ⟨hne, List.mem_cons_self, rfl⟩
      · cases hclash
      · cases hclash
    · obtain ⟨hne, hmem, hd⟩ := joinDimension_error (map_eq_error.mp h)
      exact ⟨hne, List.mem_cons_of_mem _ hmem, hd⟩

/-! ### The union -/

/-- An axis is known with two lengths. -/
def Clashing (all : List Dimension) : Prop :=
  ∃ name a b, a ≠ b ∧ (⟨name, some a⟩ : Dimension) ∈ all ∧ (⟨name, some b⟩ : Dimension) ∈ all

/-- The axes are those of `all`: each name once, in the order in which they first occur, and with a length where it
    is known with that length. -/
structure Joined (all : List Dimension) (out : Signature) : Prop where
  names : out.names = (Signature.names all).eraseDups
  known : ∀ name n, (⟨name, some n⟩ : Dimension) ∈ out ↔ ⟨name, some n⟩ ∈ all

theorem Joined.join (h : Joined all s) (hjoin : joinDimension d s = .ok out) : Joined (all ++ [d]) out where
  names := by
    have hall : Signature.names (all ++ [d]) = Signature.names all ++ [d.name] := List.map_append ..
    rw [joinDimension_names hjoin, h.names, if_congr List.mem_eraseDups rfl rfl, hall, List.eraseDups_append]
    by_cases hd : d.name ∈ Signature.names all <;> simp [List.removeAll, hd, List.eraseDups_cons]
  known name n := by rw [mem_joinDimension hjoin, h.known, List.mem_append, List.mem_singleton, eq_comm (a := d)]

theorem union_cases (signatures : List Signature) :
    (∃ out, union signatures = .ok out ∧ Joined signatures.flatten out) ∨
      ∃ c, union signatures = .error c ∧ c.found ≠ c.other ∧
        (⟨c.name, some c.found⟩ : Dimension) ∈ signatures.flatten ∧ ⟨c.name, some c.other⟩ ∈ signatures.flatten := by
  -- By induction on the axes to come; those that are joined already are `all`, and `s` is their union.
  have hfold : ∀ (l : List Dimension) {all : List Dimension} {s : Signature}, Joined all s →
      (∃ out, l.foldlM (fun out d => joinDimension d out) s = .ok out ∧ Joined (all ++ l) out) ∨
        ∃ c, l.foldlM (fun out d => joinDimension d out) s = .error c ∧ c.found ≠ c.other ∧
          (⟨c.name, some c.found⟩ : Dimension) ∈ all ++ l ∧ ⟨c.name, some c.other⟩ ∈ all ++ l := by
    intro l
    induction l with
    | nil => exact fun h => .inl ⟨_, rfl, by rwa [List.append_nil]⟩
    | cons d l ih =>
      intro all s h
      rw [List.foldlM_cons]
      cases hjoin : joinDimension d s with
      | ok mid =>
        have hmid := ih (h.join hjoin)
        rwa [List.append_assoc] at hmid
      | error c =>
        obtain ⟨hne, hfound, hd⟩ := joinDimension_error hjoin
        exact .inr ⟨c, rfl, hne, List.mem_append_left _ ((h.known _ _).mp hfound),
          List.mem_append_right _ (hd ▸ List.mem_cons_self)⟩
  have hnone : Joined [] [] := ⟨rfl, fun _ _ => Iff.rfl⟩
  exact hfold signatures.flatten hnone

theorem union_joined {signatures : List Signature} (h : union signatures = .ok out) : Joined signatures.flatten out := by
  rcases union_cases signatures with ⟨out', hout, hjoined⟩ | ⟨c, hc, -⟩
  · cases h.symm.trans hout
    exact hjoined
  · cases h.symm.trans hc

theorem union_error {signatures : List Signature} {c : LengthClash} (h : union signatures = .error c) :
    c.found ≠ c.other ∧ (⟨c.name, some c.found⟩ : Dimension) ∈ signatures.flatten ∧
      (⟨c.name, some c.other⟩ : Dimension) ∈ signatures.flatten := by
  rcases union_cases signatures with ⟨out, hout, -⟩ | ⟨c', hc, hclash⟩
  · cases h.symm.trans hout
  · cases h.symm.trans hc
    exact hclash

/-- In a union an axis has one length, so none can be known with two. -/
theorem not_clashing_of_union {signatures : List Signature} (h : union signatures = .ok out) :
    ¬Clashing signatures.flatten := by
  rintro ⟨name, a, b, hne, ha, hb⟩
  have hknown := (union_joined h).known
  have heq := List.inj_on_of_nodup_map (union_nodup h) ((hknown name a).mpr ha) ((hknown name b).mpr hb) rfl
  exact hne (Option.some.inj (congrArg Dimension.length heq))

theorem union_fails_iff {signatures : List Signature} :
    (∃ c, union signatures = .error c) ↔ Clashing signatures.flatten := by
  constructor
  · rintro ⟨c, h⟩
    exact ⟨c.name, c.found, c.other, union_error h⟩
  · intro hclash
    cases h : union signatures with
    | ok out => exact absurd hclash (not_clashing_of_union h)
    | error c => exact ⟨c, rfl⟩

/-! ### What the union depends on -/

section
variable {signatures others : List Signature}

theorem Clashing.congr {all all' : List Dimension}
    (h : ∀ name n, (⟨name, some n⟩ : Dimension) ∈ all ↔ ⟨name, some n⟩ ∈ all') : Clashing all ↔ Clashing all' := by
  simp only [Clashing, h]

/-- Axes of different names are told by their names and by the lengths that are known. -/
theorem subset_of_known (hs : s.names.Nodup) (hnames : s.names ⊆ t.names)
    (hknown : ∀ name n, (⟨name, some n⟩ : Dimension) ∈ s ↔ ⟨name, some n⟩ ∈ t) : s ⊆ t := by
  intro d hd
  cases hlength : d.length with
  | some n =>
    have heq : d = ⟨d.name, some n⟩ := by rw [← hlength]
    exact heq ▸ (hknown d.name n).mp (heq ▸ hd)
  | none =>
    obtain ⟨e, he, hname⟩ := mem_names.mp (hnames (mem_names.mpr ⟨d, hd, rfl⟩))
    cases helength : e.length with
    | none =>
      have heq : d = e := by
        obtain ⟨_, _⟩ := d
        obtain ⟨_, _⟩ := e
        simp_all
      exact heq ▸ he
    | some n =>
      -- Then the axis would have this length among the first ones too.
      have heq : e = ⟨d.name, some n⟩ := by rw [← hname, ← helength]
      have hmem := (hknown d.name n).mpr (heq ▸ he)
      rw [List.inj_on_of_nodup_map hs hd hmem rfl] at hlength
      cases hlength

/-- Whether there is a union, and which lengths are known in it, is a matter of the known lengths. -/
theorem exists_union (hmem : ∀ name n, (⟨name, some n⟩ : Dimension) ∈ signatures.flatten ↔ ⟨name, some n⟩ ∈ others.flatten)
    (hs : union signatures = .ok s) :
    ∃ t, union others = .ok t ∧ ∀ name n, (⟨name, some n⟩ : Dimension) ∈ s ↔ ⟨name, some n⟩ ∈ t := by
  cases ht : union others with
  | error c =>
    have hclash := union_fails_iff.mp ⟨c, ht⟩
    exact absurd ((Clashing.congr hmem).mpr hclash) (not_clashing_of_union hs)
  | ok t => exact ⟨t, rfl, fun name n => by rw [(union_joined hs).known, (union_joined ht).known, hmem]⟩

theorem union_perm (h : signatures.Perm others) (hs : union signatures = .ok s) :
    ∃ t, union others = .ok t ∧ s.Perm t := by
  have hflat : signatures.flatten.Perm others.flatten := h.flatten
  obtain ⟨t, ht, hknown⟩ := exists_union (fun _ _ => hflat.mem_iff) hs
  have hnames : ∀ x, x ∈ s.names ↔ x ∈ t.names := fun x => by
    rw [(union_joined hs).names, (union_joined ht).names, List.mem_eraseDups, List.mem_eraseDups]
    exact (hflat.map _).mem_iff
  refine ⟨t, ht, (List.perm_ext_iff_of_nodup (union_nodup hs).of_map (union_nodup ht).of_map).mpr fun d => ?_⟩
  exact ⟨fun hd => subset_of_known (union_nodup hs) (fun x hx => (hnames x).mp hx) hknown hd,
    fun hd => subset_of_known (union_nodup ht) (fun x hx => (hnames x).mpr hx) (fun name n => (hknown name n).symm) hd⟩

/-- Arrays whose names first occur in the same order, with the same known lengths, have the same union. -/
theorem union_congr (hnames : (names signatures.flatten).eraseDups = (names others.flatten).eraseDups)
    (hmem : ∀ name n, (⟨name, some n⟩ : Dimension) ∈ signatures.flatten ↔ ⟨name, some n⟩ ∈ others.flatten) :
    (union signatures).toOption = (union others).toOption := by
  cases hs : union signatures with
  | error c =>
    obtain ⟨c', hc'⟩ := union_fails_iff.mpr ((Clashing.congr hmem).mp (union_fails_iff.mp ⟨c, hs⟩))
    rw [hc']
    rfl
  | ok s =>
    obtain ⟨t, ht, hknown⟩ := exists_union hmem hs
    have hst : s.names = t.names := by rw [(union_joined hs).names, (union_joined ht).names, hnames]
    have hsub := subset_of_known (union_nodup hs) (fun _ hx => hst ▸ hx) hknown
    have hlength : s.length = t.length := by simpa [Signature.names] using congrArg List.length hst
    rw [ht]
    refine congrArg some (List.ext_getElem hlength fun i hi hi' => ?_)
    refine List.inj_on_of_nodup_map (union_nodup ht) (hsub (List.getElem_mem hi)) (List.getElem_mem hi') ?_
    simpa [Signature.names] using List.getElem_of_eq hst (by simpa [Signature.names] using hi)

/-- A part of the arrays may be joined first. -/
theorem union_part (front part back : List Signature) :
    ((union part).toOption.bind fun s => (union (front ++ s :: back)).toOption) =
      (union (front ++ (part ++ back))).toOption := by
  cases hpart : union part with
  | error c =>
    obtain ⟨hne, hfound, hother⟩ := union_error hpart
    have hclash : Clashing (front ++ (part ++ back)).flatten := by
      refine ⟨c.name, c.found, c.other, hne, ?_, ?_⟩ <;> simp only [List.flatten_append, List.mem_append]
      · exact .inr (.inl hfound)
      · exact .inr (.inl hother)
    obtain ⟨c', hc'⟩ := union_fails_iff.mpr hclash
    rw [hc']
    rfl
  | ok s =>
    have hjoined := union_joined hpart
    refine union_congr ?_ fun name n => ?_
    · have hnames := hjoined.names
      simp only [Signature.names, List.flatten_append, List.flatten_cons, List.map_append] at hnames ⊢
      rw [hnames, eraseDups_append_part]
    · simp only [List.flatten_append, List.flatten_cons, List.mem_append, hjoined.known]

end

/-! ### Axes of a call -/

section
variable {function : String} {options : CallOptions} {operands : List Operand}

theorem dims_broadcast_toOption :
    (dims .broadcast function operands options).toOption = (union (operands.map (·.dims))).toOption := by
  rw [dims]
  cases union (operands.map (·.dims)) <;> rfl

theorem dims_broadcast_error {e : Failure} (h : dims .broadcast function operands options = .error e) :
    ∃ c, union (operands.map (·.dims)) = .error c ∧ e = .incompatibleOperands function
      ("dimension '" ++ c.name ++ "' has lengths " ++ toString c.found ++ " and " ++ toString c.other) := by
  rw [dims] at h
  split at h
  · cases h
  · rename_i c hc
    exact ⟨c, hc, (Except.error.inj h).symm⟩

end

/-- All axes of some arrays. -/
def axesOf (operands : List Operand) : List Dimension := operands.flatMap (·.dims)

theorem axesOf_eq (operands : List Operand) : axesOf operands = (operands.map (·.dims)).flatten := List.flatMap_def ..

/-- The axes of a call of arrays of different axes. It fails if, and only if, an axis is known with two lengths, and the
    message tells these; else each name is there once, in the order in which they first occur, and with its length if
    that is known. Calls may be nested to either side, and the order of the arrays is seen in the order of the names
    only. -/
theorem broadcast_consistent (function : String) (options : CallOptions) :
    (∀ operands, (∃ e, dims .broadcast function operands options = .error e) ↔ Clashing (axesOf operands)) ∧
    (∀ operands e, dims .broadcast function operands options = .error e →
      ∃ name a b, a ≠ b ∧ (⟨name, some a⟩ : Dimension) ∈ axesOf operands ∧ ⟨name, some b⟩ ∈ axesOf operands ∧
        e = .incompatibleOperands function
          ("dimension '" ++ name ++ "' has lengths " ++ toString a ++ " and " ++ toString b)) ∧
    (∀ operands out, dims .broadcast function operands options = .ok out → Joined (axesOf operands) out) ∧
    (∀ a b c : Operand,
      ((dims .broadcast function [a, b] options).toOption.bind fun s =>
          (dims .broadcast function [{ a with dims := s }, c] options).toOption) =
        (dims .broadcast function [b, c] options).toOption.bind fun s =>
          (dims .broadcast function [a, { b with dims := s }] options).toOption) ∧
    ∀ operands operands', operands.Perm operands' → ∀ out, dims .broadcast function operands options = .ok out →
      ∃ out', dims .broadcast function operands' options = .ok out' ∧ out.Perm out' := by
  refine ⟨fun operands => ?_, fun operands e h => ?_, fun operands out h => ?_, fun a b c => ?_,
    fun operands operands' hperm out h => ?_⟩
  · rw [axesOf_eq, ← union_fails_iff]
    constructor
    · rintro ⟨e, h⟩
      obtain ⟨c, hc, -⟩ := dims_broadcast_error h
      exact ⟨c, hc⟩
    · rintro ⟨c, hc⟩
      cases h : dims .broadcast function operands options with
      | error e => exact ⟨e, rfl⟩
      | ok out => cases hc.symm.trans (dims_broadcast h)
  · obtain ⟨c, hc, rfl⟩ := dims_broadcast_error h
    obtain ⟨hne, hfound, hother⟩ := union_error hc
    exact ⟨c.name, c.found, c.other, hne, axesOf_eq operands ▸ hfound, axesOf_eq operands ▸ hother, rfl⟩
  · exact axesOf_eq operands ▸ union_joined (dims_broadcast h)
  · simp only [dims_broadcast_toOption, List.map_cons, List.map_nil]
    exact (union_part [] [a.dims, b.dims] [c.dims]).trans (union_part [a.dims] [b.dims, c.dims] []).symm
  · obtain ⟨out', hout', hp⟩ := union_perm (hperm.map _) (dims_broadcast h)
    refine ⟨out', toOption_eq_some.mp ?_, hp⟩
    rw [dims_broadcast_toOption, hout']
    rfl

/-- Temperatures whose number of steps is not known, in front of a mask that knows it and of steps that do not fit. -/
theorem broadcast_consistent_mask :
    let temperature : Operand := ⟨[⟨"time", none⟩, ⟨"lat", some 3⟩], "K", false⟩
    let mask : Operand := ⟨[⟨"lon", some 2⟩, ⟨"time", some 4⟩], "1", false⟩
    let steps : Operand := ⟨[⟨"time", some 5⟩], "s", false⟩
    dims .broadcast "*" [temperature, mask] [] = .ok [⟨"time", some 4⟩, ⟨"lat", some 3⟩, ⟨"lon", some 2⟩] ∧
    Joined (axesOf [temperature, mask]) [⟨"time", some 4⟩, ⟨"lat", some 3⟩, ⟨"lon", some 2⟩] ∧
    (∃ out, dims .broadcast "*" [mask, temperature] [] = .ok out ∧
      [⟨"time", some 4⟩, ⟨"lat", some 3⟩, ⟨"lon", some 2⟩].Perm out) ∧
    Clashing (axesOf [temperature, mask, steps]) := by
  obtain ⟨hfails, -, hjoined, -, hperm⟩ := broadcast_consistent "*" []
  have hpair : dims .broadcast "*" [⟨[⟨"time", none⟩, ⟨"lat", some 3⟩], "K", false⟩,
      ⟨[⟨"lon", some 2⟩, ⟨"time", some 4⟩], "1", false⟩] [] =
      .ok [⟨"time", some 4⟩, ⟨"lat", some 3⟩, ⟨"lon", some 2⟩] := by rfl
  exact ⟨hpair, hjoined _ _ hpair, hperm _ _ (.swap _ _ _) _ hpair, (hfails _).mp ⟨_, rfl⟩⟩

end Typing
end Concord
