import Mathlib.Data.List.InsertIdx
import Mathlib.Data.List.Nodup
import Mathlib.Data.List.Perm.Basic
import Concord.Proofs.Grid.Index

/-! Arrays over named axes. A place has a coordinate for each name; a function of places that looks at
    the names of the axes only is an array, and what is done to arrays is done to such functions. -/

namespace Concord

-- Sums start at the built-in zero, also where the algebra of numbers is known.
attribute [local instance (10000)] Zero.ofOfNat0

/-- A coordinate for each name of an axis. -/
abbrev Place := String → Nat

/-- The place that a position on named axes stands for. -/
def placeOf (names : List String) (index : List Nat) : Place := fun x => index.getD (names.idxOf x) 0

/-- The function looks at the coordinates of some names only. -/
def Supported {α : Type} (names : List String) (f : Place → α) : Prop :=
  ∀ p q : Place, (∀ x ∈ names, p x = q x) → f p = f q

/-- The place moved along an axis. -/
def Place.moved (p : Place) (d : String) (start : Nat) : Place := Function.update p d (p d + start)

/-- The place with another coordinate along an axis. -/
def Place.at (p : Place) (d : String) (i : Nat) : Place := Function.update p d i

section
variable {names : List String} {lens : String → Nat} {p : Place} {d x : String}

@[simp] theorem Place.at_self (i : Nat) : p.at d i d = i := Function.update_self ..

theorem Place.at_of_ne {i : Nat} (h : x ≠ d) : p.at d i x = p x := Function.update_of_ne h ..

@[simp] theorem Place.moved_self (start : Nat) : p.moved d start d = p d + start := Function.update_self ..

theorem Place.moved_of_ne {start : Nat} (h : x ≠ d) : p.moved d start x = p x :=
  Function.update_of_ne h ..

theorem placeOf_map (h : x ∈ names) : placeOf names (names.map p) x = p x := by
  have hlt := List.idxOf_lt_length_of_mem h
  unfold placeOf
  rw [List.getD_eq_getElem?_getD, List.getElem?_map, List.getElem?_eq_getElem hlt, List.getElem_idxOf hlt]
  rfl

theorem map_placeOf {index : List Nat} (hn : names.Nodup) (h : index.length = names.length) :
    names.map (placeOf names index) = index := by
  refine List.ext_getElem (by rw [List.length_map, h]) fun i hi hi' => ?_
  rw [List.length_map] at hi
  rw [List.getElem_map]
  unfold placeOf
  rw [hn.idxOf_getElem i hi, List.getD_eq_getElem?_getD, List.getElem?_eq_getElem hi']
  rfl

theorem inBounds_map : InBounds (names.map lens) (names.map p) ↔ ∀ x ∈ names, p x < lens x := by
  induction names with
  | nil => simp [InBounds]
  | cons a names ih => simp [InBounds, ih]

theorem Supported.mono {α : Type} {more : List String} {f : Place → α} (h : Supported names f)
    (hsub : names ⊆ more) : Supported more f := fun p q hpq => h p q fun x hx => hpq x (hsub hx)

end

namespace Grid

variable {α β γ : Type}

/-- The array of a function of places, over named axes of given lengths. -/
def tabulate (lens : String → Nat) (names : List String) (f : Place → α) : Grid α :=
  ofFn (names.map lens) fun index => f (placeOf names index)

@[simp] theorem shape_tabulate (lens : String → Nat) (names : List String) (f : Place → α) :
    (tabulate lens names f).shape = names.map lens := rfl

section
variable {names : List String} {lens lens' : String → Nat} {f f' : Place → α}

/-- An array whose elements are those of a function of places. -/
theorem ofFn_eq_tabulate {shape : List Nat} {F : List Nat → α} (hn : names.Nodup)
    (hs : shape = names.map lens) (h : ∀ p : Place, (∀ x ∈ names, p x < lens x) → F (names.map p) = f p) :
    ofFn shape F = tabulate lens names f := by
  subst hs
  refine ofFn_congr fun index hi => ?_
  have hlen : index.length = names.length := hi.length.trans (List.length_map _)
  have hmap := map_placeOf hn hlen
  have hin : InBounds (names.map lens) (names.map (placeOf names index)) := hmap.symm ▸ hi
  rw [← h _ (inBounds_map.mp hin), hmap]

theorem tabulate_congr (hl : ∀ x ∈ names, lens x = lens' x)
    (hf : ∀ p : Place, (∀ x ∈ names, p x < lens x) → f p = f' p) :
    tabulate lens names f = tabulate lens' names f' := by
  unfold tabulate
  rw [← List.map_congr_left hl]
  refine ofFn_congr fun index hi => hf _ fun x hx => ?_
  have hlt := List.idxOf_lt_length_of_mem hx
  obtain ⟨hlen, hall⟩ := inBounds_iff.mp hi
  rw [List.length_map] at hlen
  have := hall (names.idxOf x) (hlen ▸ hlt) (by rwa [List.length_map])
  rw [List.getElem_map, List.getElem_idxOf hlt] at this
  unfold placeOf
  rwa [List.getD_eq_getElem?_getD, List.getElem?_eq_getElem (hlen ▸ hlt), Option.getD_some]

theorem map_tabulate (g : α → β) : (tabulate lens names f).map g = tabulate lens names fun p => g (f p) :=
  map_ofFn ..

theorem zipWith_tabulate (op : α → β → γ) {g : Place → β}
    (h : (tabulate lens names f).shape = (tabulate lens names g).shape) :
    (tabulate lens names f).zipWith op (tabulate lens names g) h =
      tabulate lens names fun p => op (f p) (g p) := zipWith_ofFn ..

variable [Inhabited α]

theorem get_tabulate {p : Place} (hf : Supported names f) (h : ∀ x ∈ names, p x < lens x) :
    (tabulate lens names f).get (names.map p) = f p := by
  unfold tabulate
  rw [get_ofFn (inBounds_map.mpr h)]
  exact hf _ _ fun x hx => placeOf_map hx

/-- The element at a place. -/
def read (names : List String) (g : Grid α) : Place → α := fun p => g.get (names.map p)

theorem read_supported (names : List String) (g : Grid α) : Supported names (g.read names) :=
  fun _ _ h => congrArg g.get (List.map_congr_left h)

/-- Every array over named axes is that of its elements. -/
theorem tabulate_read {g : Grid α} (hn : names.Nodup) (hs : g.shape = names.map lens) :
    tabulate lens names (g.read names) = g := by
  refine Eq.trans (ofFn_eq_tabulate hn hs fun p _ => rfl).symm (ofFn_get g)

end

/-! ### Named axes in lists -/

section
variable {names : List String} {d : String} {p : Place}

theorem map_at (hn : names.Nodup) (hd : d ∈ names) (i : Nat) :
    names.map (p.at d i) = (names.map p).set (names.idxOf d) i := by
  unfold Place.at
  rw [hn.map_update, if_pos hd]

theorem getElem?_map_idxOf {q : String → Nat} (hd : d ∈ names) : (names.map q)[names.idxOf d]? = some (q d) := by
  have hlt := List.idxOf_lt_length_of_mem hd
  rw [List.getElem?_map, List.getElem?_eq_getElem hlt, List.getElem_idxOf hlt]
  rfl

theorem getD_map_idxOf {q : String → Nat} (hd : d ∈ names) : (names.map q).getD (names.idxOf d) 0 = q d := by
  rw [List.getD_eq_getElem?_getD, getElem?_map_idxOf hd]
  rfl

theorem map_moved (hn : names.Nodup) (hd : d ∈ names) (start : Nat) :
    names.map (p.moved d start) = (names.map p).modify (names.idxOf d) (· + start) := by
  rw [List.modify_eq_set, getElem?_map_idxOf hd]
  exact map_at hn hd (p d + start)

theorem insertIdx_map (hd : d ∈ names) (q : String → Nat) :
    ((names.erase d).map q).insertIdx (names.idxOf d) (q d) = names.map q := by
  have hlt := List.idxOf_lt_length_of_mem hd
  have h := List.insertIdx_eraseIdx_getElem hlt
  rw [List.getElem_idxOf hlt] at h
  rw [← List.map_insertIdx, List.erase_eq_eraseIdx_of_idxOf rfl, h]

theorem insertIdx_map_erase (hn : names.Nodup) (hd : d ∈ names) (i : Nat) :
    ((names.erase d).map p).insertIdx (names.idxOf d) i = names.map (p.at d i) := by
  have herase : (names.erase d).map p = (names.erase d).map (p.at d i) :=
    List.map_congr_left fun x hx => (Place.at_of_ne (hn.mem_erase_iff.mp hx).1).symm
  have h := insertIdx_map hd (p.at d i)
  rwa [Place.at_self, ← herase] at h

theorem eraseIdx_map_idxOf : (names.map p).eraseIdx (names.idxOf d) = (names.erase d).map p := by
  rw [List.eraseIdx_map, List.erase_eq_eraseIdx_of_idxOf rfl]

theorem Place.at_moved_comm {e : String} (h : e ≠ d) {i start : Nat} :
    (p.at d i).moved e start = (p.moved e start).at d i := by
  unfold Place.moved Place.at
  rw [Function.update_of_ne h, Function.update_comm h]

theorem Place.at_moved (i start : Nat) : (p.at d i).moved d start = p.at d (i + start) := by
  unfold Place.moved
  rw [Place.at_self]
  exact Function.update_idem ..

end

/-! ### Axes of arrays -/

section
variable [Inhabited α] {names : List String} {lens : String → Nat} {f : Place → α} {d : String}

omit [Inhabited α] in
theorem length_tabulate (hd : d ∈ names) : (tabulate lens names f).length (names.idxOf d) = lens d :=
  getD_map_idxOf hd

/-- The part of an array along a named axis. -/
theorem slice_tabulate {start count : Nat} (hn : names.Nodup) (hd : d ∈ names)
    (hf : Supported names f) (h : start + count ≤ lens d) :
    (tabulate lens names f).slice (names.idxOf d) start count =
      tabulate (Function.update lens d count) names fun p => f (p.moved d start) := by
  refine ofFn_eq_tabulate hn ?_ fun p hp => ?_
  · rw [hn.map_update, if_pos hd]
    rfl
  · rw [← map_moved hn hd]
    refine get_tabulate hf fun x hx => ?_
    by_cases hxd : x = d
    · subst hxd
      have := hp x hx
      rw [Function.update_self] at this
      rw [Place.moved_self]
      omega
    · rw [Place.moved_of_ne hxd]
      simpa [Function.update_of_ne hxd] using hp x hx

/-- The array at one place of a named axis. -/
theorem lane_tabulate {i : Nat} (hn : names.Nodup) (hd : d ∈ names) (hf : Supported names f)
    (h : i < lens d) :
    (tabulate lens names f).lane (names.idxOf d) i =
      tabulate lens (names.erase d) fun p => f (p.at d i) := by
  refine ofFn_eq_tabulate (hn.erase d) ?_ fun p hp => ?_
  · rw [shape_tabulate, List.eraseIdx_map, List.erase_eq_eraseIdx_of_idxOf rfl]
  · rw [insertIdx_map_erase hn hd]
    refine get_tabulate hf fun x hx => ?_
    by_cases hxd : x = d
    · rwa [hxd, Place.at_self]
    · rw [Place.at_of_ne hxd]
      exact hp x (hn.mem_erase_iff.mpr ⟨hxd, hx⟩)

theorem lanes_tabulate (hn : names.Nodup) (hd : d ∈ names) (hf : Supported names f) :
    (tabulate lens names f).lanes (names.idxOf d) =
      (List.range (lens d)).map fun i => tabulate lens (names.erase d) fun p => f (p.at d i) := by
  unfold lanes
  rw [length_tabulate hd]
  exact List.map_congr_left fun i hi => lane_tabulate hn hd hf (List.mem_range.mp hi)

/-- Arrays along a new axis. -/
theorem stack_tabulate {n : Nat} {F : Nat → Place → α} (hn : names.Nodup) (hd : d ∈ names)
    (hF : ∀ i, Supported (names.erase d) (F i)) :
    stack (names.idxOf d) ((names.erase d).map lens)
        ((List.range n).map fun i => tabulate lens (names.erase d) (F i)) =
      tabulate (Function.update lens d n) names fun p => F (p d) p := by
  unfold stack
  refine ofFn_eq_tabulate hn ?_ fun p hp => ?_
  · rw [List.length_map, List.length_range]
    exact insertIdx_map_erase (p := lens) hn hd n
  · have hpd : p d < n := by simpa using hp d hd
    rw [getD_map_idxOf hd, eraseIdx_map_idxOf]
    have hget : ((List.range n).map fun i => tabulate lens (names.erase d) (F i)).toArray.getD (p d) default =
        tabulate lens (names.erase d) (F (p d)) := by
      simp [Array.getD, hpd]
    rw [hget]
    refine get_tabulate (hF _) fun x hx => ?_
    obtain ⟨hxd, hx⟩ := hn.mem_erase_iff.mp hx
    simpa [Function.update_of_ne hxd] using hp x hx

omit [Inhabited α] in
theorem idxOf_map_idxOf {names out : List String} {x : String} (hout : out ⊆ names) :
    (out.map names.idxOf).idxOf (names.idxOf x) = out.idxOf x := by
  induction out with
  | nil => rfl
  | cons y out ih =>
    rw [List.map_cons, List.idxOf_cons, List.idxOf_cons, ih fun z hz => hout (List.mem_cons_of_mem _ hz)]
    by_cases hxy : y = x
    · rw [hxy, beq_self_eq_true, beq_self_eq_true]
    · have hne : names.idxOf y ≠ names.idxOf x := fun h =>
        hxy ((List.idxOf_inj (hout List.mem_cons_self)).mp h)
      rw [beq_false_of_ne hxy, beq_false_of_ne hne]

/-- The array with its axes in another order. -/
theorem permute_tabulate {out : List String} (hn : names.Nodup) (hout : out.Perm names)
    (hf : Supported names f) :
    (tabulate lens names f).permute (out.map names.idxOf) = tabulate lens out f := by
  unfold permute
  refine ofFn_eq_tabulate (hout.nodup_iff.mpr hn) ?_ fun p hp => ?_
  · rw [List.map_map]
    exact List.map_congr_left fun x hx => length_tabulate (hout.subset hx)
  · have hindex : unpermuted (out.map names.idxOf) (out.map p) = names.map p := by
      unfold unpermuted
      refine List.ext_getElem ?_ fun i hi hi' => ?_
      · simp [hout.length_eq]
      · rw [List.length_map] at hi'
        have hx : names[i] ∈ out := hout.symm.subset (List.getElem_mem hi')
        rw [List.getElem_map, List.getElem_map, List.getElem_range]
        conv_lhs => rw [← hn.idxOf_getElem i hi']
        rw [idxOf_map_idxOf hout.subset, getD_map_idxOf hx]
    rw [hindex]
    exact get_tabulate hf fun x hx => hp x (hout.symm.subset hx)

/-- The array with a further named axis of length 1. -/
theorem insertAxis_tabulate {front rest : List String} {x : String} (hn : (front ++ x :: rest).Nodup) (hx : lens x = 1)
    (hf : Supported (front ++ rest) f) :
    (tabulate lens (front ++ rest) f).insertAxis front.length = tabulate lens (front ++ x :: rest) f := by
  have herase : (front ++ x :: rest).eraseIdx front.length = front ++ rest := by
    rw [List.eraseIdx_append_of_length_le (Nat.le_refl _), Nat.sub_self, List.eraseIdx_cons_zero]
  have hinsert : (front ++ rest).insertIdx front.length x = front ++ x :: rest := by
    rw [← herase, List.insertIdx_eraseIdx_self (by simp), List.set_append_right _ _ (Nat.le_refl _), Nat.sub_self,
      List.set_cons_zero]
  refine ofFn_eq_tabulate hn ?_ fun p hp => ?_
  · rw [shape_tabulate, ← hx, ← List.map_insertIdx, hinsert]
  · rw [List.eraseIdx_map, herase]
    refine get_tabulate hf fun y hy => hp y ?_
    rw [← herase] at hy
    exact List.mem_of_mem_eraseIdx hy

/-- The parts of an array of given lengths along an axis, from a start on. -/
def parts (lens : String → Nat) (names : List String) (d : String) (f : Place → α) :
    Nat → List Nat → List (Grid α)
  | _, [] => []
  | start, n :: ns =>
    tabulate (Function.update lens d n) names (fun p => f (p.moved d start)) ::
      parts lens names d f (start + n) ns

omit [Inhabited α] in
theorem eraseIdx_map_update (hn : names.Nodup) (n : Nat) :
    (names.map (Function.update lens d n)).eraseIdx (names.idxOf d) = (names.erase d).map lens := by
  rw [eraseIdx_map_idxOf]
  exact List.map_congr_left fun x hx => Function.update_of_ne (hn.mem_erase_iff.mp hx).1 ..

end

end Grid
end Concord
