import Concord.Proofs.Evaluate.Aligned
import Concord.Proofs.Evaluate.Whole

/-! Parts of arrays along an axis. What a function makes of parts is the part of what it makes of the
    whole, if it does not work along this axis; a reduction or scan along it goes on from part to part. -/

namespace Concord

open Grid Whole Signature

/-- The places of an axis from a start on. -/
structure Window where
  axis : String
  start : Nat
  count : Nat

namespace Window

variable {w : Option Window} {s t : Signature} {v : Field} {x d : String}

/-- The lengths of axes within a window, if there is one. -/
def lensIn (w : Option Window) (lens : String → Nat) : String → Nat :=
  match w with
  | none => lens
  | some w => Function.update lens w.axis w.count

/-- The elements within a window, by their places in it. -/
def fieldIn (w : Option Window) (v : Field) : Field :=
  match w with
  | none => v
  | some w => fun p => v (p.moved w.axis w.start)

/-- The part of an array within a window. -/
def part (w : Option Window) (s : Signature) (v : Field) : Grid Double :=
  tabulate (lensIn w s.lens) s.names (fieldIn w v)

/-- The window lies within the array. -/
def Inside (w : Option Window) (s : Signature) : Prop :=
  ∀ u ∈ w, u.axis ∈ s.names → u.start + u.count ≤ s.lens u.axis

/-! ### Lengths and elements -/

theorem lensIn_of_ne (h : ∀ u ∈ w, u.axis ≠ x) (lens : String → Nat) : lensIn w lens x = lens x := by
  cases w with
  | none => rfl
  | some u => exact Function.update_of_ne (h u rfl).symm ..

theorem lensIn_le (h : Inside w s) (hx : x ∈ s.names) : lensIn w s.lens x ≤ s.lens x := by
  cases w with
  | none => exact Nat.le_refl _
  | some u =>
    by_cases hu : u.axis = x
    · subst hu
      have := h u rfl hx
      rw [lensIn, Function.update_self]
      omega
    · exact Nat.le_of_eq (Function.update_of_ne (Ne.symm hu) ..)

theorem lensIn_within (h : t.Within s) (hx : x ∈ t.names) : lensIn w t.lens x = lensIn w s.lens x := by
  cases w with
  | none => exact h.lens x hx
  | some u =>
    show Function.update t.lens u.axis u.count x = Function.update s.lens u.axis u.count x
    rw [Function.update_apply, Function.update_apply, h.lens x hx]

theorem supported_fieldIn {names : List String} (h : Supported names v) : Supported names (fieldIn w v) := by
  cases w with
  | none => exact h
  | some u =>
    refine fun p q hpq => h _ _ fun x hx => ?_
    by_cases hu : x = u.axis
    · rw [hu, Place.moved_self, Place.moved_self, ← hu, hpq x hx]
    · rw [Place.moved_of_ne hu, Place.moved_of_ne hu, hpq x hx]

/-- A window along an axis that the array does not have leaves it whole. -/
theorem part_eq_whole (hv : Supported s.names v) (h : ∀ u ∈ w, u.axis ∉ s.names) : part w s v = part none s v := by
  cases w with
  | none => rfl
  | some u =>
    refine tabulate_congr (fun x hx => ?_) fun p _ => hv _ _ fun x hx => ?_
    · exact lensIn_of_ne (fun _ hu heq => h _ hu (heq ▸ hx)) _
    · exact Place.moved_of_ne fun heq => h u rfl (heq ▸ hx)

theorem part_within (h : t.Within s) : part w t v = tabulate (lensIn w s.lens) t.names (fieldIn w v) :=
  tabulate_congr (fun _ hx => lensIn_within h hx) fun _ _ => rfl

/-! ### Sizes -/

theorem volume_le {a b : String → Nat} : ∀ (names : List String), (∀ x ∈ names, a x ≤ b x) →
    volume ((names.map a).filter (· ≠ 0)) ≤ volume ((names.map b).filter (· ≠ 0))
  | [], _ => Nat.le_refl _
  | x :: names, h => by
    have hx := h x List.mem_cons_self
    have ih := volume_le names fun y hy => h y (List.mem_cons_of_mem _ hy)
    rw [List.map_cons, List.map_cons, List.filter_cons, List.filter_cons]
    by_cases ha : a x = 0
    · rw [if_neg (by simpa using ha)]
      by_cases hb : b x = 0
      · rwa [if_neg (by simpa using hb)]
      · rw [if_pos (by simpa using hb), volume_cons]
        exact Nat.le_trans ih (Nat.le_mul_of_pos_left _ (Nat.pos_of_ne_zero hb))
    · have hb : b x ≠ 0 := fun hb => ha (Nat.le_zero.mp (hb ▸ hx))
      rw [if_pos (by simpa using ha), if_pos (by simpa using hb), volume_cons, volume_cons]
      exact Nat.mul_le_mul hx ih

/-- If an array is small enough, so are its parts. -/
theorem fits_part (h : Inside w s) (hfits : fits (s.names.map s.lens) = true) :
    fits (s.names.map (lensIn w s.lens)) = true := by
  unfold fits at hfits ⊢
  rw [decide_eq_true_iff] at hfits ⊢
  exact Nat.lt_of_le_of_lt (volume_le _ fun x hx => lensIn_le h hx) hfits

/-! ### Functions of single elements -/

theorem part_literal (x : Double) : part w [] (fun _ => x) = Grid.scalar x := by
  cases w <;> exact ext_data rfl rfl

theorem map_part (f : Double → Double) : (part w s v).map f = part w s fun p => f (v p) := by
  cases w <;> exact map_tabulate f

theorem permute_part {target : List String} {order : Permutation} (hs : s.Known)
    (horder : s.permutationTo target = some order) (hv : Supported s.names v) :
    (part w s v).permute order.axes = part w (order.apply s) v := by
  obtain ⟨haxes, hperm⟩ := permutationTo_eq_some horder
  obtain ⟨hnames, hsub⟩ := perm_apply horder
  rw [part_within (within_of_subset (known_apply hs horder) hs hsub), hnames, haxes]
  exact permute_tabulate hs.nodup hperm (supported_fieldIn hv)

/-- Parts brought to the axes of a result. -/
theorem alignAll_parts {out : Signature} (inputs : List (Signature × Field)) (hout : out.Known)
    (hnames : ∀ x ∈ out.names, ∃ i ∈ inputs, x ∈ i.1.names)
    (hin : ∀ i ∈ inputs, i.1.Known ∧ i.1.Within out ∧ Supported i.1.names i.2)
    (hw : Inside w out) (hfits : fits (out.names.map out.lens) = true) :
    Align.alignAll (inputs.map fun i => (i.1, part w i.1 i.2)) out =
      .ok (inputs.map fun i => part w out i.2) := by
  have hparts : (inputs.map fun i => (i.1, part w i.1 i.2)) =
      Align.operands (lensIn w out.lens) (inputs.map fun i => (i.1, fieldIn w i.2)) := by
    unfold Align.operands
    rw [List.map_map]
    refine List.map_congr_left fun i hi => ?_
    rw [part_within (hin i hi).2.1]
    rfl
  have hnames' : ∀ x ∈ out.names, ∃ i ∈ inputs.map fun i => (i.1, fieldIn w i.2), x ∈ i.1.names := by
    intro x hx
    obtain ⟨i, hi, hx⟩ := hnames x hx
    exact ⟨_, List.mem_map_of_mem hi, hx⟩
  rw [hparts, Align.alignAll_operands hout.nodup hnames' ?_ (fits_part hw hfits), List.map_map]
  · rfl
  · intro i hi
    obtain ⟨j, hj, rfl⟩ := List.mem_map.mp hi
    obtain ⟨hk, hwithin, hv⟩ := hin j hj
    exact ⟨hk.nodup, hwithin.names, supported_fieldIn hv⟩

theorem zip_parts (f : Double → Double → Double) (a b : Field) :
    (part w s a).zip? f (part w s b) = .ok (part w s fun p => f (a p) (b p)) := by
  have hshape : (part w s a).shape = (part w s b).shape := rfl
  unfold zip?
  rw [dif_pos hshape]
  refine congrArg Except.ok ((zipWith_tabulate f hshape).trans ?_)
  cases w <;> rfl

/-! ### Lanes -/

/-- The lane at a place of an axis. -/
def laneAt (v : Field) (d : String) (i : Nat) : Field := fun p => v (p.at d i)

/-- The first lanes along an axis. -/
def lanesTo (v : Field) (d : String) (n : Nat) : List Field := (List.range n).map (laneAt v d)

theorem column_lanesTo (n : Nat) (p : Place) : (lanesTo v d n).map (fun l => l p) = column v p d n := by
  unfold lanesTo column
  rw [List.map_map]
  rfl

theorem supported_laneAt {names : List String} (hn : names.Nodup) (hv : Supported names v) (i : Nat) :
    Supported (names.erase d) (laneAt v d i) := by
  refine fun p q hpq => hv _ _ fun x hx => ?_
  by_cases hxd : x = d
  · rw [hxd, Place.at_self, Place.at_self]
  · rw [Place.at_of_ne hxd, Place.at_of_ne hxd]
    exact hpq x (hn.mem_erase_iff.mpr ⟨hxd, hx⟩)

theorem supported_lanesTo {names : List String} (hn : names.Nodup) (hv : Supported names v) {n : Nat}
    {l : Field} (hl : l ∈ lanesTo v d n) : Supported (names.erase d) l := by
  obtain ⟨i, -, rfl⟩ := List.mem_map.mp hl
  exact supported_laneAt hn hv i

theorem lanesTo_append (v : Field) (d : String) (m n : Nat) :
    lanesTo v d m ++ (List.range n).map (fun i => laneAt v d (m + i)) = lanesTo v d (m + n) := by
  unfold lanesTo
  rw [List.range_add, List.map_append, List.map_map]
  rfl

/-- The lanes of a part along the axis of the window. -/
theorem lanes_part {start count : Nat} (hs : s.Known) (hd : d ∈ s.names) (hv : Supported s.names v) :
    (part (some ⟨d, start, count⟩) s v).lanes (s.names.idxOf d) =
      ((List.range count).map fun i => laneAt v d (start + i)).map (tabulate s.lens (s.names.erase d)) := by
  have hlen : lensIn (some ⟨d, start, count⟩) s.lens d = count := Function.update_self ..
  unfold part
  rw [lanes_tabulate hs.nodup hd (supported_fieldIn hv), hlen, List.map_map]
  refine List.map_congr_left fun i _ => tabulate_congr (fun x hx => ?_) fun p _ => ?_
  · exact Function.update_of_ne (hs.nodup.mem_erase_iff.mp hx).1 ..
  · show v ((p.at d i).moved d start) = v (p.at d (start + i))
    rw [Grid.Place.at_moved, Nat.add_comm]

/-- The lanes of a part along another axis. -/
theorem lanes_part_of_ne (hs : s.Known) (hd : d ∈ s.names) (hv : Supported s.names v)
    (h : ∀ u ∈ w, u.axis ≠ d) :
    (part w s v).lanes (s.names.idxOf d) =
      (lanesTo (fieldIn w v) d (s.lens d)).map (tabulate (lensIn w s.lens) (s.names.erase d)) := by
  unfold part
  rw [lanes_tabulate hs.nodup hd (supported_fieldIn hv), lensIn_of_ne h, lanesTo, List.map_map]
  rfl

end Window
end Concord

/-! Reductions and scans on parts of an array. Along another axis than that of the window they work on a
    part as on a whole. Along its axis they go on where they stopped at the part before. -/

namespace Concord.Window

open Grid Whole Signature

variable {w : Option Window} {s : Signature} {v : Field} {d : String} {start count : Nat}

theorem lanesTo_eq_nil {n : Nat} : lanesTo v d n = [] ↔ n = 0 := by
  unfold lanesTo
  rw [List.map_eq_nil_iff, List.range_eq_nil]

/-! ### Reductions -/

/-- What a reduction has seen of an array after some places of its axis. -/
def seenTo (r : Reduction) (s : Signature) (v : Field) (d : String) (n : Nat) : Accumulator :=
  .seen r s.lens (s.names.erase d) (lanesTo v d n)

theorem seenTo_zero (r : Reduction) : seenTo r s v d 0 = .start r := Accumulator.seen_nil r

/-- Fed with the next part, a reduction has seen as much more. -/
theorem feed_part (r : Reduction) (hs : s.Known) (hd : d ∈ s.names) (hv : Supported s.names v) :
    (seenTo r s v d start).feed (part (some ⟨d, start, count⟩) s v) (s.names.idxOf d) =
      seenTo r s v d (start + count) := by
  unfold Accumulator.feed seenTo
  rw [lanes_part hs hd hv, Accumulator.foldl_push_seen, lanesTo_append]

theorem finish_seenTo (r : Reduction) (hs : s.Known) (hv : Supported s.names v) (n : Nat) :
    (seenTo r s v d n).finish =
      match reduced r d n v with
      | some u => .ok (part none (s.without d) u)
      | none => .error Accumulator.emptyMessage := by
  unfold seenTo reduced
  rw [Accumulator.finish_seen r (hs.nodup.erase d) fun l hl => supported_lanesTo hs.nodup hv hl]
  by_cases hn : n = 0
  · rw [if_pos (lanesTo_eq_nil.mpr hn), if_pos hn]
  · rw [if_neg fun h => hn (lanesTo_eq_nil.mp h), if_neg hn]
    dsimp only
    rw [part_within (within_without hs), names_without hs]
    exact congrArg (fun u => Except.ok (tabulate s.lens (s.names.erase d) u))
      (funext fun p => congrArg r.ofColumn (column_lanesTo n p))

theorem column_fieldIn (h : ∀ u ∈ w, u.axis ≠ d) (n : Nat) :
    (fun p => column (fieldIn w v) p d n) = fun p => match w with
      | none => column v p d n
      | some u => column v (p.moved u.axis u.start) d n := by
  cases w with
  | none => rfl
  | some u =>
    refine funext fun p => List.map_congr_left fun i _ => ?_
    exact congrArg v (Grid.Place.at_moved_comm (h u rfl))

/-- Along another axis a reduction makes of a part the part of its result. -/
theorem reduce_part (r : Reduction) (hs : s.Known) (hd : d ∈ s.names) (hv : Supported s.names v)
    (h : ∀ u ∈ w, u.axis ≠ d) :
    ((Accumulator.start r).feed (part w s v) (s.names.idxOf d)).finish =
      match reduced r d (s.lens d) v with
      | some u => .ok (part w (s.without d) u)
      | none => .error Accumulator.emptyMessage := by
  have hw := supported_fieldIn (w := w) hv
  have hstart : Accumulator.start r = .seen r (lensIn w s.lens) (s.names.erase d) [] :=
    (Accumulator.seen_nil r).symm
  unfold Accumulator.feed reduced
  rw [lanes_part_of_ne hs hd hv h, hstart, Accumulator.foldl_push_seen, List.nil_append,
    Accumulator.finish_seen r (hs.nodup.erase d) fun l hl => supported_lanesTo hs.nodup hw hl]
  by_cases hn : s.lens d = 0
  · rw [if_pos (lanesTo_eq_nil.mpr hn), if_pos hn]
  · rw [if_neg fun h => hn (lanesTo_eq_nil.mp h), if_neg hn]
    dsimp only
    rw [part_within (within_without hs), names_without hs]
    refine congrArg (fun u => Except.ok (tabulate _ (s.names.erase d) u)) (funext fun p => ?_)
    rw [column_lanesTo, congrFun (column_fieldIn h (s.lens d)) p]
    cases w <;> rfl

/-! ### Scans -/

/-- What a scan knows of an array after some places of its axis. -/
def scannedTo (s : Signature) (v : Field) (d : String) (n : Nat) : ScanState :=
  folded (· + ·) s.lens (s.names.erase d) (lanesTo v d n)

theorem scannedTo_zero : scannedTo s v d 0 = none := rfl

theorem take_lanes {i : Nat} (h : i < count) :
    ((List.range count).map fun i => laneAt v d (start + i)).take (i + 1) =
      (List.range (i + 1)).map fun i => laneAt v d (start + i) := by
  rw [← List.map_take, List.take_range, Nat.min_eq_left h]

/-- Given the next part, a scan gives its part of the result. -/
theorem step_part (c : Scan) (hs : s.Known) (hd : d ∈ s.names) (hv : Supported s.names v) :
    (scannedTo s v d start).step (part (some ⟨d, start, count⟩) s v) (s.names.idxOf d) =
      (part (some ⟨d, start, count⟩) s (scanned c d v), scannedTo s v d (start + count)) := by
  have hlen : lensIn (some ⟨d, start, count⟩) s.lens = Function.update s.lens d count := rfl
  have hshape : (part (some ⟨d, start, count⟩) s v).shape.eraseIdx (s.names.idxOf d) =
      (s.names.erase d).map s.lens := eraseIdx_map_update hs.nodup count
  unfold ScanState.step scannedTo
  rw [lanes_part hs hd hv, ScanState.overLanes_folded, lanesTo_append, hshape, List.length_map,
    List.length_range]
  dsimp only
  have hlanes : (List.range count).map (fun i => tabulate s.lens (s.names.erase d) fun p =>
      fold₁ (· + ·) ((lanesTo v d start ++
        ((List.range count).map fun i => laneAt v d (start + i)).take (i + 1)).map fun l => l p)) =
      (List.range count).map fun i => tabulate s.lens (s.names.erase d) fun p =>
        c.ofColumn (column v p d (start + i + 1)) := by
    refine List.map_congr_left fun i hi => congrArg _ (funext fun p => ?_)
    rw [take_lanes (List.mem_range.mp hi), lanesTo_append, column_lanesTo]
    cases c
    rfl
  rw [hlanes, stack_tabulate hs.nodup hd fun i => ?_]
  · refine congrArg (·, _) ?_
    unfold part
    rw [hlen]
    refine congrArg (tabulate _ s.names) (funext fun p => ?_)
    show _ = c.ofColumn (column v (p.moved d start) d (p.moved d start d + 1))
    rw [Place.moved_self, Nat.add_comm start]
    exact congrArg c.ofColumn (List.map_congr_left fun i _ => congrArg v (Function.update_idem ..).symm)
  · exact fun p q hpq => congrArg c.ofColumn (List.map_congr_left fun i _ =>
      supported_laneAt hs.nodup hv i p q hpq)

/-- Along another axis a scan makes of a part the part of its result. -/
theorem scan_part (c : Scan) (hs : s.Known) (hd : d ∈ s.names) (hv : Supported s.names v)
    (h : ∀ u ∈ w, u.axis ≠ d) :
    ((ScanState.start c).step (part w s v) (s.names.idxOf d)).1 = part w s (scanned c d v) := by
  have hw := supported_fieldIn (w := w) hv
  have hshape : (part w s v).shape.eraseIdx (s.names.idxOf d) = (s.names.erase d).map (lensIn w s.lens) :=
    eraseIdx_map_idxOf
  have hstart : ScanState.start c = folded (· + ·) (lensIn w s.lens) (s.names.erase d) [] := by cases c; rfl
  unfold ScanState.step
  rw [lanes_part_of_ne hs hd hv h, hstart, ScanState.overLanes_folded, hshape]
  dsimp only
  have hlanes : (List.range (lanesTo (fieldIn w v) d (s.lens d)).length).map (fun i =>
      tabulate (lensIn w s.lens) (s.names.erase d) fun p =>
        fold₁ (· + ·) (([] ++ (lanesTo (fieldIn w v) d (s.lens d)).take (i + 1)).map fun (l : Field) => l p)) =
      (List.range (s.lens d)).map fun i => tabulate (lensIn w s.lens) (s.names.erase d) fun p =>
        c.ofColumn (column (fieldIn w v) p d (i + 1)) := by
    rw [lanesTo, List.length_map, List.length_range]
    refine List.map_congr_left fun i hi => congrArg _ (funext fun p => ?_)
    rw [List.nil_append, ← List.map_take, List.take_range, Nat.min_eq_left (List.mem_range.mp hi),
      ← lanesTo, column_lanesTo]
    cases c
    rfl
  rw [hlanes, stack_tabulate hs.nodup hd fun i => ?_]
  · unfold part
    refine tabulate_congr (fun x _ => ?_) fun p _ => ?_
    · rw [← lensIn_of_ne h s.lens, Function.update_eq_self]
    · rw [congrFun (column_fieldIn h _) p]
      cases w with
      | none => rfl
      | some u =>
        show _ = c.ofColumn (column v (p.moved u.axis u.start) d (p.moved u.axis u.start d + 1))
        rw [Place.moved_of_ne (h u rfl).symm]
  · exact fun p q hpq => congrArg c.ofColumn (List.map_congr_left fun i _ =>
      supported_laneAt hs.nodup hw i p q hpq)

end Concord.Window
