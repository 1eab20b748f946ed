import Mathlib.Data.Fintype.EquivFin
import Concord.Proofs.Evaluate.Prepared
import Concord.Proofs.Evaluate.Window
import Concord.Proofs.Grid.Joining

/-! Reductions and scans over the pieces of an array, one behind the other. Neither sees where a piece ends: what is
    known after a piece is what is known after as many lanes of the whole array. Arrays do not name their axes, so some
    names are given to them, and what holds of parts along named axes holds of the pieces. -/

namespace Concord

-- Sums start at the built-in zero, also where the algebra of numbers is known.
attribute [local instance (10000)] Zero.ofOfNat0

open Grid Whole Signature Window

/-! ### Runs over arrays -/

/-- A reduction fed with some arrays, one after the other. -/
def Accumulator.feedAll (a : Accumulator) (axis : Nat) (gs : List (Grid Double)) : Accumulator :=
  gs.foldl (fun a g => a.feed g axis) a

/-- The outputs of a scan for some arrays, one after the other. -/
def ScanState.stepAll (s : ScanState) (axis : Nat) : List (Grid Double) → List (Grid Double)
  | [] => []
  | g :: gs => (s.step g axis).1 :: (s.step g axis).2.stepAll axis gs

/-- The elements along an axis, at a position on the other ones. -/
def Grid.along (g : Grid Double) (axis : Nat) (index : List Nat) : List Double :=
  (List.range (g.length axis)).map fun i => g.get (index.insertIdx axis i)

/-! ### Named axes -/

section
variable {s : Signature} {d : String} {v : Field}

theorem parts_cons (start n : Nat) (ns : List Nat) : parts s.lens s.names d v start (n :: ns) =
    part (some ⟨d, start, n⟩) s v :: parts s.lens s.names d v (start + n) ns := rfl

/-- A reduction that has seen the lanes in front of some parts has then seen those of the parts too. -/
theorem feedAll_parts (r : Reduction) (hs : s.Known) (hd : d ∈ s.names) (hv : Supported s.names v) :
    ∀ {ns : List Nat} {start : Nat},
      (seenTo r s v d start).feedAll (s.names.idxOf d) (parts s.lens s.names d v start ns) =
        seenTo r s v d (start + ns.sum)
  | [], _ => rfl
  | n :: ns, start => by
    rw [List.sum_cons, ← Nat.add_assoc, ← feedAll_parts r hs hd hv, ← feed_part r hs hd hv, parts_cons]
    rfl

/-- A scan that has gone over the lanes in front of some parts gives the parts of its result. -/
theorem stepAll_parts (c : Scan) (hs : s.Known) (hd : d ∈ s.names) (hv : Supported s.names v) :
    ∀ {ns : List Nat} {start : Nat},
      (scannedTo s v d start).stepAll (s.names.idxOf d) (parts s.lens s.names d v start ns) =
        parts s.lens s.names d (scanned c d v) start ns
  | [], _ => rfl
  | n :: ns, start => by
    rw [parts_cons, ScanState.stepAll, step_part c hs hd hv, stepAll_parts c hs hd hv, parts_cons]

theorem supported_scanned (c : Scan) (hd : d ∈ s.names) (hv : Supported s.names v) :
    Supported s.names (scanned c d v) := by
  intro p q hpq
  unfold scanned column
  rw [hpq d hd]
  refine congrArg c.ofColumn (List.map_congr_left fun i _ => hv _ _ fun x hx => ?_)
  by_cases hxd : x = d
  · rw [hxd, Place.at_self, Place.at_self]
  · rw [Place.at_of_ne hxd, Place.at_of_ne hxd, hpq x hx]

end

/-! ### Names for axes -/

/-- Every shape is that of some named axes. -/
theorem Signature.exists_of_shape (shape : List Nat) : ∃ s : Signature, s.Known ∧ shape = s.names.map s.lens := by
  obtain ⟨names, hcard⟩ := Infinite.exists_subset_card_eq String shape.length
  have hlength : names.toList.length = shape.length := (Finset.length_toList _).trans hcard
  let s : Signature := (names.toList.zip shape).map fun a => ⟨a.1, some a.2⟩
  have hnames : s.names = names.toList := by
    unfold s Signature.names
    rw [List.map_map]
    exact List.map_fst_zip (Nat.le_of_eq hlength)
  have hlengths : s.map (·.length) = shape.map some := by
    have hsnd : (names.toList.zip shape).map (·.2) = shape := List.map_snd_zip (Nat.le_of_eq hlength.symm)
    unfold s
    rw [List.map_map, ← congrArg (List.map some) hsnd, List.map_map]
    rfl
  have hknown : s.Known := by
    refine ⟨hnames ▸ names.nodup_toList, fun d hd => ?_⟩
    obtain ⟨a, -, rfl⟩ := List.mem_map.mp hd
    rfl
  exact ⟨s, hknown, shape_of_lengths hknown hlengths⟩

/-- Every array is one over named axes. -/
theorem exists_named {g : Grid Double} {axis : Nat} (haxis : axis < g.axes) :
    ∃ (s : Signature) (d : String) (v : Field), s.Known ∧ d ∈ s.names ∧ Supported s.names v ∧
      axis = s.names.idxOf d ∧ g = part none s v := by
  obtain ⟨s, hs, hshape⟩ := Signature.exists_of_shape g.shape
  have hlt : axis < s.names.length := by rwa [axes, hshape, List.length_map] at haxis
  exact ⟨s, s.names[axis], g.read s.names, hs, List.getElem_mem hlt, g.read_supported s.names,
    (hs.nodup.idxOf_getElem axis hlt).symm, (tabulate_read hs.nodup hshape).symm⟩

/-! ### Pieces -/

section
variable {s : Signature} {d : String} {v : Field} {ns : List Nat}

theorem pieces_part (hs : s.Known) (hd : d ∈ s.names) (hv : Supported s.names v) (hcut : ns.sum = s.lens d) :
    (part none s v).pieces (s.names.idxOf d) 0 ns = parts s.lens s.names d v 0 ns :=
  pieces_tabulate hs.nodup hd hv (Nat.le_of_eq ((Nat.zero_add _).trans hcut))

/-- The column at a place holds the elements along the axis. -/
theorem along_part (hs : s.Known) (hd : d ∈ s.names) (hv : Supported s.names v) {p : Place}
    (hp : ∀ x ∈ s.names.erase d, p x < s.lens x) :
    (part none s v).along (s.names.idxOf d) ((s.names.erase d).map p) = column v p d (s.lens d) := by
  unfold along column
  rw [part, length_tabulate hd]
  refine List.map_congr_left fun i hi => ?_
  rw [insertIdx_map_erase hs.nodup hd]
  refine get_tabulate hv fun x hx => ?_
  by_cases hxd : x = d
  · rw [hxd, Place.at_self]
    exact List.mem_range.mp hi
  · rw [Place.at_of_ne hxd]
    exact hp x (hs.nodup.mem_erase_iff.mpr ⟨hxd, hx⟩)

/-- A reduction of a whole array has seen it up to the end of the axis. -/
theorem finish_whole (r : Reduction) (hs : s.Known) (hd : d ∈ s.names) (hv : Supported s.names v) :
    ((Accumulator.start r).feed (part none s v) (s.names.idxOf d)).finish = (seenTo r s v d (s.lens d)).finish :=
  (reduce_part r hs hd hv fun _ h => by cases h).trans (finish_seenTo r hs hv _).symm

/-- Fed with the pieces of an array, a reduction gives what it gives for the array. -/
theorem finish_pieces (r : Reduction) (hs : s.Known) (hd : d ∈ s.names) (hv : Supported s.names v)
    (hcut : ns.sum = s.lens d) :
    ((Accumulator.start r).feedAll (s.names.idxOf d) ((part none s v).pieces (s.names.idxOf d) 0 ns)).finish =
      ((Accumulator.start r).feed (part none s v) (s.names.idxOf d)).finish := by
  rw [finish_whole r hs hd hv, pieces_part hs hd hv hcut, ← seenTo_zero, feedAll_parts r hs hd hv, Nat.zero_add, hcut]

/-- Gone over the pieces of an array, a scan gives the pieces of what it gives for the array. -/
theorem stepAll_pieces (c : Scan) (hs : s.Known) (hd : d ∈ s.names) (hv : Supported s.names v)
    (hcut : ns.sum = s.lens d) :
    (ScanState.start c).stepAll (s.names.idxOf d) ((part none s v).pieces (s.names.idxOf d) 0 ns) =
      (part none s (scanned c d v)).pieces (s.names.idxOf d) 0 ns := by
  have hstart : ScanState.start c = scannedTo s v d 0 := by cases c; rfl
  rw [pieces_part hs hd hv hcut, pieces_part hs hd (supported_scanned c hd hv) hcut, hstart,
    stepAll_parts c hs hd hv]

/-- A reduction fails for an empty axis only; else its value at a position is that of the elements along the axis. -/
theorem finish_part (r : Reduction) (hs : s.Known) (hd : d ∈ s.names) (hv : Supported s.names v) :
    ((Accumulator.start r).feed (part none s v) (s.names.idxOf d)).finish =
      if s.lens d = 0 then .error Accumulator.emptyMessage
      else .ok (ofFn ((part none s v).shape.eraseIdx (s.names.idxOf d))
        fun index => r.ofColumn ((part none s v).along (s.names.idxOf d) index)) := by
  rw [finish_whole r hs hd hv, finish_seenTo r hs hv]
  unfold reduced
  by_cases hzero : s.lens d = 0
  · rw [if_pos hzero, if_pos hzero]
  · rw [if_neg hzero, if_neg hzero]
    dsimp only
    rw [part_within (within_without hs), names_without hs]
    refine congrArg Except.ok (ofFn_eq_tabulate (hs.nodup.erase d) eraseIdx_map_idxOf fun p hp => ?_).symm
    rw [along_part hs hd hv hp]
    rfl

end

/-! ### Borders -/

/-- Reductions and scans do not see the borders at which an array is cut into pieces of given lengths along an axis. Fed
    with the pieces, a reduction gives what it gives for the array: an error for an empty axis, and else at each
    position its value for the elements along the axis in their order, which for sums, minima and maxima is their left
    fold. The outputs of a scan for the pieces are the pieces of its output for the array, and join to it if there are
    pieces to join and the array is small enough. -/
structure Seamless (g : Grid Double) (axis : Nat) (ns : List Nat) : Prop where
  reduced : ∀ r : Reduction, ((Accumulator.start r).feedAll axis (g.pieces axis 0 ns)).finish =
    ((Accumulator.start r).feed g axis).finish
  value : ∀ r : Reduction, ((Accumulator.start r).feed g axis).finish =
    if g.length axis = 0 then .error Accumulator.emptyMessage
    else .ok (ofFn (g.shape.eraseIdx axis) fun index => r.ofColumn (g.along axis index))
  scanned : ∀ c : Scan, (ScanState.start c).stepAll axis (g.pieces axis 0 ns) =
    ((ScanState.start c).step g axis).1.pieces axis 0 ns
  joined : ∀ c : Scan, ns ≠ [] → fits g.shape = true →
    concat axis ((ScanState.start c).stepAll axis (g.pieces axis 0 ns)) = .ok ((ScanState.start c).step g axis).1

/-- However an array is cut into pieces along an axis, reductions and scans do not see the borders. -/
theorem pieces_seamless {g : Grid Double} {axis : Nat} {ns : List Nat} (haxis : axis < g.axes)
    (hcut : ns.sum = g.length axis) : Seamless g axis ns := by
  obtain ⟨s, d, v, hs, hd, hv, rfl, rfl⟩ := exists_named haxis
  have hlength : (part none s v).length (s.names.idxOf d) = s.lens d := length_tabulate hd
  rw [hlength] at hcut
  have hscan (c : Scan) : ((ScanState.start c).step (part none s v) (s.names.idxOf d)).1 =
      part none s (scanned c d v) := scan_part c hs hd hv fun _ h => by cases h
  refine ⟨fun r => finish_pieces r hs hd hv hcut, fun r => ?_, fun c => ?_, fun c hne hfits => ?_⟩
  · rw [hlength]
    exact finish_part r hs hd hv
  · rw [hscan]
    exact stepAll_pieces c hs hd hv hcut
  · rw [hscan, stepAll_pieces c hs hd hv hcut]
    exact concat_pieces haxis hne (hcut.trans (length_tabulate hd).symm) hfits

/-- The levels of a tide at one station, for three hours. -/
def tide : Grid Double := ⟨[3, 1], #[3, 1, 2], rfl⟩

theorem pieces_seamless_tide :
    ((Accumulator.start .sum).feedAll 0 (tide.pieces 0 0 [1, 0, 2])).finish = .ok ⟨[1], #[6], rfl⟩ ∧
      concat 0 ((ScanState.start .cumulativeSum).stepAll 0 (tide.pieces 0 0 [1, 0, 2])) =
        .ok ((ScanState.start .cumulativeSum).step tide 0).1 := by
  have hseamless : Seamless tide 0 [1, 0, 2] := pieces_seamless (by decide) (by decide)
  refine ⟨?_, hseamless.joined .cumulativeSum (by decide) (by decide)⟩
  rw [hseamless.reduced, hseamless.value]
  rfl

end Concord
