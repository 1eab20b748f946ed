import Mathlib
import Concord.Function.Kernel
import Concord.Proofs.Grid.Reordered
import Concord.Proofs.Outcome

/-! Functions of two elements on arrays as they lie in memory. Where the elements lie in order, the memory is the list
    of the elements that are seen, and going through it in blocks, with what is left at the end, is going through it
    element by element. So it does not matter how two arrays lie. -/

namespace Concord

/-! ### What is seen -/

/-- Without a place there is no element. -/
theorem volume_eq_zero : ∀ {shape : List Nat}, 0 ∈ shape → volume shape = 0
  | n :: ns, h => by
    rcases List.mem_cons.mp h with rfl | h
    · exact Nat.zero_mul _
    · rw [volume_cons, volume_eq_zero h, Nat.mul_zero]

namespace View

variable {α : Type}

/-- The strides of axes in order lead to the number of the element. -/
theorem distance_eq_offset : ∀ {shape index : List Nat} {strides : List Int}, strides.length = shape.length →
    rowMajor shape strides = true → InBounds shape index → distance strides index = offset shape index
  | [], [], [], _, _, _ => rfl
  | n :: ns, i :: is, s :: ss, hlength, hrow, hi => by
    rw [rowMajor, Bool.and_eq_true, Bool.or_eq_true, beq_iff_eq, beq_iff_eq] at hrow
    have hrest := distance_eq_offset (Nat.succ.inj hlength) hrow.2 hi.2
    rw [distance, offset, hrest, Int.natCast_add, Int.natCast_mul]
    rcases hrow.1 with hone | hstep
    · have hzero : i = 0 := by
        have := hi.1
        omega
      rw [hzero, Int.natCast_zero, Int.mul_zero, Int.zero_mul]
    · rw [hstep, Int.mul_comm]
  | [], _ :: _, _, _, _, hi => hi.elim
  | _ :: _, [], _, _, _, hi => hi.elim

section
variable {v : View α} {k : Nat}

/-- Elements that lie in order lie at their numbers behind the first one. -/
theorem address_standard (h : v.isStandard = true) (hk : k < volume v.shape) :
    v.start + distance v.strides (coordinates v.shape k) = (v.start + k : Nat) := by
  rcases (Bool.or_eq_true _ _).mp h with hnone | hrow
  · rw [volume_eq_zero (List.contains_iff_mem.mp hnone)] at hk
    exact absurd hk (Nat.not_lt_zero k)
  · rw [distance_eq_offset v.length_eq hrow (coordinates_inBounds hk), offset_coordinates hk, Int.natCast_add]

theorem lt_size_of_standard (h : v.isStandard = true) (hk : k < volume v.shape) : v.start + k < v.memory.size := by
  have hinside := (v.inside k hk).2
  rw [address_standard h hk] at hinside
  exact Int.ofNat_lt.mp hinside

end

variable [Inhabited α] {v : View α} {xs : List α}

theorem length_toGrid (v : View α) : v.toGrid.data.toList.length = volume v.shape := by
  rw [Array.length_toList]
  exact v.toGrid.size_eq

/-- The elements that lie in order are those that are seen. -/
theorem slice?_eq_some (h : v.slice? = some xs) : xs = v.toGrid.data.toList := by
  unfold slice? at h
  split at h
  · rename_i hstandard
    cases h
    refine List.ext_getElem ?_ fun k hk hk' => ?_
    · rw [length_toGrid, Array.length_toList, Array.size_extract]
      rcases Nat.eq_zero_or_pos (volume v.shape) with hzero | hpos
      · omega
      · have hlast := lt_size_of_standard hstandard (Nat.sub_lt hpos Nat.one_pos)
        omega
    · rw [length_toGrid] at hk'
      have hlt := lt_size_of_standard hstandard hk'
      have hget : v.toGrid.data.toList[k] = v.get (coordinates v.shape k) := by
        simp [toGrid, Grid.ofFn]
      rw [hget, get, address_standard hstandard hk', Int.toNat_natCast, Array.getD, dif_pos hlt]
      simp
  · cases h

/-! ### Reordered arrays -/

theorem distance_eq_sum : ∀ (strides : List Int) (index : List Nat),
    distance strides index = ((strides.zip index).map fun x => x.1 * (x.2 : Int)).sum
  | [], _ => rfl
  | _ :: _, [] => rfl
  | s :: ss, i :: is => by rw [distance, distance_eq_sum ss is, List.zip_cons_cons, List.map_cons, List.sum_cons]

/-- With its axes and strides reordered alike, an element lies where it lay. -/
theorem distance_apply {p : Permutation} {strides : List Int} {index : List Nat} (h : p.Covers strides.length)
    (hlength : strides.length = index.length) :
    distance (p.apply strides) (p.apply index) = distance strides index := by
  have hzip : p.Covers (strides.zip index).length := by
    rwa [List.length_zip, ← hlength, Nat.min_self]
  rw [distance_eq_sum, distance_eq_sum, h.apply_zip hlength]
  exact (hzip.apply_perm.map _).sum_eq

theorem rowMajor_rowStrides : ∀ shape : List Nat, rowMajor shape (rowStrides shape) = true
  | [] => rfl
  | n :: ns => by
    rw [rowStrides, rowMajor, rowMajor_rowStrides ns, beq_self_eq_true, Bool.or_true, Bool.and_self]

theorem length_rowStrides : ∀ shape : List Nat, (rowStrides shape).length = shape.length
  | [] => rfl
  | _ :: ns => congrArg (· + 1) (length_rowStrides ns)

theorem fits_apply {p : Permutation} {shape : List Nat} (h : p.Covers shape.length) (hfits : Grid.fits shape = true) :
    Grid.fits (p.apply shape) = true := by
  have hvolume : volume ((p.apply shape).filter (· ≠ 0)) = volume (shape.filter (· ≠ 0)) :=
    (h.apply_perm.filter _).foldr_eq _
  unfold Grid.fits at hfits ⊢
  rwa [hvolume]

/-- A reordered array is seen in the memory of the array that is reordered. -/
theorem exists_permuted {p : Permutation} {g : Grid α} (h : p.Covers g.shape.length)
    (hfits : Grid.fits g.shape = true) :
    ∃ v, of? g.data 0 (p.apply g.shape) (p.apply (rowStrides g.shape)) = some v ∧ v.toGrid = g.permute p.axes := by
  have hstrides : p.Covers (rowStrides g.shape).length := (length_rowStrides g.shape).symm ▸ h
  have hshape : (g.permute p.axes).shape = p.apply g.shape := Grid.shape_permute h
  -- a position of the reordered array comes from the position that the inverse gives
  have hplace : ∀ {index}, InBounds (p.apply g.shape) index → InBounds g.shape (p.inverse.apply index) ∧
      distance (p.apply (rowStrides g.shape)) index = offset g.shape (p.inverse.apply index) := by
    intro index hi
    have hlength : index.length = g.shape.length := hi.length.trans h.length_apply
    have hin := hi.apply (h.length_apply.symm ▸ h.inverse)
    rw [h.inverse_apply] at hin
    refine ⟨hin, ?_⟩
    rw [← distance_eq_offset (length_rowStrides g.shape) (rowMajor_rowStrides g.shape) hin,
      ← distance_apply hstrides ((length_rowStrides g.shape).trans hin.length.symm),
      Permutation.Covers.apply_inverse (hlength.symm ▸ h)]
  have hinside : ∀ k < volume (p.apply g.shape),
      0 ≤ ((0 : Nat) : Int) + distance (p.apply (rowStrides g.shape)) (coordinates (p.apply g.shape) k) ∧
        ((0 : Nat) : Int) + distance (p.apply (rowStrides g.shape)) (coordinates (p.apply g.shape) k) <
          g.data.size := by
    intro k hk
    obtain ⟨hin, hdistance⟩ := hplace (coordinates_inBounds hk)
    have hlt := offset_lt hin
    rw [hdistance, g.size_eq]
    omega
  have hlength : (p.apply (rowStrides g.shape)).length = (p.apply g.shape).length := by
    rw [hstrides.length_apply, length_rowStrides, h.length_apply]
  refine ⟨_, dif_pos ⟨hlength, hinside, fits_apply h hfits⟩, ?_⟩
  refine (Grid.ofFn_congr fun index hi => ?_).trans (hshape ▸ Grid.ofFn_get (g.permute p.axes))
  obtain ⟨hin, hdistance⟩ := hplace hi
  have hindex : p.Covers (p.inverse.apply index).length := hin.length.symm ▸ h
  have helement := Grid.get_permute (p := p) h hin
  rw [Permutation.Covers.apply_inverse ((hi.length.trans h.length_apply).symm ▸ h)] at helement
  rw [helement]
  show g.data.getD (((0 : Nat) : Int) + distance (p.apply (rowStrides g.shape)) index).toNat default = _
  rw [hdistance, Int.natCast_zero, Int.zero_add, Int.toNat_natCast]
  rfl

end View

/-! ### Blocks -/

namespace Elementwise

variable {f : Double → Double → Double} {onBlocks : Block → Block → Block}

/-- Blocks and what is left are the elements in order. -/
theorem blockwise_eq_zipWith (hblocks : ∀ a b, onBlocks a b = a.zipWith f b) : ∀ {xs ys : List Double},
    xs.length = ys.length → blockwise f onBlocks xs ys = xs.zipWith f ys
  | x₁ :: x₂ :: x₃ :: x₄ :: xs, y₁ :: y₂ :: y₃ :: y₄ :: ys, h => by
    have hlength : xs.length = ys.length := by simpa using h
    have hrest := blockwise_eq_zipWith hblocks hlength
    unfold blockwise at hrest ⊢
    dsimp only at hrest ⊢
    simp only [Block.cut, List.zipWith_cons_cons, List.flatMap_cons, hrest, hblocks, Block.zipWith, Block.toList,
      List.cons_append, List.nil_append]
  | [], [], _ => rfl
  | [_], [_], _ => rfl
  | [_, _], [_, _], _ => rfl
  | [_, _, _], [_, _, _], _ => rfl

theorem ofList_zipWith {a b : View Double} {xs ys : List Double} (ha : a.slice? = some xs) (hb : b.slice? = some ys)
    (h : a.toGrid.shape = b.toGrid.shape) :
    Grid.ofList a.shape (xs.zipWith f ys) = .ok (a.toGrid.zipWith f b.toGrid h) := by
  rw [View.slice?_eq_some ha, View.slice?_eq_some hb]
  have hlength : (a.toGrid.data.toList.zipWith f b.toGrid.data.toList).length = volume a.shape := by
    rw [← Array.toList_zipWith, Array.length_toList]
    exact (a.toGrid.zipWith f b.toGrid h).size_eq
  unfold Grid.ofList
  rw [a.fits, dif_pos hlength]
  refine congrArg Except.ok (Grid.ext_data rfl ?_)
  show (a.toGrid.data.toList.zipWith f b.toGrid.data.toList).toArray = a.toGrid.data.zipWith f b.toGrid.data
  rw [← Array.toList_zipWith]

theorem zipWith_toGrid {a b : View Double} (h : a.toGrid.shape = b.toGrid.shape) :
    a.toGrid.zipWith f b.toGrid h = Grid.ofFn a.shape fun index => f (a.get index) (b.get index) := by
  have hb : b.toGrid = Grid.ofFn a.shape b.get := by
    unfold View.toGrid
    rw [show b.shape = a.shape from h.symm]
  simp only [hb]
  exact Grid.zipWith_ofFn f a.shape a.get b.get rfl

/-- Where two arrays lie does not matter to a function of their elements. -/
theorem applyViews_eq (hblocks : ∀ a b, onBlocks a b = a.zipWith f b) (a b : View Double) :
    applyViews f onBlocks a b = a.toGrid.zip? f b.toGrid := by
  unfold applyViews Grid.zip?
  by_cases hshape : a.shape = b.shape
  · have h : a.toGrid.shape = b.toGrid.shape := hshape
    rw [dif_pos h, if_neg (not_not_intro hshape)]
    split
    · rename_i xs ys ha hb
      have hlength : xs.length = ys.length := by
        rw [View.slice?_eq_some ha, View.slice?_eq_some hb, View.length_toGrid, View.length_toGrid]
        exact congrArg volume h
      rw [blockwise_eq_zipWith hblocks hlength, ofList_zipWith ha hb h]
      rfl
    · rw [zipWith_toGrid h]
  · have h : ¬a.toGrid.shape = b.toGrid.shape := hshape
    rw [dif_neg h, if_pos hshape]
    rfl

/-- A sum, difference, product or quotient of two arrays of one shape has at each position that of the two elements
    there, wherever the arrays lie and whether they are taken in blocks or not; arrays of different shapes are refused.
    So the arrays as they are seen are all that counts. -/
theorem applyViews_pointwise {e : Elementwise} {op : Double → Double → Double} (he : e.binary? = some op)
    {onBlocks : Block → Block → Block} (hblocks : ∀ x y, onBlocks x y = x.zipWith op y) (options : CallOptions)
    (a b : View Double) :
    (a.shape = b.shape → ∃ g, applyViews op onBlocks a b = .ok g ∧ g.shape = a.shape ∧
      ∀ index, InBounds a.shape index → g.get index = op (a.get index) (b.get index)) ∧
    (a.shape ≠ b.shape → ∃ message, applyViews op onBlocks a b = .error message) ∧
    e.apply options [a.toGrid, b.toGrid] = applyViews op onBlocks a b := by
  rw [applyViews_eq hblocks]
  refine ⟨fun h => ⟨a.toGrid.zipWith op b.toGrid h, dif_pos h, rfl, fun index hi => ?_⟩, fun h => ⟨_, dif_neg h⟩, ?_⟩
  · rw [zipWith_toGrid h, Grid.get_ofFn hi]
  · unfold apply
    rw [he]
    rfl

/-- What three months at two stations differ from the normals of the stations. The months of a station lie side by side,
    and the normals are repeated for every month. -/
theorem applyViews_pointwise_stations :
    ∃ months normals : View Double, months.memory = #[11, 12, 13, 21, 22, 23] ∧ months.strides = [1, 3] ∧
      normals.memory = #[10, 20] ∧ normals.strides = [0, 1] ∧
      ∃ g, applyViews (· - ·) (Block.zipWith (· - ·)) months normals = .ok g ∧ g.shape = [3, 2] ∧
        g.get [2, 1] = 23 - 20 := by
  obtain ⟨g, hg, hshape, helements⟩ := (applyViews_pointwise (e := .sub) rfl (fun _ _ => rfl) []
    ⟨#[11, 12, 13, 21, 22, 23], 0, [3, 2], [1, 3], rfl, by decide, by decide⟩
    ⟨#[10, 20], 0, [3, 2], [0, 1], rfl, by decide, by decide⟩).1 rfl
  refine ⟨_, _, rfl, rfl, rfl, rfl, g, hg, hshape, ?_⟩
  rw [helements [2, 1] ⟨by decide, by decide, trivial⟩]
  rfl

end Elementwise
end Concord
