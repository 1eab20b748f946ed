import Concord.Proofs.Grid.Place
import Mathlib.Data.List.GetD
import Mathlib.Data.List.InsertIdx

/-! Arrays cut along an axis, and joined again. Some arrays join to an array if and only if they are the pieces that
    it is cut into, one behind the other along the axis. -/

namespace Concord

-- Sums start at the built-in zero, also where the algebra of numbers is known.
attribute [local instance (10000)] Zero.ofOfNat0

variable {shape index : List Nat} {axis n i : Nat}

/-- A position stays within a shape if its coordinate and the length of one axis change together. -/
theorem InBounds.set (h : InBounds shape index) (hi : i < n) : InBounds (shape.set axis n) (index.set axis i) := by
  obtain ⟨hlen, hall⟩ := inBounds_iff.mp h
  refine inBounds_iff.mpr ⟨by rw [List.length_set, List.length_set, hlen], fun a ha hb => ?_⟩
  rw [List.length_set] at ha hb
  rw [List.getElem_set, List.getElem_set]
  split
  · exact hi
  · exact hall a ha hb

theorem InBounds.getD_lt (h : InBounds shape index) (haxis : axis < shape.length) :
    index.getD axis 0 < shape.getD axis 0 := by
  obtain ⟨hlen, hall⟩ := inBounds_iff.mp h
  rw [List.getD_eq_getElem _ _ haxis, List.getD_eq_getElem _ _ (hlen ▸ haxis)]
  exact hall axis (hlen ▸ haxis) haxis

section
variable {l : List Nat}

theorem set_getD (l : List Nat) (i : Nat) : l.set i (l.getD i 0) = l := by
  by_cases hi : i < l.length
  · rw [List.getD_eq_getElem _ _ hi, List.set_getElem_self]
  · exact List.set_eq_of_length_le (Nat.le_of_not_lt hi)

theorem getD_set_self (hi : i < l.length) : (l.set i n).getD i 0 = n := by
  rw [List.getD_eq_getElem _ _ (by rwa [List.length_set]), List.getElem_set_self]

theorem modify_eq_set_getD (f : Nat → Nat) (hi : i < l.length) : l.modify i f = l.set i (f (l.getD i 0)) := by
  rw [List.modify_eq_set, List.getElem?_eq_getElem hi, List.getD_eq_getElem _ _ hi]
  rfl

/-- Lists that are the same but for one place are the same if they are so in that place too. -/
theorem set_eq_of_eraseIdx {l' : List Nat} (hi : i < l.length) (hlen : l'.length = l.length)
    (h : l'.eraseIdx i = l.eraseIdx i) : l'.set i (l.getD i 0) = l := by
  rw [← List.insertIdx_eraseIdx_self (by omega), h, List.insertIdx_eraseIdx_self (by omega), set_getD]

end

namespace Grid

variable {α : Type} [Inhabited α] {g p first : Grid α} {gs done : List (Grid α)} {ns : List Nat} {start : Nat}

/-! ### Pieces -/

/-- The pieces of an array along an axis, of given lengths, from a start on. -/
def pieces (g : Grid α) (axis : Nat) : Nat → List Nat → List (Grid α)
  | _, [] => []
  | start, n :: ns => g.slice axis start n :: g.pieces axis (start + n) ns

omit [Inhabited α] in
theorem length_eq_getD (g : Grid α) (axis : Nat) : g.length axis = g.shape.getD axis 0 := rfl

theorem shape_slice (g : Grid α) (axis start n : Nat) : (g.slice axis start n).shape = g.shape.set axis n := rfl

/-- The elements of a piece. -/
theorem get_slice (haxis : axis < g.axes) (h : InBounds (g.shape.set axis n) index) :
    (g.slice axis start n).get index = g.get (index.set axis (start + index.getD axis 0)) := by
  have hlen : axis < index.length := by rw [h.length, List.length_set]; exact haxis
  rw [slice, get_ofFn h, modify_eq_set_getD _ hlen, Nat.add_comm]

theorem lengths_pieces (haxis : axis < g.axes) :
    ∀ (ns : List Nat) (start : Nat), (g.pieces axis start ns).map (fun p => p.length axis) = ns
  | [], _ => rfl
  | n :: ns, start => by
    rw [pieces, List.map_cons, lengths_pieces haxis ns, length_eq_getD, shape_slice, getD_set_self haxis]

theorem shape_of_mem_pieces (h : p ∈ g.pieces axis start ns) : ∃ n, p.shape = g.shape.set axis n := by
  induction ns generalizing start with
  | nil => cases h
  | cons n ns ih =>
    rcases List.mem_cons.mp h with rfl | h
    · exact ⟨n, rfl⟩
    · exact ih h

/-! ### From pieces to the array -/

theorem get_locate_pieces (haxis : axis < g.axes) (h : InBounds g.shape index) :
    ∀ {ns : List Nat} {start i : Nat}, i < ns.sum →
      let q := locate axis (g.pieces axis start ns) i
      q.1.get (index.set axis q.2) = g.get (index.set axis (start + i))
  | [], _, _, hi => absurd hi (Nat.not_lt_zero _)
  | n :: ns, start, i, hi => by
    rw [pieces, locate, length_eq_getD, shape_slice, getD_set_self haxis]
    split
    · rename_i hin
      dsimp only
      have hlen : axis < index.length := by rw [h.length]; exact haxis
      rw [get_slice haxis (h.set hin), getD_set_self hlen, List.set_set]
    · rename_i hout
      rw [List.sum_cons] at hi
      have hplace : start + n + (i - n) = start + i := by omega
      rw [← hplace]
      exact get_locate_pieces haxis h (show i - n < ns.sum by omega)

/-- The elements of some arrays joined along an axis. -/
def joined (axis : Nat) (gs : List (Grid α)) (index : List Nat) : α :=
  let q := locate axis gs (index.getD axis 0)
  q.1.get (index.set axis q.2)

/-- Arrays join if they have the axis, and are alike but for its length. -/
theorem concat_eq_ok : concat axis (first :: gs) = .ok g ↔
    axis < first.axes ∧ (∀ p ∈ gs, p.axes = first.axes ∧ p.shape.eraseIdx axis = first.shape.eraseIdx axis) ∧
      fits (first.shape.set axis ((first :: gs).map fun p => p.length axis).sum) = true ∧
      ofFn (first.shape.set axis ((first :: gs).map fun p => p.length axis).sum) (joined axis (first :: gs)) = g := by
  have hany : (gs.any fun p => p.axes ≠ first.axes ∨ p.shape.eraseIdx axis ≠ first.shape.eraseIdx axis) = true ↔
      ¬∀ p ∈ gs, p.axes = first.axes ∧ p.shape.eraseIdx axis = first.shape.eraseIdx axis := by
    simp only [List.any_eq_true, decide_eq_true_eq, not_forall, not_and_or, exists_prop]
  unfold concat
  dsimp only
  split
  · rename_i haxis
    exact ⟨fun h => (by cases h), fun h => absurd h.1 (Nat.not_lt_of_le haxis)⟩
  rename_i haxis
  split
  · rename_i hbad
    exact ⟨fun h => (by cases h), fun h => absurd h.2.1 (hany.mp hbad)⟩
  rename_i hgood
  split
  · rename_i hlarge
    refine ⟨fun h => (by cases h), fun h => ?_⟩
    rw [h.2.2.1] at hlarge
    cases hlarge
  · rename_i hfits
    have halike := Decidable.not_not.mp (mt hany.mpr hgood)
    exact ⟨fun h => ⟨Nat.lt_of_not_le haxis, halike, by simpa using hfits, Except.ok.inj h⟩,
      fun h => congrArg Except.ok h.2.2.2⟩

/-- The pieces of an array join to the array. -/
theorem concat_pieces (haxis : axis < g.axes) (hne : ns ≠ []) (hsum : ns.sum = g.length axis)
    (hfits : fits g.shape = true) : concat axis (g.pieces axis 0 ns) = .ok g := by
  obtain ⟨n, ns, rfl⟩ := List.exists_cons_of_ne_nil hne
  have hlen : ∀ m, (g.shape.set axis m).length = g.axes := fun m => List.length_set
  have hshape : (g.shape.set axis n).set axis ((g.pieces axis 0 (n :: ns)).map fun p => p.length axis).sum =
      g.shape := by
    rw [lengths_pieces haxis, List.set_set, hsum, length_eq_getD, set_getD]
  refine concat_eq_ok.mpr ⟨?_, fun p hp => ?_, ?_, ?_⟩
  · rwa [axes, shape_slice, hlen]
  · obtain ⟨m, hm⟩ := shape_of_mem_pieces hp
    rw [axes, axes, hm, shape_slice, hlen, hlen, List.eraseIdx_set_eq, List.eraseIdx_set_eq]
    exact ⟨rfl, rfl⟩
  · exact (congrArg fits hshape).trans hfits
  · refine (congrArg (ofFn · _) hshape).trans ((ofFn_congr fun index h => ?_).trans (ofFn_get g))
    have hlt : index.getD axis 0 < (n :: ns).sum := hsum ▸ h.getD_lt haxis
    refine (get_locate_pieces haxis h hlt).trans ?_
    rw [Nat.zero_add, set_getD]

/-! ### Pieces along a named axis -/

section
variable {names : List String} {lens : String → Nat} {f : Place → α} {d : String}

theorem pieces_tabulate (hn : names.Nodup) (hd : d ∈ names) (hf : Supported names f) :
    ∀ {ns : List Nat} {start : Nat}, start + ns.sum ≤ lens d →
      (tabulate lens names f).pieces (names.idxOf d) start ns = parts lens names d f start ns
  | [], _, _ => rfl
  | n :: ns, start, h => by
    rw [List.sum_cons, ← Nat.add_assoc] at h
    rw [pieces, parts, slice_tabulate hn hd hf (Nat.le_of_add_right_le h), pieces_tabulate hn hd hf h]

/-- Joining the parts of an array gives the array. -/
theorem concat_parts (hn : names.Nodup) (hd : d ∈ names) (hf : Supported names f) (hne : ns ≠ [])
    (hsum : ns.sum = lens d) (hfits : fits (names.map lens) = true) :
    concat (names.idxOf d) (parts lens names d f 0 ns) = .ok (tabulate lens names f) := by
  have haxis : names.idxOf d < (tabulate lens names f).axes := by
    rw [axes, shape_tabulate, List.length_map]
    exact List.idxOf_lt_length_of_mem hd
  rw [← pieces_tabulate hn hd hf (by omega)]
  exact concat_pieces haxis hne (hsum.trans (length_tabulate hd).symm) hfits

end

/-! ### From the array to pieces -/

omit [Inhabited α] in
theorem locate_append {todo : List (Grid α)} (hi : i < p.length axis) :
    locate axis (done ++ p :: todo) ((done.map fun q => q.length axis).sum + i) = (p, i) := by
  induction done with
  | nil => rw [List.nil_append, List.map_nil, List.sum_nil, Nat.zero_add, locate, if_pos hi]
  | cons q done ih =>
    rw [List.cons_append, List.map_cons, List.sum_cons, locate, if_neg (by omega), Nat.add_assoc,
      Nat.add_sub_cancel_left]
    exact ih

/-- Behind the arrays that are done comes the next one. -/
theorem slice_joined {todo : List (Grid α)} (haxis : axis < p.axes) (hlen : p.shape.length = shape.length)
    (herase : p.shape.eraseIdx axis = shape.eraseIdx axis)
    (htotal : shape.getD axis 0 = ((done ++ p :: todo).map fun q => q.length axis).sum) :
    (ofFn shape (joined axis (done ++ p :: todo))).slice axis (done.map fun q => q.length axis).sum (p.length axis) =
      p := by
  have hshape : shape.set axis (p.length axis) = p.shape := set_eq_of_eraseIdx haxis hlen.symm herase.symm
  rw [slice, shape_ofFn, hshape]
  refine (ofFn_congr fun index h => ?_).trans (ofFn_get p)
  have hindex : axis < index.length := by rw [h.length]; exact haxis
  have hi : index.getD axis 0 < p.length axis := h.getD_lt haxis
  have hplace : (done.map fun q => q.length axis).sum + index.getD axis 0 < shape.getD axis 0 := by
    rw [htotal, List.map_append, List.sum_append, List.map_cons, List.sum_cons]
    omega
  have hinside : InBounds shape (index.set axis ((done.map fun q => q.length axis).sum + index.getD axis 0)) := by
    have hset := @InBounds.set _ _ axis _ _ h hplace
    rwa [← hshape, List.set_set, set_getD] at hset
  rw [modify_eq_set_getD _ hindex, Nat.add_comm, get_ofFn hinside, joined, getD_set_self hindex, locate_append hi,
    List.set_set, set_getD]

/-- Arrays that join to an array are its pieces. -/
theorem pieces_of_concat (h : concat axis gs = .ok g) :
    axis < g.axes ∧ fits g.shape = true ∧ (gs.map fun p => p.length axis).sum = g.length axis ∧
      g.pieces axis 0 (gs.map fun p => p.length axis) = gs := by
  cases gs with
  | nil => cases h
  | cons first rest =>
    obtain ⟨haxis, halike, hfits, rfl⟩ := concat_eq_ok.mp h
    generalize hshape : first.shape.set axis ((first :: rest).map fun p => p.length axis).sum = shape at hfits ⊢
    have hlen : first.shape.length = shape.length := by rw [← hshape, List.length_set]
    have herase : first.shape.eraseIdx axis = shape.eraseIdx axis := by rw [← hshape, List.eraseIdx_set_eq]
    have htotal : shape.getD axis 0 = ((first :: rest).map fun p => p.length axis).sum := by
      rw [← hshape, getD_set_self haxis]
    have hall : ∀ p ∈ first :: rest, p.shape.length = shape.length ∧ p.shape.eraseIdx axis = shape.eraseIdx axis := by
      intro p hp
      rcases List.mem_cons.mp hp with rfl | hp
      · exact ⟨hlen, herase⟩
      · exact (halike p hp).imp (·.trans hlen) (·.trans herase)
    -- The pieces behind those done are the arrays that are left.
    have hrest : ∀ (todo done : List (Grid α)), first :: rest = done ++ todo →
        (ofFn shape (joined axis (first :: rest))).pieces axis (done.map fun p => p.length axis).sum
          (todo.map fun p => p.length axis) = todo := by
      intro todo
      induction todo with
      | nil => exact fun _ _ => rfl
      | cons p todo ih =>
        intro done hsplit
        obtain ⟨hplen, hperase⟩ := hall p (hsplit ▸ List.mem_append_right _ List.mem_cons_self)
        have hnext := ih (done ++ [p]) (by rw [hsplit, List.append_assoc]; rfl)
        rw [List.map_append, List.sum_append, List.map_singleton, List.sum_singleton] at hnext
        have hpaxis : axis < p.axes := by rw [axes, hplen, ← hlen]; exact haxis
        rw [List.map_cons, pieces, hnext, hsplit, slice_joined hpaxis hplen hperase (hsplit ▸ htotal)]
    exact ⟨by rw [axes, shape_ofFn, ← hlen]; exact haxis, hfits, htotal.symm, hrest _ [] rfl⟩

end Grid
end Concord
