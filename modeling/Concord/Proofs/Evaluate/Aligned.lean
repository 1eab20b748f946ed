import Concord.Evaluate.Align
import Concord.Function.Kernel
import Concord.Proofs.Grid.Place
import Concord.Proofs.Resolve.Axes

/-! Arrays brought to common axes. An array that is a function of places stays that function, over more
    axes, so functions of single elements work place by place. -/

namespace Concord.Align

open Signature Grid

variable {source out : Signature} {lens : String → Nat} {F : Place → Double}

/-! ### Axes that are there -/

theorem filterMap_position (source out : Signature) :
    out.filterMap (fun d => Signature.position source d.name) =
      (out.names.filter (· ∈ source.names)).map source.names.idxOf := by
  induction out with
  | nil => rfl
  | cons d out ih =>
    rw [List.filterMap_cons, ih, names_cons, List.filter_cons, position_eq]
    by_cases hd : d.name ∈ source.names
    · rw [if_pos hd, decide_eq_true hd]
      rfl
    · rw [if_neg hd, decide_eq_false hd]
      rfl

theorem perm_filter (hn : source.names.Nodup) (hout : out.names.Nodup) (hsub : source.names ⊆ out.names) :
    (out.names.filter (· ∈ source.names)).Perm source.names := by
  refine (List.perm_ext_iff_of_nodup (hout.filter _) hn).mpr fun x => ?_
  rw [List.mem_filter, decide_eq_true_iff]
  exact ⟨And.right, fun h => ⟨hsub h, h⟩⟩

/-! ### One array -/

/-- The axes of the array, the others of length 1. -/
def stretchable (source : Signature) (lens : String → Nat) (x : String) : Nat :=
  if x ∈ source.names then lens x else 1

/-- The axes that are missing are put in from the outermost one on. -/
theorem insertMissing_tabulate (hlens : ∀ x, x ∉ source.names → lens x = 1) (hF : Supported source.names F) :
    ∀ (out : Signature) (front : List String), (front ++ out.names).Nodup → source.names ⊆ front ++ out.names →
      insertMissing source front.length out (tabulate lens (front ++ out.names.filter (· ∈ source.names)) F) =
        tabulate lens (front ++ out.names) F
  | [], _, _, _ => rfl
  | d :: out, front, hn, hsub => by
    have hmoved : front ++ names (d :: out) = front ++ [d.name] ++ names out := by
      rw [List.append_assoc]
      rfl
    have hlength : (front ++ [d.name]).length = front.length + 1 := List.length_append
    have hrest := insertMissing_tabulate hlens hF out (front ++ [d.name]) (hmoved ▸ hn) (hmoved ▸ hsub)
    rw [hlength, ← hmoved, List.append_assoc, List.singleton_append] at hrest
    rw [insertMissing, ← hrest, names_cons]
    by_cases hd : d.name ∈ source.names
    · rw [if_pos (named_iff.mpr hd), List.filter_cons_of_pos (by simpa using hd)]
    · have hfilter : (front ++ d.name :: (names out).filter (· ∈ source.names)).Nodup :=
        hn.sublist ((List.filter_sublist.cons_cons _).append_left front)
      have hsupport : source.names ⊆ front ++ (names out).filter (· ∈ source.names) := by
        intro x hx
        rcases List.mem_append.mp (hsub hx) with hfront | hout
        · exact List.mem_append_left _ hfront
        · rcases List.mem_cons.mp hout with rfl | hout
          · exact absurd hx hd
          · exact List.mem_append_right _ (List.mem_filter.mpr ⟨hout, decide_eq_true hx⟩)
      rw [if_neg (mt named_iff.mp hd), List.filter_cons_of_neg (by simpa using hd),
        insertAxis_tabulate hfilter (hlens _ hd) (hF.mono hsupport)]

theorem arrange_tabulate (hn : source.names.Nodup) (hout : out.names.Nodup)
    (hsub : source.names ⊆ out.names) (hF : Supported source.names F) :
    arrange (tabulate lens source.names F) source out
        (out.filterMap fun d => Signature.position source d.name) =
      tabulate (stretchable source lens) out.names F := by
  have hlens : tabulate lens (out.names.filter (· ∈ source.names)) F =
      tabulate (stretchable source lens) ([] ++ out.names.filter (· ∈ source.names)) F :=
    tabulate_congr (fun x hx => (if_pos (of_decide_eq_true (List.mem_filter.mp hx).2)).symm) fun _ _ => rfl
  unfold arrange
  rw [filterMap_position, permute_tabulate hn (perm_filter hn hout hsub) hF, hlens]
  exact insertMissing_tabulate (fun x hx => if_neg hx) hF out [] hout hsub

theorem stretches_map : ∀ (names : List String) (a b : String → Nat),
    stretches (names.map a) (names.map b) = true ↔ ∀ x ∈ names, a x = b x ∨ a x = 1
  | [], _, _ => iff_of_true rfl (List.forall_mem_nil _)
  | x :: names, a, b => by
    rw [List.map_cons, List.map_cons, stretches, Bool.and_eq_true, stretches_map names a b, Bool.or_eq_true, beq_iff_eq,
      beq_iff_eq, List.forall_mem_cons]

theorem zipWith_map (names : List String) (p a : String → Nat) :
    (names.map p).zipWith (fun i n => if n = 1 then 0 else i) (names.map a) =
      names.map fun x => if a x = 1 then 0 else p x := by
  rw [List.zipWith_map, List.zipWith_self]

/-- The place with 0 along the axes of length 1. -/
def shrunk (lens : String → Nat) (p : Place) : Place := fun x => if lens x = 1 then 0 else p x

/-- An array is stretched along the axes that have length 1, and can be if it has the wanted lengths along the
    others. -/
theorem broadcast_stretched {names : List String} {a b : String → Nat} (hn : names.Nodup) (hF : Supported names F) :
    (tabulate a names F).broadcast? (names.map b) =
      if fits (names.map b) = true ∧ ∀ x ∈ names, a x = b x ∨ a x = 1 then
        some (tabulate b names fun p => F (shrunk a p))
      else none := by
  have hcondition : (fits (names.map b) && stretches (tabulate a names F).shape.reverse (names.map b).reverse) = true ↔
      fits (names.map b) = true ∧ ∀ x ∈ names, a x = b x ∨ a x = 1 := by
    rw [shape_tabulate, ← List.map_reverse, ← List.map_reverse, Bool.and_eq_true, stretches_map]
    simp only [List.mem_reverse]
  unfold broadcast?
  by_cases h : fits (names.map b) = true ∧ ∀ x ∈ names, a x = b x ∨ a x = 1
  · rw [if_pos h, if_pos (hcondition.mpr h)]
    refine congrArg some (ofFn_eq_tabulate hn rfl fun p hp => ?_)
    have hdrop : (names.map b).length - (tabulate a names F).axes = 0 := by
      rw [axes, shape_tabulate, List.length_map, List.length_map, Nat.sub_self]
    dsimp only
    rw [hdrop, List.drop_zero, shape_tabulate, zipWith_map]
    refine get_tabulate hF fun x hx => ?_
    have hlt := hp x hx
    rcases h.2 x hx with heq | hone
    · split <;> omega
    · rw [if_pos hone]
      omega
  · rw [if_neg h, if_neg (mt hcondition.mp h)]

/-- An array over some of the axes is brought to given lengths of all of them, if these are its own or it has length 1
    there. -/
theorem align_stretched {wanted : String → Nat} (hn : source.names.Nodup) (hout : out.names.Nodup)
    (hsub : source.names ⊆ out.names) (hF : Supported source.names F) (hfits : fits (out.names.map wanted) = true) :
    align (tabulate lens source.names F) source out (out.names.map wanted) =
      if ∀ x ∈ source.names, lens x = wanted x ∨ lens x = 1 then
        .ok (tabulate wanted out.names fun p => F (shrunk lens p))
      else .error (.stretch (out.names.map (stretchable source lens)) (out.names.map wanted)) := by
  have haxes : ¬(tabulate lens source.names F).axes ≠ source.length := by
    simp [axes, names]
  have horder : ¬(out.filterMap fun d => Signature.position source d.name).length ≠ source.length := by
    rw [filterMap_position, List.length_map, (perm_filter hn hout hsub).length_eq, names, List.length_map]
    exact fun h => h rfl
  have hown : ∀ {x}, x ∈ source.names → stretchable source lens x = lens x := fun hx => if_pos hx
  have hcondition : (∀ x ∈ out.names, stretchable source lens x = wanted x ∨ stretchable source lens x = 1) ↔
      ∀ x ∈ source.names, lens x = wanted x ∨ lens x = 1 := by
    refine ⟨fun h x hx => hown hx ▸ h x (hsub hx), fun h x _ => ?_⟩
    by_cases hx : x ∈ source.names
    · rw [hown hx]
      exact h x hx
    · exact .inr (if_neg hx)
  have hshrunk : ∀ p, F (shrunk (stretchable source lens) p) = F (shrunk lens p) := fun p =>
    hF _ _ fun x hx => by rw [shrunk, shrunk, hown hx]
  unfold align
  rw [if_neg haxes]
  dsimp only
  rw [if_neg horder, arrange_tabulate hn hout hsub hF, broadcast_stretched hout (hF.mono hsub), shape_tabulate]
  simp only [hfits, true_and, hcondition, hshrunk]
  by_cases hlens : ∀ x ∈ source.names, lens x = wanted x ∨ lens x = 1
  · rw [if_pos hlens, if_pos hlens]
    split
    · -- The lengths are those wanted: every place is kept.
      rename_i hsame
      refine congrArg Except.ok (tabulate_congr (List.map_inj_left.mp hsame) fun p hp => hF _ _ fun x hx => ?_)
      have hlt := hp x (hsub hx)
      rw [hown hx] at hlt
      unfold shrunk
      split <;> omega
    · rfl
  · have hdiffer : ¬out.names.map (stretchable source lens) = out.names.map wanted := fun hsame =>
      hlens (hcondition.mp fun x hx => .inl (List.map_inj_left.mp hsame x hx))
    rw [if_neg hdiffer, if_neg hlens, if_neg hlens]

/-- An array over some of the axes becomes the same function over all of them. -/
theorem align_tabulate (hn : source.names.Nodup) (hout : out.names.Nodup) (hsub : source.names ⊆ out.names)
    (hF : Supported source.names F) (hfits : fits (out.names.map lens) = true) :
    align (tabulate lens source.names F) source out (out.names.map lens) =
      .ok (tabulate lens out.names F) := by
  rw [align_stretched hn hout hsub hF hfits, if_pos fun _ _ => .inl rfl]
  refine congrArg Except.ok (tabulate_congr (fun _ _ => rfl) fun p hp => hF _ _ fun x hx => ?_)
  have hlt := hp x (hsub hx)
  unfold shrunk
  split <;> omega

/-! ### All arrays -/

/-- The arrays of some functions over the axes that each has. -/
def operands (lens : String → Nat) (inputs : List (Signature × (Place → Double))) :
    List (Signature × Grid Double) :=
  inputs.map fun i => (i.1, tabulate lens i.1.names i.2)

theorem lengthOf_operands {inputs : List (Signature × (Place → Double))} {d : Dimension}
    (h : ∃ i ∈ inputs, d.name ∈ i.1.names) : lengthOf (operands lens inputs) d = some (lens d.name) := by
  induction inputs with
  | nil =>
    obtain ⟨_, hi, _⟩ := h
    cases hi
  | cons i inputs ih =>
    unfold lengthOf operands
    rw [List.map_cons, List.findSome?_cons, position_eq]
    by_cases hd : d.name ∈ i.1.names
    · rw [if_pos hd, Option.bind_some, shape_tabulate, getElem?_map_idxOf hd]
    · rw [if_neg hd, Option.bind_none]
      obtain ⟨j, hj, hdj⟩ := h
      rcases List.mem_cons.mp hj with rfl | hj
      · exact absurd hdj hd
      · exact ih ⟨j, hj, hdj⟩

theorem shapeOf_operands {inputs : List (Signature × (Place → Double))}
    (h : ∀ x ∈ out.names, ∃ i ∈ inputs, x ∈ i.1.names) :
    shapeOf (operands lens inputs) out = .ok (out.names.map lens) := by
  unfold shapeOf names
  induction out with
  | nil => rfl
  | cons d out ih =>
    have hd : lengthOf (operands lens inputs) d = some (lens d.name) :=
      lengthOf_operands (h d.name List.mem_cons_self)
    rw [List.mapM_cons, hd, ih fun x hx => h x (List.mem_cons_of_mem _ hx)]
    rfl

/-- Arrays over common axes are the same functions over all of them. -/
theorem alignAll_operands {inputs : List (Signature × (Place → Double))} (hout : out.names.Nodup)
    (hnames : ∀ x ∈ out.names, ∃ i ∈ inputs, x ∈ i.1.names)
    (hin : ∀ i ∈ inputs, i.1.names.Nodup ∧ i.1.names ⊆ out.names ∧ Supported i.1.names i.2)
    (hfits : fits (out.names.map lens) = true) :
    alignAll (operands lens inputs) out = .ok (inputs.map fun i => tabulate lens out.names i.2) := by
  have hall : (operands lens inputs).mapM (fun p => align p.2 p.1 out (out.names.map lens)) =
      .ok (inputs.map fun i => tabulate lens out.names i.2) := by
    clear hnames
    induction inputs with
    | nil => rfl
    | cons i inputs ih =>
      obtain ⟨hn, hsub, hF⟩ := hin i List.mem_cons_self
      unfold operands at ih ⊢
      rw [List.map_cons, List.mapM_cons, align_tabulate hn hout hsub hF hfits,
        ih fun j hj => hin j (List.mem_cons_of_mem _ hj)]
      rfl
  unfold alignAll
  rw [shapeOf_operands hnames]
  exact hall

end Concord.Align

/-! Arrays brought to common axes, position by position: an array over some of the axes repeats its elements along the
    axes that it lacks and along those where it has length 1, whatever the order of its own axes. -/

namespace Concord.Align

open Signature Grid

variable {source out : Signature} {shape index : List Nat} {v g : Grid Double}

/-- The lengths of a shape, by the names of its axes. -/
def lengthsOf (s : Signature) (shape : List Nat) : String → Nat := placeOf s.names shape

/-- The position in the array that a position over `out` stands for: the coordinates of the axes that the array has, in
    its own order, with 0 on an axis of length 1. -/
def restricted (v : Grid Double) (source out : Signature) (index : List Nat) : List Nat :=
  source.names.map (shrunk (lengthsOf source v.shape) (placeOf out.names index))

/-! ### Names that are missing -/

theorem length_order (hn : source.names.Nodup) (hout : out.names.Nodup) :
    (out.filterMap fun d => Signature.position source d.name).length = source.length ↔ source.names ⊆ out.names := by
  have hlength : source.length = source.names.length := List.length_map _ |>.symm
  rw [filterMap_position, List.length_map, hlength]
  refine ⟨fun h x hx => ?_, fun hsub => (perm_filter hn hout hsub).length_eq⟩
  have hfilter : out.names.filter (· ∈ source.names) ⊆ source.names := fun y hy =>
    of_decide_eq_true (List.mem_filter.mp hy).2
  have hperm := ((hout.filter _).subperm hfilter).perm_of_length_le (Nat.le_of_eq h.symm)
  exact (List.mem_filter.mp (hperm.symm.subset hx)).1

theorem align_missing (hn : source.names.Nodup) (hout : out.names.Nodup) (haxes : v.axes = source.length)
    (hsub : ¬source.names ⊆ out.names) : align v source out shape = .error (.operandDimensions source out) := by
  unfold align
  rw [if_neg (not_not_intro haxes)]
  exact if_pos (mt (length_order hn hout).mp hsub)

/-! ### Lengths -/

theorem map_lengthsOf {s : Signature} (hn : s.names.Nodup) (h : shape.length = s.length) :
    s.names.map (lengthsOf s shape) = shape :=
  map_placeOf hn (h.trans (List.length_map _).symm)

/-- An array whose names are all there is stretched where it has length 1, and fails elsewhere if a length differs. -/
theorem align_eq (hn : source.names.Nodup) (hout : out.names.Nodup) (hsub : source.names ⊆ out.names)
    (haxes : v.axes = source.length) (hshape : shape.length = out.length) (hfits : fits shape = true) :
    align v source out shape =
      if ∀ x ∈ source.names, lengthsOf source v.shape x = lengthsOf out shape x ∨ lengthsOf source v.shape x = 1 then
        .ok (tabulate (lengthsOf out shape) out.names fun p =>
          v.read source.names (shrunk (lengthsOf source v.shape) p))
      else .error (.stretch (out.names.map (stretchable source (lengthsOf source v.shape))) shape) := by
  have hv := tabulate_read hn (map_lengthsOf hn haxes).symm
  have hwanted := map_lengthsOf hout hshape
  have halign := @align_stretched source out (lengthsOf source v.shape) _ (lengthsOf out shape) hn hout hsub
    (v.read_supported source.names) (hwanted.symm ▸ hfits)
  rwa [hv, hwanted] at halign

/-! ### Positions -/

theorem inBounds_placeOf (hout : out.names.Nodup) (hshape : shape.length = out.length) (hi : InBounds shape index) :
    InBounds (out.names.map (lengthsOf out shape)) (out.names.map (placeOf out.names index)) := by
  rw [map_lengthsOf hout hshape, map_placeOf hout (hi.length.trans (hshape.trans (List.length_map _).symm))]
  exact hi

/-- Every position over the wanted axes stands for one in the array. -/
theorem restricted_inBounds (hn : source.names.Nodup) (hout : out.names.Nodup) (hsub : source.names ⊆ out.names)
    (haxes : v.axes = source.length) (hshape : shape.length = out.length) (hi : InBounds shape index)
    (h : ∀ x ∈ source.names, lengthsOf source v.shape x = lengthsOf out shape x ∨ lengthsOf source v.shape x = 1) :
    InBounds v.shape (restricted v source out index) := by
  rw [← map_lengthsOf hn haxes]
  refine inBounds_map.mpr fun x hx => ?_
  have hlt := inBounds_map.mp (inBounds_placeOf hout hshape hi) x (hsub hx)
  unfold shrunk
  rcases h x hx with heq | hone
  · split <;> omega
  · rw [if_pos hone]
    omega

theorem get_aligned (hout : out.names.Nodup) (hsub : source.names ⊆ out.names) (hshape : shape.length = out.length)
    (hi : InBounds shape index) :
    (tabulate (lengthsOf out shape) out.names fun p =>
      v.read source.names (shrunk (lengthsOf source v.shape) p)).get index = v.get (restricted v source out index) := by
  have hindex := map_placeOf hout (hi.length.trans (hshape.trans (List.length_map _).symm))
  have hsupported : Supported out.names fun p => v.read source.names (shrunk (lengthsOf source v.shape) p) := by
    refine fun p q hpq => v.read_supported source.names _ _ fun x hx => ?_
    rw [shrunk, shrunk, hpq x (hsub hx)]
  have hget := get_tabulate hsupported (inBounds_map.mp (inBounds_placeOf hout hshape hi))
  rwa [hindex] at hget

/-- Arrays are brought to common axes by name. It fails if and only if a name of the array is missing, or one of its
    lengths is neither the wanted one nor 1; else the result has the wanted shape, and its element at each position is
    the one of the array at the position restricted to the names of the array and in their order. -/
theorem align_byName (hsource : source.names.Nodup) (hout : out.names.Nodup) (haxes : v.axes = source.length)
    (hshape : shape.length = out.length) (hfits : fits shape = true) :
    ((∃ fault, align v source out shape = .error fault) ↔
      (∃ x ∈ source.names, x ∉ out.names) ∨
        ∃ x ∈ source.names, x ∈ out.names ∧ lengthsOf source v.shape x ≠ lengthsOf out shape x ∧
          lengthsOf source v.shape x ≠ 1) ∧
    ∀ g, align v source out shape = .ok g → g.shape = shape ∧ ∀ index, InBounds shape index →
      InBounds v.shape (restricted v source out index) ∧ g.get index = v.get (restricted v source out index) := by
  by_cases hsub : source.names ⊆ out.names
  · have halign := align_eq hsource hout hsub haxes hshape hfits
    by_cases hlens : ∀ x ∈ source.names,
        lengthsOf source v.shape x = lengthsOf out shape x ∨ lengthsOf source v.shape x = 1
    · rw [if_pos hlens] at halign
      rw [halign]
      refine ⟨iff_of_false (fun ⟨_, h⟩ => by cases h) ?_, fun g hg => ?_⟩
      · rintro (⟨x, hx, hmissing⟩ | ⟨x, hx, -, hdiffers, hlong⟩)
        · exact hmissing (hsub hx)
        · exact (hlens x hx).elim hdiffers hlong
      · cases hg
        refine ⟨map_lengthsOf hout hshape, fun index hi => ⟨?_, get_aligned hout hsub hshape hi⟩⟩
        exact restricted_inBounds hsource hout hsub haxes hshape hi hlens
    · rw [if_neg hlens] at halign
      rw [halign]
      refine ⟨iff_of_true ⟨_, rfl⟩ (.inr ?_), fun g hg => by cases hg⟩
      obtain ⟨x, hx, hbad⟩ : ∃ x ∈ source.names,
          ¬(lengthsOf source v.shape x = lengthsOf out shape x ∨ lengthsOf source v.shape x = 1) := by
        simpa only [not_forall, exists_prop] using hlens
      exact ⟨x, hx, hsub hx, not_or.mp hbad⟩
  · rw [align_missing hsource hout haxes hsub]
    refine ⟨iff_of_true ⟨_, rfl⟩ (.inl ?_), fun g hg => by cases hg⟩
    simpa only [List.subset_def, not_forall, exists_prop] using hsub

/-- The normals of two stations, which are those of every month. -/
def normals : Grid Double := ⟨[2, 1], #[10, 20], rfl⟩

def normalAxes : Signature := [⟨"station", none⟩, ⟨"month", none⟩]

def monthlyAxes : Signature := [⟨"month", none⟩, ⟨"year", none⟩, ⟨"station", none⟩]

theorem align_byName_normals : ∃ g, align normals normalAxes monthlyAxes [3, 2, 2] = .ok g ∧ g.shape = [3, 2, 2] ∧
    g.get [2, 1, 0] = 10 ∧ g.get [0, 1, 1] = 20 := by
  obtain ⟨hfails, hresult⟩ := @align_byName normalAxes monthlyAxes [3, 2, 2] normals (by decide) (by decide) rfl rfl
    (by decide)
  cases halign : align normals normalAxes monthlyAxes [3, 2, 2] with
  | error fault => exact absurd (hfails.mp ⟨fault, halign⟩) (by decide)
  | ok g =>
    obtain ⟨hshape, helements⟩ := hresult g halign
    refine ⟨g, rfl, hshape, ?_, ?_⟩
    · exact (helements [2, 1, 0] ⟨by decide, by decide, by decide, trivial⟩).2
    · exact (helements [0, 1, 1] ⟨by decide, by decide, by decide, trivial⟩).2

end Concord.Align
