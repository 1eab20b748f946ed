import Concord.Function.Builtin
import Concord.Proofs.Graph.Lowering
import Concord.Proofs.Resolve.Axes

/-! What the calls of builtin functions look like once they are resolved: how many arrays they have, and
    which axes those have. -/

namespace Concord

open Signature

/-! ### The builtin functions -/

namespace Functions

/-- How many arrays a builtin function takes, and how its axes follow, by what it computes. -/
def Regular (f : FunctionSpec) : Prop :=
  match f.kernel with
  | .map e =>
    if e.binary?.isSome then f.arity = 2 ∧ f.shape = .broadcast
    else f.arity = 1 ∧ f.shape = .passThrough ∧ (e = .power → f.name = "^")
  | .reduce _ => f.arity = 1 ∧ f.shape = .reduce
  | .scan _ => f.arity = 1 ∧ f.shape = .scan
  | .convert => True

instance (f : FunctionSpec) : Decidable (Regular f) := by
  unfold Regular
  split <;> infer_instance

theorem builtins_regular : ∀ f ∈ builtins.specs, Regular f := by
  decide

/-- Functions take one array at most if their arrays are not broadcast. -/
def OneArray (functions : Functions) : Prop := ∀ f ∈ functions.specs, f.shape ≠ .broadcast → f.arity ≤ 1

theorem builtins_oneArray : builtins.OneArray := by
  unfold OneArray
  decide

theorem get?_eq_some {fs : Functions} {name : String} {n : Nat} {f : FunctionSpec}
    (h : fs.get? name n = some f) : f ∈ fs.specs ∧ f.name = name ∧ f.arity = n := by
  have hmem := List.mem_of_find?_eq_some h
  obtain ⟨hmem, hname⟩ := List.mem_filter.mp hmem
  have harity := List.find?_some h
  exact ⟨hmem, eq_of_beq hname, of_decide_eq_true harity⟩

end Functions

/-! ### Calls -/

/-- The arrays of a call by what it computes, and their axes beside those of the result. -/
inductive CallShape (options : CallOptions) (dims : Nat → Signature) (out : Signature) :
    Kernel → List Nat → Prop
  | unary {e : Elementwise} {p : Nat} (he : e.binary? = none)
      (hpower : e = .power → (options.number? "exponent").isSome = true) (hout : out = dims p) :
      CallShape options dims out (.map e) [p]
  | binary {e : Elementwise} {op : Double → Double → Double} {p q : Nat} (he : e.binary? = some op)
      (hp : (dims p).Within out) (hq : (dims q).Within out)
      (hnames : ∀ x ∈ out.names, x ∈ (dims p).names ∨ x ∈ (dims q).names) :
      CallShape options dims out (.map e) [p, q]
  | reduce {r : Reduction} {p : Nat} {d : String} (hd : options.text? "dim" = some d)
      (hmem : d ∈ (dims p).names) (hout : out = (dims p).without d) :
      CallShape options dims out (.reduce r) [p]
  | scan {s : Scan} {p : Nat} {d : String} (hd : options.text? "dim" = some d)
      (hmem : d ∈ (dims p).names) (hout : out = dims p) : CallShape options dims out (.scan s) [p]

section
variable {c : Resolution.Context} {dims : Nat → Signature} {function : String} {options : CallOptions}
  {parents : List Nat} {out : Signature}

/-- The axis of a reduction or scan is one of its array. -/
theorem dims_along {rule : ShapeRule} {operands : List Operand} (hr : rule = .reduce ∨ rule = .scan)
    (h : Typing.dims rule function operands options = .ok out) :
    ∃ d, options.text? "dim" = some d ∧ d ∈ (Typing.firstDims operands).names ∧
      out = if rule = .reduce then (Typing.firstDims operands).without d else Typing.firstDims operands := by
  rcases hr with rfl | rfl
  -- The two rules are one branch of the definition.
  all_goals
    simp only [Typing.dims] at h
    split at h
    · cases h
    · rename_i d hd
      split at h
      · cases h
      · rename_i hnamed
        exact ⟨d, hd, named_iff.mp (by simpa using hnamed), (Except.ok.inj h).symm⟩

theorem Typing.dims_broadcast {operands : List Operand}
    (h : Typing.dims .broadcast function operands options = .ok out) :
    Typing.union (operands.map (·.dims)) = .ok out := by
  simp only [Typing.dims] at h
  split at h
  · rename_i s hs
    cases h
    exact hs
  · cases h

theorem singleton_of_mem {n p : Nat} (h : n ≤ 1) (hn : n = parents.length) (hp : p ∈ parents) : parents = [p] := by
  obtain ⟨q, rfl⟩ := List.length_eq_one_iff.mp (Nat.le_antisymm (hn ▸ h) (List.length_pos_of_mem hp))
  rw [List.mem_singleton.mp hp]

theorem exists_parent {n : Nat} (h : n = 1) (hn : n = parents.length) : ∃ p, parents = [p] :=
  List.length_eq_one_iff.mp (hn.symm.trans h)

/-- A node has the axes of its parents, except for the one that a reduction takes away. -/
theorem AxesOf.keeps {Fit : String → CallOptions → Prop} {kind : NodeKind} (hone : c.functions.OneArray)
    (h : AxesOf c Fit dims kind parents out) {p : Nat} (hp : p ∈ parents) {x : String} (hx : x ∈ (dims p).names) :
    x ∈ out.names ∨ ∃ function options f, kind = .call function options ∧ options.text? "dim" = some x ∧
      parents = [p] ∧ c.functions.get? function parents.length = some f ∧ f.shape = .reduce := by
  cases h with
  | literal => cases hp
  | operand => cases hp
  | convert =>
    rw [List.mem_singleton.mp hp] at hx
    exact .inl hx
  | transpose horder =>
    rw [List.mem_singleton.mp hp] at hx
    rw [(perm_apply horder).1]
    exact .inl ((permutationTo_eq_some horder).2.mem_iff.mpr hx)
  | @call function options _ f _ hf _ _ hdims =>
    by_cases hshape : f.shape = .broadcast
    · rw [hshape] at hdims
      refine .inl (Typing.union_names (Typing.dims_broadcast hdims) (dims p) ?_ hx)
      rw [List.map_map]
      exact List.mem_map_of_mem (f := dims) hp
    · obtain ⟨hmem, -, harity⟩ := Functions.get?_eq_some hf
      cases singleton_of_mem (hone f hmem hshape) harity hp
      cases hs : f.shape with
      | passThrough =>
        rw [hs] at hdims
        cases hdims
        exact .inl hx
      | broadcast => exact absurd hs hshape
      | scan =>
        rw [hs] at hdims
        obtain ⟨d, -, -, rfl⟩ := dims_along (.inr rfl) hdims
        exact .inl hx
      | reduce =>
        rw [hs] at hdims
        obtain ⟨d, hd, -, rfl⟩ := dims_along (.inl rfl) hdims
        by_cases hxd : x = d
        · subst hxd
          exact .inr ⟨function, options, f, rfl, hd, rfl, hf, hs⟩
        · obtain ⟨e, he, rfl⟩ := mem_names.mp hx
          exact .inl (mem_names.mpr ⟨e, List.mem_filter.mpr ⟨he, decide_eq_true hxd⟩, rfl⟩)

/-- A call of a builtin function has the arrays and axes that its kernel is made for. -/
theorem AxesOf.call_shape (hc : c.functions = .builtins) (hk : ∀ p ∈ parents, (dims p).Known)
    (h : AxesOf c Functions.Fit dims (.call function options) parents out) :
    out.Known ∧ ∃ f, Functions.builtins.get? function parents.length = some f ∧
      CallShape options dims out f.kernel parents := by
  cases h with
  | @call _ _ _ f _ hf hkernel hfit hdims =>
    rw [hc] at hf
    obtain ⟨hmem, hname, harity⟩ := Functions.get?_eq_some hf
    have hreg := Functions.builtins_regular f hmem
    unfold Functions.Regular at hreg
    cases hkf : f.kernel with
    | map e =>
      rw [hkf] at hreg
      dsimp only at hreg
      cases hb : e.binary? with
      | some op =>
        rw [hb, Option.isSome_some, if_pos rfl] at hreg
        obtain ⟨p, q, rfl⟩ := List.length_eq_two.mp (harity.symm.trans hreg.1)
        rw [hreg.2] at hdims
        have hboth : ∀ s ∈ [dims p, dims q], s.Known := by simpa using hk
        obtain ⟨hout, hwithin, hnames⟩ := Typing.union_known hboth (Typing.dims_broadcast hdims)
        refine ⟨hout, f, hf, hkf ▸ .binary hb (hwithin _ (by simp)) (hwithin _ (by simp)) fun x hx => ?_⟩
        simpa using hnames x hx
      | none =>
        rw [hb, Option.isSome_none, if_neg Bool.false_ne_true] at hreg
        obtain ⟨harr, hshape, hpower⟩ := hreg
        obtain ⟨p, rfl⟩ := exists_parent harr harity
        rw [hshape] at hdims
        cases hdims
        refine ⟨hk p (List.mem_singleton_self p), f, hf, hkf ▸ .unary hb (fun he => ?_) rfl⟩
        exact hfit (hname.symm.trans (hpower he))
    | reduce r =>
      rw [hkf] at hreg
      obtain ⟨p, rfl⟩ := exists_parent hreg.1 harity
      rw [hreg.2] at hdims
      obtain ⟨d, hd, hmem, rfl⟩ := dims_along (.inl rfl) hdims
      exact ⟨known_without (hk p (List.mem_singleton_self p)), f, hf, hkf ▸ .reduce hd hmem rfl⟩
    | scan s =>
      rw [hkf] at hreg
      obtain ⟨p, rfl⟩ := exists_parent hreg.1 harity
      rw [hreg.2] at hdims
      obtain ⟨d, hd, hmem, rfl⟩ := dims_along (.inr rfl) hdims
      exact ⟨hk p (List.mem_singleton_self p), f, hf, hkf ▸ .scan hd hmem rfl⟩
    | convert => exact absurd hkf hkernel

/-- The axes of a node that is no input are known if those of its parents are, and come from these with
    their lengths. -/
theorem AxesOf.inherits {kind : NodeKind} (hc : c.functions = .builtins) (hk : ∀ p ∈ parents, (dims p).Known)
    (h : AxesOf c Functions.Fit dims kind parents out) (hkind : kind.input? = none) :
    out.Known ∧ ∀ x ∈ out.names, ∃ p ∈ parents, x ∈ (dims p).names ∧ (dims p).lens x = out.lens x := by
  cases h with
  | literal => exact ⟨known_nil, fun x hx => by cases hx⟩
  | operand => cases hkind
  | @convert _ _ p =>
    exact ⟨hk p (List.mem_singleton_self p), fun x hx => ⟨p, List.mem_singleton_self p, hx, rfl⟩⟩
  | @transpose p order target horder =>
    have hp := hk p (List.mem_singleton_self p)
    have hout := known_apply hp horder
    have hwithin := within_of_subset hout hp (perm_apply horder).2
    exact ⟨hout, fun x hx => ⟨p, List.mem_singleton_self p, hwithin.names hx, (hwithin.lens x hx).symm⟩⟩
  | call hf hkernel hfit hdims =>
    obtain ⟨hout, f, -, hshape⟩ := AxesOf.call_shape hc hk (.call hf hkernel hfit hdims)
    refine ⟨hout, fun x hx => ?_⟩
    generalize f.kernel = kernel at hshape
    cases hshape with
    | @unary _ p _ _ heq | @scan _ p _ _ _ heq =>
      exact ⟨p, List.mem_singleton_self p, heq ▸ hx, congrArg (·.lens x) heq.symm⟩
    | @binary _ _ p q _ hp hq hnames =>
      rcases hnames x hx with hx | hx
      · exact ⟨p, by simp, hx, hp.lens x hx⟩
      · exact ⟨q, by simp, hx, hq.lens x hx⟩
    | @reduce _ p d _ _ heq =>
      have hwithin := within_without (x := d) (hk p (List.mem_singleton_self p))
      rw [heq] at hx ⊢
      exact ⟨p, List.mem_singleton_self p, hwithin.names hx, (hwithin.lens x hx).symm⟩

end

/-! ### Whole graphs -/

section
variable {c : Resolution.Context} {s : NodeStore} {i : Nat}

theorem NodeStore.dims_of_le (h : s.count ≤ i) : s.dims i = [] := by
  unfold dims layout? node?
  rw [List.getElem?_eq_none h]
  rfl

/-- If the axes of all inputs are known, those of all nodes are. -/
theorem Typed.known (hs : Typed c Functions.Fit s) (hc : c.functions = .builtins)
    (hin : ∀ i name, s.kind? i = some (.operand name) → (s.dims i).Known) (i : Nat) : (s.dims i).Known := by
  induction i using Nat.strongRecOn with
  | _ i ih =>
    rcases Nat.lt_or_ge i s.count with hi | hi
    · obtain ⟨n, hn⟩ := NodeStore.exists_node hi
      cases hkind : n.kind.input? with
      | none =>
        exact ((hs.axes hn).inherits hc (fun p hp => ih p ((hs.node i n hn).1 p hp)) hkind).1
      | some name =>
        refine hin i name ?_
        rw [NodeStore.kind_of_node hn]
        cases hk : n.kind <;> rw [hk] at hkind <;> cases hkind
        rfl
    · rw [NodeStore.dims_of_le hi]
      exact known_nil

/-- An axis that has one length in all inputs has it in all nodes. -/
theorem Typed.length_along (hs : Typed c Functions.Fit s) (hc : c.functions = .builtins)
    (hin : ∀ i name, s.kind? i = some (.operand name) → (s.dims i).Known) {x : String} {length : Nat}
    (hx : ∀ i name, s.kind? i = some (.operand name) → x ∈ (s.dims i).names → (s.dims i).lens x = length)
    (i : Nat) (hi : x ∈ (s.dims i).names) : (s.dims i).lens x = length := by
  induction i using Nat.strongRecOn with
  | _ i ih =>
    rcases Nat.lt_or_ge i s.count with hlt | hge
    · obtain ⟨n, hn⟩ := NodeStore.exists_node hlt
      cases hkind : n.kind.input? with
      | none =>
        obtain ⟨p, hp, hxp, heq⟩ :=
          ((hs.axes hn).inherits hc (fun p _ => hs.known hc hin p) hkind).2 x hi
        rw [← heq]
        exact ih p ((hs.node i n hn).1 p hp) hxp
      | some name =>
        refine hx i name ?_ hi
        rw [NodeStore.kind_of_node hn]
        cases hk : n.kind <;> rw [hk] at hkind <;> cases hkind
        rfl
    · rw [NodeStore.dims_of_le hge] at hi
      cases hi

end
end Concord
