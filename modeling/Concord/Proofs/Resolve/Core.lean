import Concord.Proofs.Graph.Inputs
import Concord.Proofs.Resolve.Shapes
import Concord.Proofs.Resolve.WellTyped

/-! Resolution keeps what is computed. Written out, and without what only changes units or the order of axes, the graph
    of a variable is the same before resolution and after it. So it has the same inputs. -/

namespace Concord

variable {functions known : Functions} {kind : NodeKind} {x : String}

/-! ### Trees without conversions -/

/-- All that a node does to `n` arguments is to change the unit or the order of axes of the first one. Calls do so if
    their function converts. -/
def NodeKind.converts (functions : Functions) (n : Nat) : NodeKind → Bool
  | .convert _ _ => n = 1
  | .transpose _ => n = 1
  | .call function _ => (functions.get? function n).any fun f => f.kernel = .convert
  | .literal _ => false
  | .operand _ => false

/-- Functions that convert take one array. -/
def Resolution.ConvertsOne (functions : Functions) : Prop :=
  ∀ function n f, functions.get? function n = some f → f.kernel = .convert → n = 1

theorem Resolution.ConvertsOne.eq_one (hone : ConvertsOne functions) {n : Nat} (h : kind.converts functions n = true) :
    n = 1 := by
  cases kind with
  | convert | transpose => exact of_decide_eq_true h
  | call function options =>
    obtain ⟨f, hf, hkernel⟩ := Option.any_eq_true _ _ |>.mp h
    exact hone _ _ _ hf (of_decide_eq_true hkernel)
  | literal | operand => cases h

namespace Tree

/-- A node on top of some trees; in its place the first of them if it only converts that. -/
def join (functions : Functions) (kind : NodeKind) : List Tree → Tree
  | [] => .node kind []
  | t :: ts => if kind.converts functions (ts.length + 1) then t else .node kind (t :: ts)

mutual

/-- A tree without conversions. -/
def core (functions : Functions) : Tree → Tree
  | .node kind parents => join functions kind (cores functions parents)

def cores (functions : Functions) : List Tree → List Tree
  | [] => []
  | t :: ts => core functions t :: cores functions ts

end

theorem cores_eq : ∀ ts : List Tree, cores functions ts = ts.map (core functions)
  | [] => rfl
  | t :: ts => by rw [cores, cores_eq ts, List.map_cons]

theorem core_node {parents : List Tree} :
    (node kind parents).core functions = join functions kind (parents.map (core functions)) := by
  rw [core, cores_eq]

theorem join_of_converts {t : Tree} {ts : List Tree} (h : kind.converts functions (ts.length + 1) = true) :
    join functions kind (t :: ts) = t := if_pos h

theorem join_of_stays {ts : List Tree} (h : kind.converts functions ts.length = false) :
    join functions kind ts = .node kind ts := by
  cases ts with
  | nil => rfl
  | cons t ts => exact if_neg (Bool.eq_false_iff.mp h)

/-- What converts is no input. -/
theorem reads_join (hone : Resolution.ConvertsOne functions) {trees : List Tree} :
    (join functions kind trees).Reads x ↔ (node kind trees).Reads x := by
  cases trees with
  | nil => exact Iff.rfl
  | cons t ts =>
    rw [join]
    split
    · rename_i hconverts
      obtain rfl : ts = [] := List.eq_nil_of_length_eq_zero (Nat.succ.inj (hone.eq_one hconverts))
      rw [reads_node]
      constructor
      · exact fun h => .inr ⟨t, List.mem_singleton_self t, h⟩
      · rintro (rfl | ⟨t', ht', h⟩)
        · cases hconverts
        · exact List.mem_singleton.mp ht' ▸ h
    · exact Iff.rfl

mutual

theorem reads_core (hone : Resolution.ConvertsOne functions) : ∀ t : Tree, (t.core functions).Reads x ↔ t.Reads x
  | .node kind parents => by rw [core, reads_join hone, reads_node, reads_node, reads_cores hone parents]

theorem reads_cores (hone : Resolution.ConvertsOne functions) :
    ∀ ts : List Tree, (∃ t ∈ cores functions ts, t.Reads x) ↔ ∃ t ∈ ts, t.Reads x
  | [] => Iff.rfl
  | t :: ts => by
    rw [cores, List.exists_mem_cons_iff, List.exists_mem_cons_iff, reads_core hone t, reads_cores hone ts]

end
end Tree

namespace Resolution

open NodeStore

variable {c : Context} {s t : NodeStore} {id root : Nat} {parents ids : List Nat} {us : List Tree} {u : Tree}
  {r : NodeStore × Nat}

/-- A node is a tree, written out without conversions. -/
def HasCore (functions : Functions) (s : NodeStore) (id : Nat) (u : Tree) : Prop :=
  ∃ tree, s.unfold id = some tree ∧ tree.core functions = u

theorem HasCore.grows (h : HasCore functions s id u) (hs : LaidOut c s) (ht : LaidOut c t) (hgrows : Grows c s t) :
    HasCore functions t id u := by
  obtain ⟨tree, htree, hu⟩ := h
  have hlt := lt_of_unfold hs.parentsBelow htree
  exact ⟨tree, (pointAt_of_keys hs.parentsBelow ht.parentsBelow hgrows.keeps.keys hlt).trans htree, hu⟩

theorem exists_trees (h : List.Forall₂ (HasCore functions s) parents us) :
    ∃ trees, List.Forall₂ (fun p tree => s.unfold p = some tree) parents trees ∧
      trees.map (Tree.core functions) = us := by
  induction h with
  | nil => exact ⟨[], .nil, rfl⟩
  | cons hfirst _ ih =>
    obtain ⟨tree, htree, rfl⟩ := hfirst
    obtain ⟨trees, htrees, rfl⟩ := ih
    exact ⟨tree :: trees, .cons htree htrees, rfl⟩

/-- A node is put on top of what its parents are. -/
theorem hasCore_of_key (hs : LaidOut c s) (hkey : s.keys[id]? = some (kind, parents))
    (h : List.Forall₂ (HasCore functions s) parents us) : HasCore functions s id (Tree.join functions kind us) := by
  obtain ⟨trees, htrees, rfl⟩ := exists_trees h
  exact ⟨.node kind trees, (unfold_eq_some hs.parentsBelow).mpr ⟨kind, parents, trees, hkey, htrees, rfl⟩,
    Tree.core_node⟩

theorem hasCore_added {a : Layout} (hs : LaidOut c s) (hlayout : LayoutOf c s kind parents a)
    (h : List.Forall₂ (HasCore functions s) parents us) :
    HasCore functions (s.addWithLayout kind parents a).1 (s.addWithLayout kind parents a).2
      (Tree.join functions kind us) := by
  have hadded := added_addWithLayout hs hlayout
  refine hasCore_of_key hadded.laidOut (keys_addWithLayout _ _ _ _) ?_
  exact h.imp fun p u hp => hp.grows hs hadded.laidOut hadded.grows

/-! ### Steps -/

theorem convertNode_hasCore {target : String} (hs : LaidOut c s) (hid : HasCore functions s id u)
    (h : convertNode c s id target = .ok r) : HasCore functions r.1 r.2 u := by
  obtain ⟨a, ha, h⟩ := bind_eq_ok.mp h
  replace ha := layoutOf_iff.mp ha
  split at h
  · cases h
    exact hid
  · split at h
    · rename_i haccepts
      cases h
      exact hasCore_added hs (.convert ha rfl haccepts) (.cons hid .nil)
    · cases h

theorem convertInputs_hasCore : ∀ (conversions : List (Nat × String)) {s : NodeStore} {inputs : List Nat}
    {r : NodeStore × List Nat}, LaidOut c s → List.Forall₂ (HasCore functions s) inputs us →
      convertInputs c s inputs conversions = .ok r → List.Forall₂ (HasCore functions r.1) r.2 us
  | [], _, _, _, _, hinputs, h => by
    cases h
    exact hinputs
  | (i, target) :: rest, s, inputs, r, hs, hinputs, h => by
    rw [convertInputs] at h
    obtain ⟨⟨t, j⟩, ht, h⟩ := bind_eq_ok.mp h
    obtain ⟨o, -, hyields⟩ := convertNode_yields hs ht
    refine convertInputs_hasCore rest hyields.laidOut ?_ h
    have hgrown := hinputs.imp fun p u hp => hp.grows hs hyields.laidOut hyields.grows
    -- The argument that is converted is the one at the place.
    have hset := forall₂_set_modify (f := id) (i := i) (x := j) hgrown fun u hu => by
      obtain ⟨hi, rfl⟩ := List.getElem?_eq_some_iff.mp hu
      have hi' : i < inputs.length := hinputs.length_eq ▸ hi
      have hhere := hinputs.get hi' hi
      rw [List.getD_eq_getElem?_getD, List.getElem?_eq_getElem hi', Option.getD_some] at ht
      exact convertNode_hasCore hs hhere ht
    rwa [List.modify_id] at hset

/-- What is taken for a conversion after resolution is one that resolution would have taken out. -/
def NoneElse (known functions : Functions) : Prop :=
  ∀ kind n, NodeKind.converts known n kind = true → NodeKind.converts functions n kind = true

/-- Without functions, only the nodes that resolution puts in are conversions. -/
theorem noneElse_empty (functions : Functions) : NoneElse ⟨[]⟩ functions := by
  intro kind n h
  cases kind with
  | convert | transpose => exact h
  | call | literal | operand => cases h

theorem NoneElse.join_eq (hknown : NoneElse known functions) (h : kind.converts functions us.length = false) :
    Tree.join known kind us = Tree.join functions kind us := by
  rw [Tree.join_of_stays h, Tree.join_of_stays]
  exact Bool.eq_false_iff.mpr fun htrue => Bool.eq_false_iff.mp h (hknown _ _ htrue)

theorem addCall_hasCore {function : String} {options : CallOptions} (hknown : NoneElse known c.functions)
    (hs : LaidOut c s) (hargs : us = [] → NodeKind.converts c.functions 0 (.call function options) = false)
    (hparents : List.Forall₂ (HasCore known s) parents us) (h : addCall c s function options parents = .ok r) :
    HasCore known r.1 r.2 (Tree.join c.functions (.call function options) us) := by
  have hconverts : ∀ {f}, c.functions.get? function parents.length = some f →
      NodeKind.converts c.functions us.length (.call function options) = decide (f.kernel = .convert) := by
    intro f hf
    rw [hparents.length_eq] at hf
    simp only [NodeKind.converts, hf, Option.any_some]
  cases called hs h with
  | convert hf hkernel _ hr =>
    replace hconverts := (hconverts hf).trans (decide_eq_true hkernel)
    cases hparents with
    | nil =>
      rw [List.length_nil, hargs rfl] at hconverts
      cases hconverts
    | cons hp _ =>
      rw [Tree.join_of_converts hconverts]
      exact convertNode_hasCore hs hp hr
  | call hf hkernel hoperands _ hinputs hlayout =>
    obtain ⟨hlaid, -⟩ := convertInputs_yields hs hoperands hinputs
    rw [← hknown.join_eq ((hconverts hf).trans (decide_eq_false hkernel))]
    exact hasCore_added hlaid hlayout (convertInputs_hasCore _ hs hparents hinputs)

theorem addNode_hasCore {p : Progress} {n : Node} {native : NameMap Signature} (hknown : NoneElse known c.functions)
    (hp : LaidOut c p.store) (hplain : Plain (fun _ _ => True) n.kind n.parents)
    (hargs : n.parents = [] → n.kind.converts c.functions 0 = false)
    (hparents : List.Forall₂ (HasCore known p.store) (n.parents.map fun q => p.renumbered.getD q 0) us)
    (h : addNode c p n = .ok (t, id, native)) :
    HasCore known t id (Tree.join c.functions n.kind us) := by
  unfold addNode at h
  cases hk : n.kind with
  | literal l =>
    rw [hk] at h hplain
    rw [show n.parents = [] from hplain] at hparents
    cases hparents
    cases h
    exact hasCore_added hp .literal .nil
  | operand name =>
    rw [hk] at h hplain
    rw [show n.parents = [] from hplain] at hparents
    cases hparents
    dsimp only at h
    split at h
    · cases h
    · rename_i m hm
      cases h
      exact hasCore_added hp (.operand hm) .nil
  | call function options =>
    rw [hk] at h
    obtain ⟨⟨w, i⟩, hw, h⟩ := bind_eq_ok.mp h
    cases h
    refine addCall_hasCore hknown hp (fun hnil => hk ▸ hargs ?_) hparents hw
    rw [hnil, List.forall₂_nil_right_iff] at hparents
    exact List.map_eq_nil_iff.mp hparents
  | convert source target =>
    rw [hk] at hplain
    exact hplain.elim
  | transpose order =>
    rw [hk] at hplain
    exact hplain.elim

theorem conformRoot_hasCore {target : Target} (hs : LaidOut c s) (hid : HasCore functions s id u)
    (h : conformRoot c s id target = .ok r) : HasCore functions r.1 r.2 u := by
  obtain ⟨⟨t, i⟩, ht, h⟩ := bind_eq_ok.mp h
  obtain ⟨a, ha, ht⟩ := bind_eq_ok.mp ht
  replace ha := layoutOf_iff.mp ha
  dsimp only at ht
  split at ht
  · cases ht
    exact convertNode_hasCore hs hid h
  · split at ht
    · cases ht
    · rename_i order horder
      cases ht
      have hlayout : LayoutOf c s (.transpose order) [id] _ := .transpose ha horder
      refine convertNode_hasCore (added_addWithLayout hs hlayout).laidOut ?_ h
      exact hasCore_added hs hlayout (.cons hid .nil)

/-! ### All nodes -/

/-- Every conversion in a graph has something to convert. -/
def Supplied (functions : Functions) (s : NodeStore) : Prop :=
  ∀ i kind, s.kind? i = some kind → s.parents i = [] → kind.converts functions 0 = false

theorem ConvertsOne.supplied (hone : ConvertsOne functions) (s : NodeStore) : Supplied functions s := fun _ _ _ _ =>
  Bool.eq_false_iff.mpr fun h => absurd (hone.eq_one h) Nat.zero_ne_one

theorem steps_hasCore {v : NodeStore} {p : Progress} (hknown : NoneElse known c.functions)
    (hsupplied : Supplied c.functions v) (hv : Lowered (fun _ _ => True) v) (hb : v.ParentsBelow)
    (h : v.nodes.foldlM (step c) start = .ok p) :
    LaidOut c p.store ∧ ∀ i < v.count, ∀ tree, v.unfold i = some tree →
      HasCore known p.store (p.renumbered.getD i 0) (tree.core c.functions) := by
  refine steps_related (R := fun i s id => ∀ tree, v.unfold i = some tree →
    HasCore known s id (tree.core c.functions)) hv ?_ ?_ h
  · exact fun hs ht hgrows hcore tree htree => (hcore tree htree).grows hs ht hgrows
  · intro i n p t id native hn hplain hlaid hparents ht tree htree
    obtain ⟨kind, parents, trees, hkey, htrees, rfl⟩ := (unfold_eq_some hb).mp htree
    obtain ⟨rfl, rfl⟩ := node_of_key hn hkey
    rw [Tree.core_node]
    refine addNode_hasCore hknown hlaid hplain ?_ ?_ ht
    · exact fun hnil => hsupplied i _ (kind_of_node hn) (parents_of_node hn ▸ hnil)
    rw [List.forall₂_map_left_iff, List.forall₂_map_right_iff]
    exact (List.forall₂_and_left _ _ |>.mpr ⟨hparents, htrees⟩).imp fun q tree hq => hq.1 tree hq.2

theorem unfold_selected (hs : LaidOut c s) (h : Closed s ids) (hid : id ∈ ids) :
    (selected s ids).unfold (ids.idxOf id) = s.unfold id :=
  pointAt_renumber (P := (· ∈ ids)) hs.parentsBelow (laidOut_selected hs h).parentsBelow
    (fun i hi => ⟨h.parents i hi, parents_selected h hi⟩) (fun _ hi => (alike_selected h hi).kind) id hid

/-- Resolution changes nothing in a graph but conversions. -/
theorem resolve_core {v : CompiledVariable} {target : Target} {w : ResolvedVariable} {tree : Tree}
    (hknown : NoneElse known c.functions) (hsupplied : Supplied c.functions v.store)
    (hv : Lowered (fun _ _ => True) v.store) (hb : v.store.ParentsBelow)
    (htree : v.store.unfold v.root = some tree) (h : resolve c v target = .ok w) :
    w.store.ParentsBelow ∧ HasCore known w.store w.root (tree.core c.functions) := by
  obtain ⟨p, s, root, hst⟩ := resolve_stages hv h
  obtain ⟨hlaid, hall⟩ := steps_hasCore hknown hsupplied hv hb hst.steps
  obtain ⟨root', hroot', hu⟩ := conformRoot_hasCore hlaid (hall _ (lt_of_unfold hb htree) tree htree) hst.conformed
  obtain ⟨o, hyields, -⟩ := conformRoot_yields hlaid hst.conformed
  rw [hst.store, hst.root]
  refine ⟨(laidOut_selected hyields.laidOut hst.closed).parentsBelow, root', ?_, hu⟩
  rw [unfold_selected hyields.laidOut hst.closed hst.mem]
  exact hroot'

/-! ### Inputs -/

/-- In a graph in which all bears on the root, all inputs do. -/
theorem Connected.reads_iff (h : Connected s root) (hb : s.ParentsBelow) (hu : s.unfold root = some u) :
    u.Reads x ↔ ∃ i, s.kind? i = some (.operand x) := by
  rw [reads_unfold hb hu]
  refine exists_congr fun i => and_iff_right_of_imp fun hi => ?_
  exact h (s.Depends root) .refl (fun i hi p hp => hi.tail hp) i (lt_of_kind hi)

/-- The inputs of a resolved variable are those that its definition names, at once or through others. -/
theorem resolve_inputs {functions : Functions} {source : Source} {definitions : Definitions} {name : String}
    {v : CompiledVariable} {target : Target} {w : ResolvedVariable} (hone : ConvertsOne c.functions)
    (hv : (Compilation.compile functions source definitions).compiled.get? name = some v)
    (h : resolve c v target = .ok w) :
    (∃ i, w.store.kind? i = some (.operand x)) ↔ Compilation.InputOf source definitions x v.expression := by
  have hlowered : Lowered (fun _ _ => True) v.store := Compilation.compile_lowered (fun _ _ _ _ _ => trivial) hv
  have hw := Compilation.compile_writes hv
  obtain ⟨tree, htree, hunfold⟩ := hw.tree
  obtain ⟨hb, tree', hunfold', hcore⟩ :=
    resolve_core (fun _ _ => id) (hone.supplied _) hlowered hw.interned.below hunfold h
  rw [← (resolve_resolved hlowered h).1.connected.reads_iff hb hunfold', ← Tree.reads_core hone, hcore,
    Tree.reads_core hone, htree.reads_iff]

end Resolution

theorem Functions.builtins_convertsOne : Resolution.ConvertsOne .builtins := by
  intro function n f hf hkernel
  obtain ⟨hmem, -, rfl⟩ := Functions.get?_eq_some hf
  have hall : ∀ f ∈ Functions.builtins.specs, f.kernel = .convert → f.arity = 1 := by decide
  exact hall f hmem hkernel

end Concord
