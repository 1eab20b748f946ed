import Mathlib.Data.List.GetD
import Concord.Proofs.Graph.Lowering
import Concord.Proofs.Resolve.Axes
import Concord.Proofs.Resolve.Compaction
import Concord.Proofs.Resolve.Conversions
import Concord.Proofs.Resolve.Layouts

/-! Resolved graphs are well typed: what is known of each node is what is inferred from its parents, and
    nothing that is known of a node is replaced on the way there. Conversions are put in after the
    inference, from arguments that are not converted yet; that it gives the same from those that are is
    what `Typing.unit_convertedAll` says. -/

namespace Concord.Resolution

open NodeStore

variable {c : Context} {s t : NodeStore} {r : NodeStore × Nat} {o : Operand}

/-! ### What each step adds -/

/-- A graph that grew, and one of its nodes. -/
structure Yields (c : Context) (s : NodeStore) (o : Operand) (r : NodeStore × Nat) : Prop where
  laidOut : LaidOut c r.1
  grows : Grows c s r.1
  operand : operandOf r.1 r.2 = .ok o

theorem Added.yields {kind : NodeKind} {a : Layout} (h : Added c s kind a r) :
    Yields c s ⟨a.dims, a.unit, kind.isLiteral⟩ r where
  laidOut := h.laidOut
  grows := h.grows
  operand := by
    rw [operandOf_of_layout h.layout, h.kind]
    rfl

theorem Yields.trans (h : Grows c s t) (h' : Yields c t o r) : Yields c s o r :=
  ⟨h'.laidOut, h.trans h'.grows, h'.operand⟩

theorem Grows.operandOf (h : Grows c s t) {id : Nat} (ho : operandOf s id = .ok o) : operandOf t id = .ok o := by
  obtain ⟨a, ha, -⟩ := operandOf_eq_ok ho
  exact (h.keeps.alike ha).operandOf ho

theorem convertNode_yields {id : Nat} {target : String} (hs : LaidOut c s)
    (h : convertNode c s id target = .ok r) :
    ∃ o, operandOf s id = .ok o ∧ Yields c s (Typing.converted target o) r := by
  obtain ⟨a, ha, h⟩ := bind_eq_ok.mp h
  replace ha := layoutOf_iff.mp ha
  refine ⟨_, operandOf_of_layout ha, ?_⟩
  unfold Typing.converted
  dsimp only
  split at h
  · rename_i hsame
    cases h
    rw [if_pos hsame]
    exact ⟨hs, .refl, operandOf_of_layout ha⟩
  · rename_i hsame
    rw [if_neg hsame]
    split at h
    · rename_i haccepts
      cases h
      exact (added_addWithLayout hs (.convert ha rfl haccepts)).yields
    · cases h

theorem forall₂_set_modify {α β : Type} {R : α → β → Prop} {f : β → β} {x : α} :
    ∀ {l : List α} {l' : List β} {i : Nat}, List.Forall₂ R l l' → (∀ b, l'[i]? = some b → R x (f b)) →
      List.Forall₂ R (l.set i x) (l'.modify i f)
  | _, _, _, .nil, _ => by
    rw [List.set_nil, List.modify_nil]
    exact .nil
  | _, _, 0, .cons _ hl, hx => .cons (hx _ rfl) hl
  | _, _, _ + 1, .cons h hl, hx => .cons h (forall₂_set_modify hl hx)

theorem convertInputs_yields {conversions : List (Nat × String)} :
    ∀ {s : NodeStore} {inputs : List Nat} {operands : List Operand} {r : NodeStore × List Nat}, LaidOut c s →
      operandsOf s inputs = .ok operands → convertInputs c s inputs conversions = .ok r →
      LaidOut c r.1 ∧ Grows c s r.1 ∧ r.2.length = inputs.length ∧
        operandsOf r.1 r.2 = .ok (Typing.convertedAll operands conversions) := by
  induction conversions with
  | nil =>
    intro s inputs operands r hs ho h
    cases h
    exact ⟨hs, .refl, rfl, ho⟩
  | cons p rest ih =>
    obtain ⟨i, target⟩ := p
    intro s inputs operands r hs ho h
    rw [convertInputs] at h
    obtain ⟨⟨t, id⟩, ht, h⟩ := bind_eq_ok.mp h
    obtain ⟨o, ho', hyields⟩ := convertNode_yields hs ht
    have hnext : operandsOf t (inputs.set i id) = .ok (operands.modify i (Typing.converted target)) := by
      rw [operandsOf_eq, mapM_eq_ok] at ho ⊢
      refine forall₂_set_modify (ho.imp fun _ _ h => hyields.grows.operandOf h) fun b hb => ?_
      -- The argument that is converted is the one at the place.
      obtain ⟨hi, rfl⟩ := List.getElem?_eq_some_iff.mp hb
      have hi' : i < inputs.length := ho.length_eq ▸ hi
      have hhere := ho.get hi' hi
      rw [List.getD_eq_getElem?_getD, List.getElem?_eq_getElem hi', Option.getD_some] at ho'
      cases ho'.symm.trans hhere
      exact hyields.operand
    obtain ⟨hlaid, hgrows, hlen, hall⟩ := ih hyields.laidOut hnext h
    exact ⟨hlaid, hyields.grows.trans hgrows, hlen.trans List.length_set, hall⟩

/-- How a call is added: as a conversion, or behind its arguments, brought to one unit where the rule asks for it. -/
inductive Called (c : Context) (s : NodeStore) (function : String) (options : CallOptions) (parents : List Nat) :
    NodeStore × Nat → Prop
  | convert {f : FunctionSpec} {target : String} {r : NodeStore × Nat}
      (hf : c.functions.get? function parents.length = some f) (hkernel : f.kernel = .convert)
      (htarget : options.text? "units" = some target) (hr : convertNode c s (parents.getD 0 0) target = .ok r) :
      Called c s function options parents r
  | call {f : FunctionSpec} {operands : List Operand} {dims : Signature} {outcome : UnitOutcome} {t : NodeStore}
      {inputs : List Nat} (hf : c.functions.get? function parents.length = some f) (hkernel : f.kernel ≠ .convert)
      (hoperands : operandsOf s parents = .ok operands)
      (hunit : Typing.unit c.converter.accepts f.unit function operands options = .ok outcome)
      (hinputs : convertInputs c s parents outcome.conversions = .ok (t, inputs))
      (hlayout : LayoutOf c t (.call function options) inputs ⟨dims, outcome.unit⟩) :
      Called c s function options parents (t.addWithLayout (.call function options) inputs ⟨dims, outcome.unit⟩)

/-- A call has the layout that was inferred before its arguments were converted. -/
theorem called {function : String} {options : CallOptions} {parents : List Nat} (hs : LaidOut c s)
    (h : addCall c s function options parents = .ok r) : Called c s function options parents r := by
  unfold addCall at h
  split at h
  · cases h
  · rename_i f hf
    obtain ⟨operands, hops, h⟩ := bind_eq_ok.mp h
    split at h
    · rename_i hkernel
      split at h
      · cases h
      · rename_i htarget
        exact .convert hf hkernel htarget h
    · rename_i hkernel
      obtain ⟨dims, hdims, h⟩ := bind_eq_ok.mp h
      obtain ⟨outcome, hunit, h⟩ := bind_eq_ok.mp h
      obtain ⟨⟨t, inputs⟩, ht, h⟩ := bind_eq_ok.mp h
      obtain ⟨-, -, hlen, hall⟩ := convertInputs_yields hs hops ht
      cases h
      have hdims' := (typing_dims_congr (Typing.dims_convertedAll outcome.conversions operands)).trans hdims
      exact .call hf hkernel hops hunit ht
        (.call (hlen.symm ▸ hf) hkernel hall hdims' (Typing.unit_convertedAll hunit))

theorem addCall_yields {function : String} {options : CallOptions} {parents : List Nat} (hs : LaidOut c s)
    (h : addCall c s function options parents = .ok r) : ∃ o, Yields c s o r := by
  cases called hs h with
  | convert _ _ _ hr =>
    obtain ⟨o, -, hyields⟩ := convertNode_yields hs hr
    exact ⟨_, hyields⟩
  | call _ _ hoperands _ hinputs hlayout =>
    obtain ⟨hlaid, hgrows, -, -⟩ := convertInputs_yields hs hoperands hinputs
    exact ⟨_, .trans hgrows (added_addWithLayout hlaid hlayout).yields⟩

theorem addNode_yields {p : Progress} {n : Node} {id : Nat} {native : NameMap Signature} (hp : LaidOut c p.store)
    (hplain : Plain (fun _ _ => True) n.kind n.parents) (h : addNode c p n = .ok (t, id, native)) :
    ∃ o, Yields c p.store o (t, id) := by
  unfold addNode at h
  cases hk : n.kind with
  | literal x =>
    rw [hk] at h
    cases h
    exact ⟨_, (added_addWithLayout hp .literal).yields⟩
  | operand name =>
    rw [hk] at h
    dsimp only at h
    split at h
    · cases h
    · rename_i m hm
      cases h
      exact ⟨_, (added_addWithLayout hp (.operand hm)).yields⟩
  | call function options =>
    rw [hk] at h
    obtain ⟨⟨u, i⟩, hu, h⟩ := bind_eq_ok.mp h
    cases h
    exact addCall_yields hp hu
  | convert source target =>
    rw [hk] at hplain
    exact hplain.elim
  | transpose order =>
    rw [hk] at hplain
    exact hplain.elim

/-- The root gets the layout of the target. -/
theorem conformRoot_yields {id : Nat} {target : Target} (hs : LaidOut c s)
    (h : conformRoot c s id target = .ok r) :
    ∃ o, Yields c s o r ∧ Signature.names o.dims = target.dimensions ∧
      Measure.sameUnit o.unit target.units = true := by
  obtain ⟨⟨t, i⟩, ht, h⟩ := bind_eq_ok.mp h
  have harranged : ∃ o, Yields c s o (t, i) ∧ Signature.names o.dims = target.dimensions := by
    obtain ⟨a, ha, ht⟩ := bind_eq_ok.mp ht
    replace ha := layoutOf_iff.mp ha
    dsimp only at ht
    split at ht
    · rename_i hnames
      cases ht
      exact ⟨_, ⟨hs, .refl, operandOf_of_layout ha⟩, hnames⟩
    · split at ht
      · cases ht
      · rename_i order horder
        cases ht
        refine ⟨_, (added_addWithLayout hs (.transpose ha horder)).yields, ?_⟩
        exact (Signature.perm_apply horder).1
  obtain ⟨o, hyields, hnames⟩ := harranged
  obtain ⟨o', ho', hroot⟩ := convertNode_yields hyields.laidOut h
  cases hyields.operand.symm.trans ho'
  refine ⟨_, .trans hyields.grows hroot, ?_, Typing.sameUnit_converted target.units o⟩
  rw [Typing.dims_converted]
  exact hnames

/-! ### All steps -/

/-- Where resolution starts. -/
def start : Progress := ⟨.empty, [], .empty⟩

/-- Resolving some nodes of a graph adds nodes to what is there, and keeps all that is known of it. -/
theorem steps_grow {nodes : List Node} (hplain : ∀ n ∈ nodes, Plain (fun _ _ => True) n.kind n.parents)
    {p p' : Progress} (hp : LaidOut c p.store) (h : nodes.foldlM (step c) p = .ok p') :
    LaidOut c p'.store ∧ Grows c p.store p'.store := by
  induction nodes generalizing p with
  | nil =>
    cases h
    exact ⟨hp, .refl⟩
  | cons n nodes ih =>
    obtain ⟨mid, hmid, h⟩ := foldlM_cons_eq_ok.mp h
    obtain ⟨⟨t, id, native⟩, ht, hmid⟩ := bind_eq_ok.mp hmid
    cases hmid
    obtain ⟨o, hyields⟩ := addNode_yields hp (hplain n List.mem_cons_self) ht
    obtain ⟨hlaid, hgrows⟩ := ih (fun m hm => hplain m (List.mem_cons_of_mem _ hm)) hyields.laidOut h
    exact ⟨hlaid, hyields.grows.trans hgrows⟩

theorem laidOut_empty : LaidOut c .empty := fun _ _ h => by cases h

/-- If something holds of an old node and its new one whenever it holds of the parents of the old node and theirs, and
    growing does not undo it, then it holds of all when all nodes are resolved. -/
theorem steps_related {R : Nat → NodeStore → Nat → Prop} {v : NodeStore} {p : Progress}
    (hv : Lowered (fun _ _ => True) v)
    (hgrows : ∀ {i s t id}, LaidOut c s → LaidOut c t → Grows c s t → R i s id → R i t id)
    (hnode : ∀ {i n p t id native}, v.node? i = some n → Plain (fun _ _ => True) n.kind n.parents → LaidOut c p.store →
      (∀ q ∈ n.parents, R q p.store (p.renumbered.getD q 0)) → addNode c p n = .ok (t, id, native) → R i t id)
    (h : v.nodes.foldlM (step c) start = .ok p) :
    LaidOut c p.store ∧ ∀ i < v.count, R i p.store (p.renumbered.getD i 0) := by
  -- By induction on the nodes done: the parents of the next node are among them.
  suffices LaidOut c p.store ∧ p.renumbered.length = v.count ∧ ∀ i < v.count, R i p.store (p.renumbered.getD i 0) from
    ⟨this.1, this.2.2⟩
  refine foldlM_induction (P := fun done p => LaidOut c p.store ∧ p.renumbered.length = done.length ∧
      ∀ i < done.length, R i p.store (p.renumbered.getD i 0)) v.nodes ?_
    (List.nil_append _).symm ⟨laidOut_empty, rfl, fun _ hi => absurd hi (Nat.not_lt_zero _)⟩ h
  rintro done n rest p p' hall ⟨hlaid, hlen, hrelated⟩ hstep
  have hn : v.node? done.length = some n := by
    unfold NodeStore.node?
    rw [hall, List.getElem?_append_right (Nat.le_refl _), Nat.sub_self]
    rfl
  obtain ⟨hbelow, hplain⟩ := hv done.length n hn
  obtain ⟨⟨t, id, native⟩, ht, hstep⟩ := bind_eq_ok.mp hstep
  cases hstep
  obtain ⟨o, hyields⟩ := addNode_yields hlaid hplain ht
  refine ⟨hyields.laidOut, by simp [hlen], fun i hi => ?_⟩
  rw [List.length_append, List.length_singleton] at hi
  rcases Nat.lt_or_eq_of_le (Nat.le_of_lt_succ hi) with hi | rfl
  · dsimp only
    rw [List.getD_append _ _ _ _ (hlen.symm ▸ hi)]
    exact hgrows hlaid hyields.laidOut hyields.grows (hrelated i hi)
  · dsimp only
    rw [List.getD_append_right _ _ _ _ (Nat.le_of_eq hlen), hlen, Nat.sub_self]
    exact hnode hn hplain hlaid (fun q hq => hrelated q (hbelow q hq)) ht

/-! ### What is left of it -/

/-- The nodes that are kept are known under their new numbers as under the old ones. -/
theorem alike_selected {ids : List Nat} (h : Closed s ids) {id : Nat} (hid : id ∈ ids) :
    Alike s id (selected s ids) (ids.idxOf id) := by
  obtain ⟨n, hn, hnode⟩ := exists_node_selected h hid
  constructor
  · unfold NodeStore.layout?
    rw [hnode, hn]
    rfl
  · rw [kind_of_node hnode, kind_of_node hn]

theorem laidOut_selected (hs : LaidOut c s) {ids : List Nat} (h : Closed s ids) : LaidOut c (selected s ids) := by
  intro i n' hn'
  obtain ⟨hi, n, hn, rfl⟩ := exists_of_node_selected h hn'
  obtain ⟨hbelow, a, ha, hlayout⟩ := hs _ n hn
  have hmem : ids[i] ∈ ids := List.getElem_mem hi
  have hin : ∀ p ∈ n.parents, p ∈ ids := fun p hp => h.parents _ hmem p (parents_of_node hn ▸ hp)
  refine ⟨fun q hq => ?_, a, ha, hlayout.renumber ids.idxOf fun p hp => alike_selected h (hin p hp)⟩
  obtain ⟨p, hp, rfl⟩ := List.mem_map.mp hq
  have := idxOf_lt_idxOf h.sorted (hin p hp) hmem (hbelow p hp)
  rwa [h.nodup.idxOf_getElem i hi] at this

/-! ### Resolved variables -/

/-- A resolved graph is well typed: what is known of each node follows from its parents, and the root is the
    last node and has the layout of the target. -/
structure WellTyped (c : Context) (target : Target) (r : ResolvedVariable) : Prop where
  laidOut : LaidOut c r.store
  last : r.root + 1 = r.store.count
  root : ∃ a, r.store.layout? r.root = some a ∧ Signature.names a.dims = target.dimensions ∧
    Measure.sameUnit a.unit target.units = true

/-- How a graph was rebuilt: whenever some of its nodes are resolved, the graph so far was made by adding
    nodes, none of which replaces what is known of another, and so is what comes after it until the root has
    the layout of the target. What is left then are the nodes that the root depends on, as they are. -/
structure Rebuilt (c : Context) (v : CompiledVariable) (target : Target) (r : ResolvedVariable)
    (all : Progress) (s : NodeStore) (root : Nat) : Prop where
  steps : v.store.nodes.foldlM (step c) start = .ok all
  conformed : conformRoot c all.store (all.renumbered.getD v.root 0) target = .ok (s, root)
  left : r.store = selected s (s.reachable root)
  moments : ∀ done p, done <+: v.store.nodes → done.foldlM (step c) start = .ok p →
    Grows c .empty p.store ∧ Grows c p.store s ∧ Keeps p.store s

/-- Resolution gives well typed graphs, and never says two things of one node. -/
theorem resolve_wellTyped {functions : Functions} {source : Source} {definitions : Definitions} {name : String}
    {v : CompiledVariable} {target : Target} {r : ResolvedVariable}
    (hv : (Compilation.compile functions source definitions).compiled.get? name = some v)
    (h : resolve c v target = .ok r) :
    WellTyped c target r ∧ ∃ all s root, Rebuilt c v target r all s root := by
  have hlowered : Lowered (fun _ _ => True) v.store :=
    Compilation.compile_lowered (fun _ _ _ _ _ => trivial) hv
  have hplain : ∀ n ∈ v.store.nodes, Plain (fun _ _ => True) n.kind n.parents := by
    intro n hn
    obtain ⟨i, hi, rfl⟩ := List.getElem_of_mem hn
    exact (hlowered i _ (List.getElem?_eq_getElem hi)).2
  obtain ⟨p, s, root, hst⟩ := resolve_stages hlowered h
  have hp := hst.steps
  obtain ⟨hlaid, -⟩ := steps_grow hplain laidOut_empty hp
  obtain ⟨o, hyields, hnames, hunit⟩ := conformRoot_yields hlaid hst.conformed
  refine ⟨⟨?_, ?_, ?_⟩, p, s, root, hp, hst.conformed, hst.store, fun done p' hdone hp' => ?_⟩
  · exact hst.store ▸ laidOut_selected hyields.laidOut hst.closed
  · have hb : s.ParentsBelow := hyields.laidOut.parentsBelow
    rw [hst.store, hst.root, count_selected, last_reachable hb (hst.closed.lt _ hst.mem)]
    have := List.length_pos_of_mem hst.mem
    omega
  · obtain ⟨a, ha, ho⟩ := operandOf_eq_ok hyields.operand
    refine ⟨a, ?_, ?_, ?_⟩
    · rw [hst.store, hst.root]
      exact (alike_selected hst.closed hst.mem).layout.trans ha
    · rw [ho] at hnames
      exact hnames
    · rw [ho] at hunit
      exact hunit
  · obtain ⟨rest, hrest⟩ := hdone
    rw [← hrest] at hplain hp
    obtain ⟨hlaid', hgrows'⟩ := steps_grow (fun n hn => hplain n (List.mem_append_left _ hn)) laidOut_empty hp'
    rw [List.foldlM_append] at hp
    obtain ⟨mid, hmid, hp⟩ := bind_eq_ok.mp hp
    cases hmid.symm.trans hp'
    obtain ⟨-, hgrows⟩ := steps_grow (fun n hn => hplain n (List.mem_append_right _ hn)) hlaid' hp
    have hall := hgrows.trans hyields.grows
    exact ⟨hgrows', hall, Grows.keeps hall⟩

/-- Three inputs on one grid; that in another unit is used with both others. -/
def surfaces : Dataset :=
  let dims := [⟨"time", some 2⟩, ⟨"lat", some 1⟩]
  .ofList [("air", ⟨⟨dims, "K", .empty⟩, ⟨[2, 1], #[1, 2], rfl⟩⟩),
    ("land", ⟨⟨dims, "K", .empty⟩, ⟨[2, 1], #[3, 4], rfl⟩⟩),
    ("sea", ⟨⟨dims, "degC", .empty⟩, ⟨[2, 1], #[5, 6], rfl⟩⟩)]

def surfaceContext : Context := ⟨.builtins, surfaces.source, Measure.linear, .empty⟩

def surfaceTarget : Target := ⟨["lat", "time"], "K2", .empty⟩

def surfaceVariable : CompiledVariable :=
  ((Compilation.compile .builtins surfaces.source (.ofList [("out", "(air + sea) * (land + sea)")])).compiled.get?
    "out").get (by decide +kernel)

def surfaceResolved : ResolvedVariable :=
  (resolve surfaceContext surfaceVariable surfaceTarget).toOption.get (by decide +kernel)

/-- The shared input is converted by one node, and the root is reordered. -/
theorem resolve_wellTyped_shared :
    surfaceResolved.store.nodes.map (fun n => (n.kind, n.parents)) =
        [(.operand "air", []), (.operand "sea", []), (.convert "degC" "K", [1]), (.call "+" [] , [0, 2]),
          (.operand "land", []), (.call "+" [], [4, 2]), (.call "*" [], [3, 5]), (.transpose ⟨[1, 0]⟩, [6])] ∧
      WellTyped surfaceContext surfaceTarget surfaceResolved ∧
      ∃ all s root, Rebuilt surfaceContext surfaceVariable surfaceTarget surfaceResolved all s root := by
  have hr : resolve surfaceContext surfaceVariable surfaceTarget = .ok surfaceResolved :=
    toOption_eq_some.mp (Option.some_get _).symm
  obtain ⟨htyped, hrebuilt⟩ := resolve_wellTyped (Option.some_get _).symm hr
  exact ⟨by decide +kernel, htyped, hrebuilt⟩

end Concord.Resolution
