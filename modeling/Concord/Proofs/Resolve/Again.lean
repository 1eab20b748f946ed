import Concord.Proofs.Graph.Inlined
import Concord.Proofs.Resolve.Core
import Concord.Proofs.Resolve.WellTyped

/-! What resolution puts into a graph. Units are converted only where they differ, and axes are reordered at most once:
    at the root, or right below a conversion there. -/

namespace Concord.Resolution

open NodeStore

variable {c : Context} {s t : NodeStore} {kind other : NodeKind} {parents : List Nat} {a : Layout} {i id root : Nat}
  {r : NodeStore × Nat} {Q : NodeKind → Prop}

/-! ### Kinds of nodes -/

/-- What all nodes of a graph do is of some kind. -/
def AllKinds (Q : NodeKind → Prop) (s : NodeStore) : Prop := ∀ i kind, s.kind? i = some kind → Q kind

theorem kind_of_keys (h : s.keys = t.keys) (i : Nat) : s.kind? i = t.kind? i := by
  rw [kind_eq_keys, kind_eq_keys, h]

/-- A node of a graph to which one was added was there before, or is that one. -/
theorem kind_addWithLayout (h : (s.addWithLayout kind parents a).1.kind? i = some other) :
    s.kind? i = some other ∨ i = (s.addWithLayout kind parents a).2 ∧ other = kind := by
  cases hl : s.lookup kind parents with
  | some id =>
    rw [addWithLayout_hit hl, kind_of_keys keys_setLayout] at h
    exact .inl h
  | none =>
    rw [addWithLayout_miss hl] at h ⊢
    obtain ⟨n, hn, rfl⟩ := Option.map_eq_some_iff.mp h
    rcases node_of_append hn with hn | ⟨rfl, rfl⟩
    · exact .inl (kind_of_node hn)
    · exact .inr ⟨rfl, rfl⟩

theorem AllKinds.addWithLayout (hs : AllKinds Q s) (hkind : Q kind) : AllKinds Q (s.addWithLayout kind parents a).1 := by
  intro i other h
  rcases kind_addWithLayout h with h | ⟨-, rfl⟩
  · exact hs i other h
  · exact hkind

/-- Conversions are put in where units differ. -/
def Differing (Q : NodeKind → Prop) : Prop :=
  ∀ source target, Measure.sameUnit source target = false → Q (.convert source target)

theorem convertNode_kinds {target : String} (hQ : Differing Q) (hs : AllKinds Q s)
    (h : convertNode c s id target = .ok r) : AllKinds Q r.1 := by
  obtain ⟨b, -, h⟩ := bind_eq_ok.mp h
  split at h
  · cases h
    exact hs
  · rename_i hdiffer
    split at h
    · cases h
      exact hs.addWithLayout (hQ _ _ (Bool.eq_false_iff.mpr hdiffer))
    · cases h

theorem convertInputs_kinds (hQ : Differing Q) : ∀ (conversions : List (Nat × String)) {s : NodeStore}
    {inputs : List Nat} {r : NodeStore × List Nat}, AllKinds Q s → convertInputs c s inputs conversions = .ok r →
      AllKinds Q r.1
  | [], _, _, _, hs, h => by
    cases h
    exact hs
  | (i, target) :: rest, s, inputs, r, hs, h => by
    rw [convertInputs] at h
    obtain ⟨⟨t, j⟩, ht, h⟩ := bind_eq_ok.mp h
    exact convertInputs_kinds hQ rest (convertNode_kinds hQ hs ht) h

/-! ### While nodes are resolved -/

/-- What a node does before the root is arranged: it reorders no axes, and converts only into another unit. -/
def Unarranged : NodeKind → Prop
  | .transpose _ => False
  | .convert source target => Measure.sameUnit source target = false
  | .literal _ => True
  | .operand _ => True
  | .call _ _ => True

theorem unarranged_differing : Differing Unarranged := fun _ _ h => h

theorem addCall_unarranged {function : String} {options : CallOptions} (hlaid : LaidOut c s) (hs : AllKinds Unarranged s)
    (h : addCall c s function options parents = .ok r) : AllKinds Unarranged r.1 := by
  cases called hlaid h with
  | convert _ _ _ hr => exact convertNode_kinds unarranged_differing hs hr
  | call _ _ _ _ hinputs _ =>
    exact (convertInputs_kinds unarranged_differing _ hs hinputs).addWithLayout (show Unarranged (.call _ _) from trivial)

theorem addNode_unarranged {p : Progress} {n : Node} {native : NameMap Signature} (hlaid : LaidOut c p.store)
    (hplain : Plain (fun _ _ => True) n.kind n.parents) (hp : AllKinds Unarranged p.store)
    (h : addNode c p n = .ok (t, id, native)) : AllKinds Unarranged t := by
  unfold addNode at h
  cases hk : n.kind with
  | literal x =>
    rw [hk] at h
    cases h
    exact hp.addWithLayout (show Unarranged (.literal x) from trivial)
  | operand name =>
    rw [hk] at h
    dsimp only at h
    split at h
    · cases h
    · cases h
      exact hp.addWithLayout (show Unarranged (.operand name) from trivial)
  | call function options =>
    rw [hk] at h
    obtain ⟨⟨u, j⟩, hu, h⟩ := bind_eq_ok.mp h
    cases h
    exact addCall_unarranged hlaid hp hu
  | convert source target =>
    rw [hk] at hplain
    exact hplain.elim
  | transpose order =>
    rw [hk] at hplain
    exact hplain.elim

theorem steps_unarranged {v : NodeStore} {p : Progress} (hv : Lowered (fun _ _ => True) v)
    (h : v.nodes.foldlM (step c) start = .ok p) : LaidOut c p.store ∧ AllKinds Unarranged p.store := by
  refine foldlM_induction (P := fun _ p => LaidOut c p.store ∧ AllKinds Unarranged p.store) v.nodes ?_
    (List.nil_append _).symm ⟨laidOut_empty, fun _ _ h => by cases h⟩ h
  rintro done n rest p p' hall ⟨hlaid, hp⟩ hstep
  have hn : v.node? done.length = some n := by
    unfold NodeStore.node?
    rw [hall, List.getElem?_append_right (Nat.le_refl _), Nat.sub_self]
    rfl
  obtain ⟨-, hplain⟩ := hv done.length n hn
  obtain ⟨⟨t, id, native⟩, ht, hstep⟩ := bind_eq_ok.mp hstep
  cases hstep
  obtain ⟨o, hyields⟩ := addNode_yields hlaid hplain ht
  exact ⟨hyields.laidOut, addNode_unarranged hlaid hplain hp ht⟩

/-! ### The root -/

/-- A node is the root, or all that the root does is to convert its unit. -/
def AtRoot (s : NodeStore) (root i : Nat) : Prop :=
  i = root ∨ (∃ source target, s.kind? root = some (.convert source target)) ∧ s.parents root = [i]

/-- In a graph with some root, units are converted only into others, and axes are reordered at the root only. -/
structure Arranged (s : NodeStore) (root : Nat) : Prop where
  differ : ∀ i source target, s.kind? i = some (.convert source target) → Measure.sameUnit source target = false
  reordered : ∀ i order, s.kind? i = some (.transpose order) → AtRoot s root i

/-- So there is at most one node that reorders axes. -/
theorem Arranged.reordered_unique (h : Arranged s root) {j : Nat} {order order' : Permutation}
    (hi : s.kind? i = some (.transpose order)) (hj : s.kind? j = some (.transpose order')) : i = j := by
  rcases h.reordered i order hi with rfl | ⟨⟨source, target, hkind⟩, hparents⟩
  · rcases h.reordered j order' hj with rfl | ⟨⟨source, target, hkind⟩, -⟩
    · rfl
    · rw [hi] at hkind
      cases hkind
  · rcases h.reordered j order' hj with rfl | ⟨-, hparents'⟩
    · rw [hj] at hkind
      cases hkind
    · exact List.singleton_inj.mp (hparents.symm.trans hparents')

theorem arranged_of_unarranged (hs : AllKinds Unarranged s) : Arranged s root where
  differ i _ _ h := hs i _ h
  reordered i _ h := (hs i _ h).elim

/-- A node of a graph in which no axes are reordered is put behind a node that reorders them. -/
theorem arranged_transpose {order : Permutation} (hs : AllKinds Unarranged s) :
    Arranged (s.addWithLayout (.transpose order) parents a).1 (s.addWithLayout (.transpose order) parents a).2 where
  differ i _ _ h := by
    rcases kind_addWithLayout h with h | ⟨-, h⟩
    · exact hs i _ h
    · cases h
  reordered i _ h := by
    rcases kind_addWithLayout h with h | ⟨hi, -⟩
    · exact (hs i _ h).elim
    · exact .inl hi

/-- A conversion of the root takes its place. -/
theorem arranged_convert {target : String} (hs : Arranged s root)
    (hreordered : ∀ i order, s.kind? i = some (.transpose order) → i = root)
    (h : convertNode c s root target = .ok r) : Arranged r.1 r.2 := by
  obtain ⟨b, -, h⟩ := bind_eq_ok.mp h
  split at h
  · cases h
    exact hs
  · rename_i hdiffer
    split at h
    · cases h
      refine ⟨fun i source target h => ?_, fun i order h => ?_⟩
      · rcases kind_addWithLayout h with h | ⟨-, h⟩
        · exact hs.differ i _ _ h
        · cases h
          exact Bool.eq_false_iff.mpr hdiffer
      · rcases kind_addWithLayout h with h | ⟨-, h⟩
        · obtain rfl := hreordered i order h
          obtain ⟨-, hkind, hparents⟩ := keys_eq_some (keys_addWithLayout s (.convert b.unit target) [i] ⟨b.dims, target⟩)
          exact .inr ⟨⟨_, _, hkind⟩, hparents⟩
        · cases h
    · cases h

theorem conformRoot_arranged {target : Target} (hs : AllKinds Unarranged s) (h : conformRoot c s id target = .ok r) :
    Arranged r.1 r.2 := by
  obtain ⟨⟨t, j⟩, ht, h⟩ := bind_eq_ok.mp h
  obtain ⟨b, -, ht⟩ := bind_eq_ok.mp ht
  dsimp only at ht
  split at ht
  · cases ht
    exact arranged_convert (arranged_of_unarranged hs) (fun i order hi => (hs i _ hi).elim) h
  · split at ht
    · cases ht
    · rename_i order _
      cases ht
      refine arranged_convert (arranged_transpose hs) (fun i other hi => ?_) h
      rcases kind_addWithLayout hi with hi | ⟨hi, -⟩
      · exact (hs i _ hi).elim
      · exact hi

/-! ### What is left of it -/

theorem arranged_selected {ids : List Nat} (hs : Arranged s root) (h : Closed s ids) (hroot : root ∈ ids) :
    Arranged (selected s ids) (ids.idxOf root) := by
  -- The nodes that are left are nodes of the graph under new numbers.
  have hold : ∀ {i kind}, (selected s ids).kind? i = some kind → ∃ id ∈ ids, ids.idxOf id = i ∧ s.kind? id = some kind := by
    intro i kind hi
    have hlt : i < ids.length := count_selected (s := s) ▸ lt_of_kind hi
    refine ⟨ids[i], List.getElem_mem hlt, h.nodup.idxOf_getElem i hlt, ?_⟩
    rw [← (alike_selected h (List.getElem_mem hlt)).kind, h.nodup.idxOf_getElem i hlt]
    exact hi
  refine ⟨fun i source target hi => ?_, fun i order hi => ?_⟩
  · obtain ⟨id, -, -, hid⟩ := hold hi
    exact hs.differ id source target hid
  · obtain ⟨id, -, rfl, hid⟩ := hold hi
    rcases hs.reordered id order hid with rfl | ⟨⟨source, target, hkind⟩, hparents⟩
    · exact .inl rfl
    · refine .inr ⟨⟨source, target, (alike_selected h hroot).kind.trans hkind⟩, ?_⟩
      rw [parents_selected h hroot, hparents]
      rfl

/-- Resolved graphs are arranged. -/
theorem resolve_arranged {v : CompiledVariable} {target : Target} {w : ResolvedVariable}
    (hv : Lowered (fun _ _ => True) v.store) (h : resolve c v target = .ok w) : Arranged w.store w.root := by
  obtain ⟨p, s, root, hst⟩ := resolve_stages hv h
  obtain ⟨-, hkinds⟩ := steps_unarranged hv hst.steps
  rw [hst.store, hst.root]
  exact arranged_selected (conformRoot_arranged hkinds hst.conformed) hst.closed hst.mem

end Concord.Resolution

/-! Resolution changes nothing but units and the order of axes, and what is resolved once is resolved: a second
    resolution towards the same target gives the same graph. Each node is added as it is, behind the same nodes as
    before, because what is known of it is what would be inferred of it, and no parent has to be converted. -/

namespace Concord.Resolution

open NodeStore

variable {c : Context} {s t : NodeStore} {kind : NodeKind} {parents : List Nat} {a : Layout} {root : Nat}

/-! ### Resolving a node that has its layout -/

/-- A node that has the layout that follows for it is added as it is. -/
theorem addNode_of_layoutOf {p : Progress} {n : Node} (ha : n.layout = some a)
    (h : LayoutOf c p.store n.kind (n.parents.map fun id => p.renumbered.getD id 0) a) :
    ∃ native, addNode c p n = .ok ((p.store.addWithLayout n.kind (n.parents.map fun id => p.renumbered.getD id 0) a).1,
      (p.store.addWithLayout n.kind (n.parents.map fun id => p.renumbered.getD id 0) a).2, native) := by
  unfold addNode
  generalize (n.parents.map fun id => p.renumbered.getD id 0) = ids at h ⊢
  generalize n.kind = kind at h ⊢
  cases h with
  | literal => exact ⟨_, rfl⟩
  | operand hm =>
    dsimp only
    rw [hm]
    exact ⟨_, rfl⟩
  | convert | transpose =>
    dsimp only
    rw [ha]
    exact ⟨_, rfl⟩
  | call hf hkernel hoperands hdims hunit =>
    refine ⟨p.native, bind_eq_ok.mpr ⟨_, ?_, rfl⟩⟩
    unfold addCall
    rw [hf]
    dsimp only
    rw [hoperands]
    dsimp only [Bind.bind, Except.bind]
    rw [if_neg hkernel, hdims, hunit]
    rfl

theorem map_getD_range {n : Nat} (h : ∀ p ∈ parents, p < n) :
    parents.map (fun id => (List.range n).getD id 0) = parents := by
  conv_rhs => rw [← List.map_id parents]
  refine List.map_congr_left fun p hp => ?_
  rw [List.getD_eq_getElem?_getD, List.getElem?_range (h p hp)]
  rfl

/-- The nodes of a graph, resolved up to one of them under their own numbers, are followed by that one. -/
theorem step_again {done rest : List Node} {n : Node} (native : NameMap Signature) (hs : LaidOut c s)
    (hdistinct : s.keys.Nodup) (hall : s.nodes = done ++ n :: rest) :
    ∃ native', step c ⟨⟨done⟩, List.range done.length, native⟩ n =
      .ok ⟨⟨done ++ [n]⟩, List.range (done.length + 1), native'⟩ := by
  have hn : s.node? done.length = some n := by
    unfold NodeStore.node?
    rw [hall, List.getElem?_append_right (Nat.le_refl _), Nat.sub_self]
    rfl
  obtain ⟨hbelow, a, ha, hlayout⟩ := hs done.length n hn
  have hkeeps : Keeps ⟨done⟩ s := ⟨n :: rest, hall.symm⟩
  have hearlier : LayoutOf c ⟨done⟩ n.kind n.parents a := by
    refine hlayout.congr fun p hp => ?_
    obtain ⟨m, hm⟩ := exists_node (s := ⟨done⟩) (hbelow p hp)
    have hm' := hkeeps.node hm
    exact ⟨by unfold NodeStore.layout?; rw [hm, hm'], by rw [kind_of_node hm, kind_of_node hm']⟩
  have hparents := map_getD_range (n := done.length) hbelow
  obtain ⟨native', hadd⟩ := addNode_of_layoutOf (p := ⟨⟨done⟩, List.range done.length, native⟩) ha
    (by dsimp only; rwa [hparents])
  -- No earlier node does the same.
  have hnew : NodeStore.lookup ⟨done⟩ n.kind n.parents = none := by
    cases hl : NodeStore.lookup ⟨done⟩ n.kind n.parents with
    | none => rfl
    | some i =>
      obtain ⟨m, hm, hk, hp⟩ := lookup_some hl
      have hi : i < done.length := lt_count hm
      have hkeys : s.keys[i]? = s.keys[done.length]? := by
        rw [keys, List.getElem?_map, List.getElem?_map, show s.nodes[i]? = some m from hkeeps.node hm,
          show s.nodes[done.length]? = some n from hn, Option.map_some, Option.map_some, hk, hp]
      have hlt : i < s.keys.length := length_keys s ▸ lt_count (hkeeps.node hm)
      exact absurd ((List.getElem?_inj hlt hdistinct).mp hkeys) (Nat.ne_of_lt hi)
  dsimp only at hadd
  rw [hparents, addWithLayout_miss hnew, ← ha] at hadd
  refine ⟨native', bind_eq_ok.mpr ⟨_, hadd, ?_⟩⟩
  rw [List.range_succ]
  rfl

theorem steps_again (hs : LaidOut c s) (hdistinct : s.keys.Nodup) :
    ∀ (rest done : List Node) (native : NameMap Signature), s.nodes = done ++ rest →
      ∃ native', rest.foldlM (step c) ⟨⟨done⟩, List.range done.length, native⟩ = .ok ⟨s, List.range s.count, native'⟩
  | [], done, native, hall => by
    obtain rfl : s = ⟨done⟩ := congrArg NodeStore.mk (hall.trans (List.append_nil done))
    exact ⟨native, rfl⟩
  | n :: rest, done, native, hall => by
    obtain ⟨native', hstep⟩ := step_again native hs hdistinct hall
    have hlen : (done ++ [n]).length = done.length + 1 := List.length_append
    obtain ⟨native'', hsteps⟩ := steps_again hs hdistinct rest (done ++ [n]) native'
      (hall.trans (List.append_assoc done [n] rest).symm)
    rw [hlen] at hsteps
    exact ⟨native'', foldlM_cons_eq_ok.mpr ⟨_, hstep, hsteps⟩⟩

/-! ### The root -/

/-- A root that has the layout of the target stays. -/
theorem conformRoot_again {target : Target} (ha : s.layout? root = some a)
    (hnames : Signature.names a.dims = target.dimensions) (hunit : Measure.sameUnit a.unit target.units = true) :
    conformRoot c s root target = .ok (s, root) := by
  have hlayout := layoutOf_iff.mpr ha
  refine bind_eq_ok.mpr ⟨(s, root), bind_eq_ok.mpr ⟨a, hlayout, if_pos hnames⟩, ?_⟩
  exact bind_eq_ok.mpr ⟨a, hlayout, if_pos hunit⟩

/-- All nodes of a graph, under their own numbers, are the graph. -/
theorem selected_range (hb : s.ParentsBelow) : selected s (List.range s.count) = s := by
  refine congrArg NodeStore.mk (List.ext_getElem? fun i => ?_)
  rw [List.getElem?_map]
  cases hn : s.node? i with
  | none =>
    have hle : s.count ≤ i := List.getElem?_eq_none_iff.mp hn
    rw [List.getElem?_eq_none (by rwa [List.length_range])]
    exact hn.symm
  | some n =>
    have hi := lt_count hn
    rw [List.getElem?_range hi, Option.map_some, renumbered_of_node hn]
    refine (congrArg some ?_).trans hn.symm
    refine congrArg (fun ids => { n with parents := ids }) ?_
    conv_rhs => rw [← List.map_id n.parents]
    refine List.map_congr_left fun p hp => ?_
    have hp' : p < s.count := Nat.lt_trans (hb i p (parents_of_node hn ▸ hp)) hi
    have := List.nodup_range (n := s.count) |>.idxOf_getElem p (by rwa [List.length_range])
    rwa [List.getElem_range] at this

/-- Nothing is left out of a graph in which all bears on the root. -/
theorem reachable_of_connected (hb : s.ParentsBelow) (hroot : root < s.count) (h : Connected s root) :
    s.reachable root = List.range s.count := by
  refine List.filter_eq_self.mpr fun i hi => ?_
  have hmem := h (· ∈ s.reachable root) (self_mem_reachable hroot)
    (fun i hi p hp => parent_mem_reachedThrough hb hi hp rfl) i (List.mem_range.mp hi)
  exact (List.mem_filter.mp hmem).2

/-- A resolved variable, resolved again towards its target, has the same graph. -/
theorem resolve_again {Fit : String → CallOptions → Prop} {target : Target} {w : ResolvedVariable}
    (hw : WellTyped c target w) (hres : Resolved c Fit w) :
    ∃ native, resolve c ⟨w.name, w.expression, w.store, w.root⟩ target =
      .ok ⟨w.name, w.expression, w.store, w.root, native, target⟩ := by
  have hb := hw.laidOut.parentsBelow
  obtain ⟨native, hsteps⟩ := steps_again hw.laidOut hres.typed.distinct w.store.nodes [] .empty rfl
  obtain ⟨a, ha, hnames, hunit⟩ := hw.root
  refine ⟨native, bind_eq_ok.mpr ⟨_, hsteps, ?_⟩⟩
  have hroot : (List.range w.store.count).getD w.root 0 = w.root := by
    rw [List.getD_eq_getElem?_getD, List.getElem?_range hres.root]
    rfl
  have hcompact : compact w.store w.root = w.store := by
    rw [compact_eq_selected hres.typed, reachable_of_connected hb hres.root hres.connected, selected_range hb]
  refine bind_eq_ok.mpr ⟨(w.store, w.root), ?_, ?_⟩
  · dsimp only
    rw [hroot]
    exact conformRoot_again ha hnames hunit
  · dsimp only
    rw [hcompact, ← hw.last, Nat.add_sub_cancel]

/-! ### Resolved variables -/

/-- What resolution leaves of a graph: without conversions of units and reorderings of axes it is, written out, the graph
    before without its calls that convert. Units are converted only into others, axes reordered by one node at most, at
    the root, and to resolve it again makes no difference. -/
structure Unchanged (c : Context) (v : CompiledVariable) (target : Target) (w : ResolvedVariable) : Prop where
  computes : ∃ before after, v.store.unfold v.root = some before ∧ w.store.unfold w.root = some after ∧
    after.core ⟨[]⟩ = before.core c.functions
  differ : ∀ i source unit, w.store.kind? i = some (.convert source unit) → Measure.sameUnit source unit = false
  reordered : ∀ i order, w.store.kind? i = some (.transpose order) → AtRoot w.store w.root i
  reordered_once : ∀ i j order order', w.store.kind? i = some (.transpose order) →
    w.store.kind? j = some (.transpose order') → i = j
  again : ∃ native, resolve c ⟨w.name, w.expression, w.store, w.root⟩ target =
    .ok ⟨w.name, w.expression, w.store, w.root, native, target⟩

/-- Resolution does not change what is computed. A call that converts no array has nothing to stand for it and is not
    resolved, so there are none. -/
theorem resolve_unchanged {functions : Functions} {source : Source} {definitions : Definitions} {name : String}
    {v : CompiledVariable} {target : Target} {w : ResolvedVariable}
    (hv : (Compilation.compile functions source definitions).compiled.get? name = some v)
    (hsupplied : Supplied c.functions v.store) (h : resolve c v target = .ok w) : Unchanged c v target w := by
  have hlowered : Lowered (fun _ _ => True) v.store := Compilation.compile_lowered (fun _ _ _ _ _ => trivial) hv
  have hwrites := Compilation.compile_writes hv
  obtain ⟨before, -, hbefore⟩ := hwrites.tree
  obtain ⟨-, after, hafter, hcore⟩ := resolve_core (noneElse_empty _) hsupplied hlowered hwrites.interned.below hbefore h
  have harranged := resolve_arranged hlowered h
  exact ⟨⟨before, after, hbefore, hafter, hcore⟩, harranged.differ, harranged.reordered,
    fun _ _ _ _ => harranged.reordered_unique,
    resolve_again (resolve_wellTyped hv h).1 (resolve_resolved hlowered h).1⟩

def balance : CompiledVariable :=
  ((Compilation.compile .builtins surfaces.source
    (.ofList [("warm", "convert(air, units='degC') + sea"), ("out", "warm - land")])).compiled.get? "out").get
    (by decide +kernel)

def balanceTarget : Target := ⟨["lat", "time"], "K", .empty⟩

def balanceResolved : ResolvedVariable :=
  (resolve surfaceContext balance balanceTarget).toOption.get (by decide +kernel)

/-- One conversion for a call, one for an argument and one for the root, which is reordered below it. -/
theorem resolve_unchanged_balance :
    balance.store.nodes.map (fun n => (n.kind, n.parents)) =
        [(.operand "air", []), (.call "convert" [("units", .text "degC")], [0]), (.operand "sea", []),
          (.call "+" [], [1, 2]), (.operand "land", []), (.call "-" [], [3, 4])] ∧
      balanceResolved.store.nodes.map (fun n => (n.kind, n.parents)) =
        [(.operand "air", []), (.convert "K" "degC", [0]), (.operand "sea", []), (.call "+" [], [1, 2]),
          (.operand "land", []), (.convert "K" "degC", [4]), (.call "-" [], [3, 5]), (.transpose ⟨[1, 0]⟩, [6]),
          (.convert "degC" "K", [7])] ∧
      Unchanged surfaceContext balance balanceTarget balanceResolved := by
  have hr : resolve surfaceContext balance balanceTarget = .ok balanceResolved :=
    toOption_eq_some.mp (Option.some_get _).symm
  exact ⟨by decide +kernel, by decide +kernel,
    resolve_unchanged (Option.some_get _).symm (Functions.builtins_convertsOne.supplied _) hr⟩

end Concord.Resolution
