import Concord.Proofs.Graph.Inlined

/-! The inputs of a definition: those that its text names, and those of the definitions that it refers to. They are the
    inputs of its graph. -/

namespace Concord

variable {x : String}

/-! ### Inputs of trees -/

/-- A tree has an input among its leaves. -/
inductive Tree.Reads (x : String) : Tree → Prop
  | leaf {parents : List Tree} : Reads x (.node (.operand x) parents)
  | part {kind : NodeKind} {parents : List Tree} {t : Tree} : t ∈ parents → Reads x t → Reads x (.node kind parents)

theorem Tree.reads_node {kind : NodeKind} {parents : List Tree} :
    Tree.Reads x (.node kind parents) ↔ kind = .operand x ∨ ∃ t ∈ parents, t.Reads x := by
  constructor
  · intro h
    cases h with
    | leaf => exact .inl rfl
    | part ht h => exact .inr ⟨_, ht, h⟩
  · rintro (rfl | ⟨t, ht, h⟩)
    · exact .leaf
    · exact .part ht h

theorem Tree.reads_leaf {kind : NodeKind} : Tree.Reads x (.node kind []) ↔ kind = .operand x := by
  rw [Tree.reads_node]
  exact or_iff_left fun ⟨_, ht, _⟩ => absurd ht List.not_mem_nil

namespace NodeStore

variable {s : NodeStore} {i j root : Nat} {tree : Tree}

/-- The inputs of a graph, written out from a node, are those that the node depends on. -/
theorem reads_unfold (hb : s.ParentsBelow) (h : s.unfold i = some tree) :
    tree.Reads x ↔ ∃ j, s.Depends i j ∧ s.kind? j = some (.operand x) := by
  induction i using Nat.strongRecOn generalizing tree with
  | ind i ih =>
    obtain ⟨kind, parents, trees, hkey, htrees, rfl⟩ := (unfold_eq_some hb).mp h
    obtain ⟨-, hkind, hparents⟩ := keys_eq_some hkey
    have hbelow : ∀ p ∈ parents, p < i := fun p hp => hb i p (hparents ▸ hp)
    rw [Tree.reads_node]
    constructor
    · rintro (rfl | ⟨t, ht, hreads⟩)
      · exact ⟨i, .refl, hkind⟩
      · obtain ⟨n, hn, rfl⟩ := List.mem_iff_getElem.mp ht
        have hn' : n < parents.length := htrees.length_eq ▸ hn
        have hp : parents[n] ∈ parents := List.getElem_mem hn'
        obtain ⟨j, hdepends, hj⟩ := (ih _ (hbelow _ hp) (htrees.get hn' hn)).mp hreads
        exact ⟨j, .head (hparents ▸ hp) hdepends, hj⟩
    · rintro ⟨j, hdepends, hj⟩
      rcases Relation.ReflTransGen.cases_head hdepends with rfl | ⟨p, hp, hdepends⟩
      · exact .inl (Option.some.inj (hkind.symm.trans hj))
      · rw [hparents] at hp
        obtain ⟨n, hn, rfl⟩ := List.mem_iff_getElem.mp hp
        have hn' : n < trees.length := htrees.length_eq ▸ hn
        exact .inr ⟨trees[n], List.getElem_mem hn', (ih _ (hbelow _ hp) (htrees.get hn hn')).mpr ⟨j, hdepends, hj⟩⟩

theorem mem_reachable_iff (hb : s.ParentsBelow) (hroot : root < s.count) : j ∈ s.reachable root ↔ s.Depends root j := by
  refine ⟨fun h => ?_, mem_reachable hb hroot⟩
  refine reachedThrough_induction (P := s.Depends root) (fun i hi _ p hp => hi.tail hp) (fun i hi => ?_) j h
  rw [List.mem_singleton.mp hi]

theorem mem_operands (hb : s.ParentsBelow) (h : s.unfold root = some tree) : x ∈ s.operands root ↔ tree.Reads x := by
  have hentries : (s.reachable root).filterMap (fun id =>
      ((s.kind? id).bind NodeKind.input?).map fun name => (name, ())) =
        ((s.reachable root).filterMap fun id => (s.kind? id).bind NodeKind.input?).map fun name => (name, ()) := by
    rw [List.map_filterMap]
  rw [reads_unfold hb h, operands, hentries, NameMap.mem_keys_ofList_map, List.mem_filterMap]
  refine exists_congr fun j => ?_
  rw [mem_reachable_iff hb (lt_of_unfold hb h), Option.bind_eq_some_iff]
  refine and_congr_right fun _ => ⟨?_, fun hj => ⟨_, hj, rfl⟩⟩
  rintro ⟨kind, hkind, hinput⟩
  cases kind <;> cases hinput
  exact hkind

end NodeStore

/-! ### Inputs of definitions -/

namespace Compilation

variable {functions : Functions} {source : Source} {definitions : Definitions} {name : String} {e : Expr} {t : Tree}
  {v : CompiledVariable}

/-- An input that an expression names, or one of a definition that it refers to. -/
inductive InputOf (source : Source) (definitions : Definitions) (x : String) : Expr → Prop
  | named {e : Expr} {m : InputMetadata} : (Expr.operand x).Within e → source.describe x = some m →
      InputOf source definitions x e
  | through {e e' : Expr} {d : String} : (Expr.operand d).Within e → source.describe d = none → Means definitions d e' →
      InputOf source definitions x e' → InputOf source definitions x e

theorem InputOf.within {a : Expr} (h : InputOf source definitions x a) (ha : a.Within e) :
    InputOf source definitions x e := by
  cases h with
  | named hx hm => exact .named (hx.trans ha) hm
  | through hd hnone he h => exact .through (hd.trans ha) hnone he h

/-- Only names are references. -/
theorem InputOf.exists_operand (h : InputOf source definitions x e) : ∃ d, (Expr.operand d).Within e := by
  cases h with
  | named hx => exact ⟨_, hx⟩
  | through hd => exact ⟨_, hd⟩

/-- An input is one of itself only. -/
theorem inputOf_described {m : InputMetadata} (hm : source.describe name = some m) :
    InputOf source definitions x (.operand name) ↔ name = x := by
  constructor
  · intro h
    cases h with
    | named hx =>
      cases hx
      rfl
    | through hd hnone =>
      cases hd
      cases hm.symm.trans hnone
  · rintro rfl
    exact .named .self hm

/-- A definition has the inputs of its expression. -/
theorem inputOf_defined (hnone : source.describe name = none) (he : Means definitions name e) :
    InputOf source definitions x (.operand name) ↔ InputOf source definitions x e := by
  refine ⟨fun h => ?_, fun h => .through .self hnone he h⟩
  cases h with
  | named hx hm =>
    cases hx
    cases hm.symm.trans hnone
  | through hd _ he' h =>
    cases hd
    exact he.unique he' ▸ h

theorem inputOf_call {args : List Expr} {kwargs : List (String × Expr)} :
    InputOf source definitions x (.call name args kwargs) ↔
      ∃ a, Argument args kwargs a ∧ InputOf source definitions x a := by
  constructor
  · intro h
    cases h with
    | named hx hm =>
      rcases within_call_iff.mp hx with heq | ⟨a, ha, hx⟩
      · cases heq
      · exact ⟨a, ha, .named hx hm⟩
    | through hd hnone he h =>
      rcases within_call_iff.mp hd with heq | ⟨a, ha, hd⟩
      · cases heq
      · exact ⟨a, ha, .through hd hnone he h⟩
  · rintro ⟨a, ha, h⟩
    exact h.within (ha.within .self name)

/-- Members in the same place of two lists come with each other. -/
theorem exists_mem_zip {α β : Type} {as : List α} {bs : List β} (h : as.length = bs.length) :
    (∀ a ∈ as, ∃ b ∈ bs, (a, b) ∈ as.zip bs) ∧ ∀ b ∈ bs, ∃ a ∈ as, (a, b) ∈ as.zip bs := by
  have hzip : ∀ i (ha : i < as.length) (hb : i < bs.length), (as[i], bs[i]) ∈ as.zip bs := fun i ha hb =>
    List.mem_iff_getElem.mpr ⟨i, by simp [ha, hb], List.getElem_zip⟩
  constructor
  · intro a ha
    obtain ⟨i, hi, rfl⟩ := List.mem_iff_getElem.mp ha
    exact ⟨_, List.getElem_mem (h ▸ hi), hzip i hi (h ▸ hi)⟩
  · intro b hb
    obtain ⟨i, hi, rfl⟩ := List.mem_iff_getElem.mp hb
    exact ⟨_, List.getElem_mem (h.symm ▸ hi), hzip i (h.symm ▸ hi) hi⟩

/-- With definitions in place of their names, an expression has its inputs as leaves. -/
theorem Inlines.reads_iff (h : Inlines functions source definitions e t) :
    t.Reads x ↔ InputOf source definitions x e := by
  induction h with
  | number =>
    rw [Tree.reads_leaf]
    refine ⟨fun h => (nomatch h), fun h => ?_⟩
    obtain ⟨d, hd⟩ := h.exists_operand
    cases hd
  | input hm => rw [Tree.reads_leaf, NodeKind.operand.injEq, inputOf_described hm]
  | definition hnone he _ ih => rw [ih, inputOf_defined hnone he]
  | call hcall hlen _ ih =>
    have hbinds := Functions.bind_binds hcall
    obtain ⟨hbound, htree⟩ := exists_mem_zip hlen
    rw [Tree.reads_node, inputOf_call]
    constructor
    · rintro (h | ⟨t, ht, hreads⟩)
      · cases h
      · obtain ⟨a, ha, hzip⟩ := htree t ht
        exact ⟨a, hbinds.argument a ha, (ih a t hzip).mp hreads⟩
    · rintro ⟨a, ha, h⟩
      rcases hbinds.rest a ha with hmem | hliteral
      · obtain ⟨t, ht, hzip⟩ := hbound a hmem
        exact .inr ⟨t, ht, (ih a t hzip).mpr h⟩
      · -- What is not bound to an array is a number or a text.
        obtain ⟨d, hd⟩ := h.exists_operand
        cases hliteral <;> cases hd

/-- The inputs of a compiled definition are those that its expression names, at once or through others. -/
theorem mem_inputs (h : (compile functions source definitions).compiled.get? name = some v) :
    x ∈ v.inputs ↔ InputOf source definitions x v.expression := by
  have hw := compile_writes h
  obtain ⟨t, ht, hunfold⟩ := hw.tree
  exact (NodeStore.mem_operands hw.interned.below hunfold).trans ht.reads_iff

end Compilation
end Concord
