import Concord.Proofs.Graph.Amounts
import Concord.Proofs.Graph.Binding

/-! What the graph of a definition says. Written out from its root it is the expression of the definition, with the
    definitions that it refers to in place of their names and with every call bound to a function. Nothing is in it
    twice, and nothing else is in it. -/

namespace Concord

/-- An expression without references: what is done to what. -/
inductive Tree where
  | node (kind : NodeKind) (parents : List Tree)

/-- Puts definitions in place of their names, and binds the calls. -/
inductive Compilation.Inlines (functions : Functions) (source : Source) (definitions : Definitions) :
    Expr → Tree → Prop
  | number {x : Double} : Inlines functions source definitions (.number x) (.node (.literal x) [])
  | input {name : String} {m : InputMetadata} : source.describe name = some m →
      Inlines functions source definitions (.operand name) (.node (.operand name) [])
  | definition {name : String} {e : Expr} {t : Tree} : source.describe name = none → Means definitions name e →
      Inlines functions source definitions e t → Inlines functions source definitions (.operand name) t
  | call {name : String} {args : List Expr} {kwargs : List (String × Expr)} {call : BoundCall} {trees : List Tree} :
      functions.bind name args kwargs = .ok call → call.arrays.length = trees.length →
      (∀ e t, (e, t) ∈ call.arrays.zip trees → Inlines functions source definitions e t) →
      Inlines functions source definitions (.call name args kwargs) (.node (.call name call.options) trees)

section
variable {α β : Type} {R : α → β → Prop} {a : α} {l l' : List α} {m : List β}

theorem exists_of_forall₂ (h : List.Forall₂ R l m) (ha : a ∈ l) : ∃ b, R a b := by
  induction h with
  | nil => exact absurd ha List.not_mem_nil
  | cons hab _ ih =>
    rcases List.mem_cons.mp ha with rfl | ha
    · exact ⟨_, hab⟩
    · exact ih ha

theorem forall₂_inj (h : List.Forall₂ R l m) (h' : List.Forall₂ R l' m)
    (hinj : ∀ a ∈ l, ∀ a' b, R a b → R a' b → a = a') : l = l' := by
  induction h generalizing l' with
  | nil =>
    cases h'
    rfl
  | cons hab _ ih =>
    cases h' with
    | cons hab' hl' =>
      rw [hinj _ List.mem_cons_self _ _ hab hab', ih hl' fun a ha => hinj a (List.mem_cons_of_mem _ ha)]

end

/-! ### Graphs written out -/

namespace NodeStore

variable {s t : NodeStore} {i j p : Nat} {kind : NodeKind} {parents : List Nat}

/-- What stands at a node, with what is shared written out wherever it is used. -/
def unfold (s : NodeStore) (id : Nat) : Option Tree := s.pointAt (fun kind trees => some (.node kind trees)) id

/-- Nodes are told apart by what they do to which parents, and parents stand before their children. -/
structure Interned (s : NodeStore) : Prop where
  below : s.ParentsBelow
  distinct : s.keys.Nodup

/-- A node depends on another: that is one of its parents, or a parent of one, and so on. -/
abbrev Depends (s : NodeStore) : Nat → Nat → Prop := Relation.ReflTransGen fun i p => p ∈ s.parents i

theorem length_keys (s : NodeStore) : s.keys.length = s.count := List.length_map ..

theorem keys_eq_some (h : s.keys[i]? = some (kind, parents)) :
    i < s.count ∧ s.kind? i = some kind ∧ s.parents i = parents := by
  refine ⟨?_, ?_, ?_⟩
  · exact s.length_keys ▸ (List.getElem?_eq_some_iff.mp h).1
  · rw [kind_eq_keys, h]
    rfl
  · rw [parents_eq_keys, h]
    rfl

theorem exists_key (h : i < s.count) : ∃ kind parents, s.keys[i]? = some (kind, parents) :=
  ⟨_, _, List.getElem?_eq_getElem (by rwa [length_keys])⟩

theorem unfold_eq_some (hb : s.ParentsBelow) {tree : Tree} : s.unfold i = some tree ↔
    ∃ kind parents trees, s.keys[i]? = some (kind, parents) ∧
      List.Forall₂ (fun p t => s.unfold p = some t) parents trees ∧ tree = .node kind trees := by
  rw [unfold, pointAt_eq hb]
  constructor
  · intro h
    obtain ⟨trees, htrees, h⟩ := Option.bind_eq_some_iff.mp h
    obtain ⟨kind, hkind, h⟩ := Option.bind_eq_some_iff.mp h
    cases h
    rw [kind_eq_keys] at hkind
    obtain ⟨⟨kind', parents⟩, hkey, rfl⟩ := Option.map_eq_some_iff.mp hkind
    rw [(keys_eq_some hkey).2.2] at htrees
    exact ⟨_, parents, trees, hkey, mapM_eq_some.mp htrees, rfl⟩
  · rintro ⟨kind, parents, trees, hkey, htrees, rfl⟩
    obtain ⟨-, hkind, hparents⟩ := keys_eq_some hkey
    rw [hparents, hkind]
    exact Option.bind_eq_some_iff.mpr ⟨trees, mapM_eq_some.mpr htrees, rfl⟩

/-- Every node of a graph can be written out. -/
theorem exists_unfold (hb : s.ParentsBelow) (hi : i < s.count) : ∃ tree, s.unfold i = some tree := by
  induction i using Nat.strongRecOn with
  | ind i ih =>
    obtain ⟨kind, parents, hkey⟩ := exists_key hi
    cases htrees : parents.mapM s.unfold with
    | some trees => exact ⟨_, (unfold_eq_some hb).mpr ⟨kind, parents, trees, hkey, mapM_eq_some.mp htrees, rfl⟩⟩
    | none =>
      obtain ⟨p, hp, hnone⟩ := exists_of_mapM_eq_none htrees
      have hlt : p < i := hb i p ((keys_eq_some hkey).2.2 ▸ hp)
      obtain ⟨tree, htree⟩ := ih p hlt (Nat.lt_trans hlt hi)
      rw [hnone] at htree
      cases htree

theorem lt_of_unfold (hb : s.ParentsBelow) {tree : Tree} (h : s.unfold i = some tree) : i < s.count := by
  obtain ⟨kind, parents, -, hkey, -⟩ := (unfold_eq_some hb).mp h
  exact (keys_eq_some hkey).1

/-- No two nodes are the same, written out. -/
theorem Interned.unfold_inj (h : s.Interned) {tree : Tree} (hi : s.unfold i = some tree)
    (hj : s.unfold j = some tree) : i = j := by
  induction i using Nat.strongRecOn generalizing j tree with
  | ind i ih =>
    obtain ⟨kind, parents, trees, hkey, htrees, rfl⟩ := (unfold_eq_some h.below).mp hi
    obtain ⟨kind', parents', trees', hkey', htrees', heq⟩ := (unfold_eq_some h.below).mp hj
    cases heq
    have hparents : parents = parents' := by
      refine forall₂_inj htrees htrees' fun p hp p' t hp' hp'' => ?_
      exact ih p (h.below i p ((keys_eq_some hkey).2.2 ▸ hp)) hp' hp''
    rw [← hparents, ← hkey] at hkey'
    have hlt : i < s.keys.length := by
      rw [length_keys]
      exact (keys_eq_some hkey).1
    exact (List.getElem?_inj hlt h.distinct).mp hkey'.symm

/-! ### Graphs that grow -/

theorem key_of_isPrefix (h : s.keys <+: t.keys) (hi : i < s.count) : t.keys[i]? = s.keys[i]? := by
  obtain ⟨more, hmore⟩ := h
  rw [← hmore, List.getElem?_append_left (by rwa [length_keys])]

/-- More nodes behind a graph do not change what its nodes depend on. -/
theorem Depends.mono (hb : s.ParentsBelow) (h : s.keys <+: t.keys) (hi : i < s.count) (hp : s.Depends i p) :
    t.Depends i p := by
  have hlt : ∀ {q}, s.Depends i q → q < s.count := by
    intro q hq
    induction hq with
    | refl => exact hi
    | tail _ hstep ih => exact Nat.lt_trans (hb _ _ hstep) ih
  induction hp with
  | refl => exact .refl
  | tail hreach hstep ih =>
    refine ih.tail ?_
    rw [parents_eq_keys] at hstep ⊢
    rwa [key_of_isPrefix h (hlt hreach)]

theorem mem_reachable (hb : s.ParentsBelow) (hi : i < s.count) (h : s.Depends i p) : p ∈ s.reachable i := by
  induction h with
  | refl => exact self_mem_reachable hi
  | tail _ hstep ih => exact parent_mem_reachedThrough hb ih hstep rfl

/-- Adding a node keeps the nodes apart, and adds no node but that. -/
theorem Interned.add (h : s.Interned) (kind : NodeKind) (hp : ∀ p ∈ parents, p < s.count) :
    (s.add kind parents).1.Interned ∧
      ∀ i, s.count ≤ i → i < (s.add kind parents).1.count → i = (s.add kind parents).2 := by
  unfold NodeStore.add
  cases hl : s.lookup kind parents with
  | some id => exact ⟨h, fun i hi hlt => absurd hlt (Nat.not_lt.mpr hi)⟩
  | none =>
    refine ⟨⟨fun i p hmem => ?_, ?_⟩, fun i hi hlt => ?_⟩
    · rw [parents_append] at hmem
      split at hmem
      · rename_i hi
        exact hi ▸ hp p hmem
      · exact h.below i p hmem
    · rw [keys_append]
      refine List.nodup_append.mpr ⟨h.distinct, List.nodup_singleton _, fun a ha b hb heq => ?_⟩
      rw [List.mem_singleton.mp hb] at heq
      exact lookup_none hl (heq ▸ ha)
    · rw [count_append] at hlt
      exact Nat.le_antisymm (Nat.le_of_lt_succ hlt) hi

end NodeStore

namespace Compilation

/-! ### What lowering writes -/

section
variable {c : Context} {e : Expr} {es : List Expr} {s u : NodeStore} {ids : List Nat} {r : NodeStore × Nat} {fuel : Nat}

/-- An expression is in a graph that grew, and all that is new belongs to it. -/
structure Writes (c : Context) (e : Expr) (s : NodeStore) (r : NodeStore × Nat) : Prop where
  interned : r.1.Interned
  keys : s.keys <+: r.1.keys
  tree : ∃ t, Inlines c.functions c.source c.definitions e t ∧ r.1.unfold r.2 = some t
  new : ∀ i, s.count ≤ i → i < r.1.count → r.1.Depends r.2 i

/-- So it is with several expressions. -/
structure WritesAll (c : Context) (es : List Expr) (s u : NodeStore) (ids : List Nat) : Prop where
  interned : u.Interned
  keys : s.keys <+: u.keys
  trees : ∃ ts, List.Forall₂ (Inlines c.functions c.source c.definitions) es ts ∧
    List.Forall₂ (fun id t => u.unfold id = some t) ids ts
  new : ∀ i, s.count ≤ i → i < u.count → ∃ id ∈ ids, u.Depends id i

theorem WritesAll.none (h : s.Interned) : WritesAll c [] s s [] where
  interned := h
  keys := List.prefix_rfl
  trees := ⟨[], .nil, .nil⟩
  new _ hi hlt := absurd hlt (Nat.not_lt.mpr hi)

theorem WritesAll.cons (h : Writes c e s r) (hs : WritesAll c es r.1 u ids) : WritesAll c (e :: es) s u (r.2 :: ids) where
  interned := hs.interned
  keys := h.keys.trans hs.keys
  trees := by
    obtain ⟨t, ht, hunfold⟩ := h.tree
    obtain ⟨ts, hts, hall⟩ := hs.trees
    have hlt := NodeStore.lt_of_unfold h.interned.below hunfold
    refine ⟨t :: ts, .cons ht hts, .cons ?_ hall⟩
    rw [← hunfold]
    exact NodeStore.pointAt_of_keys h.interned.below hs.interned.below hs.keys hlt
  new i hi hlt := by
    rcases Nat.lt_or_ge i r.1.count with hold | hnew
    · obtain ⟨t, -, hunfold⟩ := h.tree
      have hroot := NodeStore.lt_of_unfold h.interned.below hunfold
      exact ⟨r.2, List.mem_cons_self, (h.new i hi hold).mono h.interned.below hs.keys hroot⟩
    · obtain ⟨id, hid, hdepends⟩ := hs.new i hnew hlt
      exact ⟨id, List.mem_cons_of_mem _ hid, hdepends⟩

/-- A node that is added to what is written is written as well. -/
theorem WritesAll.add {kind : NodeKind} (h : WritesAll c es s u ids)
    (he : ∀ ts, List.Forall₂ (Inlines c.functions c.source c.definitions) es ts →
      Inlines c.functions c.source c.definitions e (.node kind ts)) : Writes c e s (u.add kind ids) := by
  obtain ⟨ts, hts, hall⟩ := h.trees
  have hids : ∀ p ∈ ids, p < u.count := by
    intro p hp
    obtain ⟨t, ht⟩ := exists_of_forall₂ hall hp
    exact NodeStore.lt_of_unfold h.interned.below ht
  obtain ⟨hkeys, hkey⟩ := NodeStore.keys_add u kind ids
  obtain ⟨hinterned, hone⟩ := h.interned.add kind hids
  refine ⟨hinterned, h.keys.trans hkeys, ⟨_, he ts hts, ?_⟩, fun i hi hlt => ?_⟩
  · refine (NodeStore.unfold_eq_some hinterned.below).mpr ⟨kind, ids, ts, hkey, ?_, rfl⟩
    refine hall.imp fun p t ht => ?_
    rw [← ht]
    exact NodeStore.pointAt_of_keys h.interned.below hinterned.below hkeys
      (NodeStore.lt_of_unfold h.interned.below ht)
  · rcases Nat.lt_or_ge i u.count with hold | hnew
    · obtain ⟨p, hp, hdepends⟩ := h.new i hi hold
      refine .head ?_ (hdepends.mono h.interned.below hkeys (hids p hp))
      rwa [(NodeStore.keys_eq_some hkey).2.2]
    · rw [hone i hnew hlt]

theorem foldlM_lowerNext_writes
    (hlower : ∀ (e : Expr) {s : NodeStore} {r : NodeStore × Nat}, s.Interned → lower c fuel e s = .ok r → Writes c e s r) :
    ∀ (es : List Expr) {acc r : NodeStore × List Nat}, acc.1.Interned → es.foldlM (lowerNext c fuel) acc = .ok r →
      ∃ ids, r.2 = acc.2 ++ ids ∧ WritesAll c es acc.1 r.1 ids
  | [], _, _, hs, h => by
    cases h
    exact ⟨[], (List.append_nil _).symm, .none hs⟩
  | e :: es, acc, r, hs, h => by
    obtain ⟨r', hr', h⟩ := foldlM_lowerNext_cons h
    have hfirst := hlower e hs hr'
    obtain ⟨ids, hids, hrest⟩ := foldlM_lowerNext_writes hlower es hfirst.interned h
    exact ⟨r'.2 :: ids, by rw [hids, List.append_assoc, List.singleton_append], hrest.cons hfirst⟩

/-- What an expression is lowered to is the expression, with the definitions that it needs in place. -/
theorem lower_writes (hparsed : ∀ v e, c.parsed.get? v = some e → Means c.definitions v e) :
    ∀ (fuel : Nat) (e : Expr) {s : NodeStore} {r : NodeStore × Nat}, s.Interned → lower c fuel e s = .ok r →
      Writes c e s r
  | 0, _, _, _, _, h => by
    obtain ⟨_, hfuel, -⟩ := lower_cases h
    cases hfuel
  | fuel + 1, e, s, r, hs, h => by
    obtain ⟨_, ⟨⟩, hr⟩ := lower_cases h
    cases hr with
    | number =>
      refine (WritesAll.none hs).add fun ts hts => ?_
      cases hts
      exact .number
    | input href =>
      refine (WritesAll.none hs).add fun ts hts => ?_
      cases hts
      exact .input (resolve_input.mp href)
    | definition href he h =>
      obtain ⟨rfl, hinput, -⟩ := resolve_definition.mp href
      have hw := lower_writes hparsed fuel _ hs h
      obtain ⟨t, ht, hunfold⟩ := hw.tree
      exact ⟨hw.interned, hw.keys, ⟨t, .definition hinput (hparsed _ _ he) ht, hunfold⟩, hw.new⟩
    | @call _ _ _ call _ _ hcall ht =>
      obtain ⟨ids, hids, hall⟩ := foldlM_lowerNext_writes (fun e => lower_writes hparsed fuel e) call.arrays hs ht
      dsimp only at hids
      rw [hids, List.nil_append]
      refine hall.add fun ts hts => ?_
      obtain ⟨hlen, hzip⟩ := List.forall₂_iff_zip.mp hts
      exact .call hcall hlen fun _ _ => hzip

end

/-! ### What is put in place -/

section
variable {functions : Functions} {source : Source} {definitions : Definitions} {name d : String} {e : Expr} {t : Tree}
  {v : CompiledVariable}

/-- There is one way to put definitions in place of their names. -/
theorem Inlines.unique {t' : Tree} (h : Inlines functions source definitions e t)
    (h' : Inlines functions source definitions e t') : t = t' := by
  induction h generalizing t' with
  | number =>
    cases h'
    rfl
  | input hm =>
    cases h' with
    | input => rfl
    | definition hnone _ _ =>
      rw [hm] at hnone
      cases hnone
  | definition hnone he _ ih =>
    cases h' with
    | input hm =>
      rw [hm] at hnone
      cases hnone
    | definition _ he' ht' => exact ih (he.unique he' ▸ ht')
  | call hcall hlen _ ih =>
    cases h' with
    | call hcall' hlen' hall' =>
      cases hcall.symm.trans hcall'
      congr 1
      refine List.ext_getElem (hlen.symm.trans hlen') fun i hi hi' => ?_
      have hi'' := hlen ▸ hi
      refine ih _ _ (List.mem_iff_getElem.mpr ⟨i, by simp [hi, hi''], List.getElem_zip⟩) ?_
      exact hall' _ _ (List.mem_iff_getElem.mpr ⟨i, by simp [hi', hi''], List.getElem_zip⟩)

/-- From what can be put in place of names, references lead to an end. -/
theorem Inlines.ends (h : Inlines functions source definitions e t) (hd : Uses source definitions e d) :
    Acc (fun d w => Refers source definitions w d) d := by
  induction h generalizing d with
  | number => cases hd.operand
  | input hm =>
    cases hd.operand
    have hnone := hd.input
    rw [hm] at hnone
    cases hnone
  | definition _ he _ ih =>
    cases hd.operand
    refine .intro _ fun d' ⟨e', he', hd'⟩ => ?_
    exact ih (he.unique he' ▸ hd')
  | call hcall hlen _ ih =>
    rcases within_call_iff.mp hd.operand with heq | ⟨a, ha, hwithin⟩
    · cases heq
    · rcases (Functions.bind_binds hcall).rest a ha with hmem | hliteral
      · obtain ⟨i, hi, rfl⟩ := List.mem_iff_getElem.mp hmem
        have hi' := hlen ▸ hi
        exact ih _ _ (List.mem_iff_getElem.mpr ⟨i, by simp [hi, hi'], List.getElem_zip⟩) ⟨hwithin, hd.input, hd.defined⟩
      · cases hliteral <;> cases hwithin

/-- The graph of a definition was written into an empty one. -/
theorem compile_writes (h : (compile functions source definitions).compiled.get? name = some v) :
    Writes ⟨functions, source, definitions, (parseAll definitions).1⟩ v.expression .empty (v.store, v.root) := by
  have hempty : NodeStore.empty.Interned := ⟨fun _ _ hp => absurd hp List.not_mem_nil, List.nodup_nil⟩
  exact lower_writes (fun _ _ => parseAll_parsed.mp) _ _ hempty (compile_graphOf h).lowered

/-- The graph of a definition is its expression, with the definitions that it refers to in place of their names, at
    once and through others, and with every call bound. Equal parts of it are one node, and no node is left over. To
    get there takes an end, however much room there is for the nesting. -/
structure Inlined (functions : Functions) (source : Source) (definitions : Definitions) (name : String)
    (v : CompiledVariable) : Prop where
  means : Means definitions name v.expression
  tree : ∃ t, v.store.unfold v.root = some t ∧ ∀ t', Inlines functions source definitions v.expression t' ↔ t' = t
  unfolds : ∀ i < v.store.count, ∃ t, v.store.unfold i = some t
  shared : ∀ i j t, v.store.unfold i = some t → v.store.unfold j = some t → i = j
  reached : v.store.reachable v.root = List.range v.store.count
  ends : Acc (fun d w => Refers source definitions w d) name
  settled : ∀ more, lower ⟨functions, source, definitions, (parseAll definitions).1⟩
    (nesting (parseAll definitions).1 + v.expression.height + more) v.expression .empty = .ok (v.store, v.root)

theorem compile_inlined (h : (compile functions source definitions).compiled.get? name = some v) :
    Inlined functions source definitions name v := by
  obtain ⟨-, hparsed, hlower⟩ := compile_graphOf h
  have hmeans := parseAll_parsed.mp hparsed
  have hw := compile_writes h
  obtain ⟨t, ht, hunfold⟩ := hw.tree
  have hroot := NodeStore.lt_of_unfold hw.interned.below hunfold
  refine ⟨hmeans, ⟨t, hunfold, fun t' => ⟨fun ht' => ht'.unique ht, fun heq => heq ▸ ht⟩⟩,
    fun i hi => NodeStore.exists_unfold hw.interned.below hi, fun i j t => hw.interned.unfold_inj, ?_, ?_, fun more => ?_⟩
  · refine List.filter_eq_self.mpr fun i hi => ?_
    have hdepends := hw.new i (Nat.zero_le _) (List.mem_range.mp hi)
    exact (List.mem_filter.mp (NodeStore.mem_reachable hw.interned.below hroot hdepends)).2
  · refine .intro _ fun d ⟨e, he, hd⟩ => ht.ends (he.unique hmeans ▸ hd)
  · rw [lower_more _ _ _ _ (by rw [hlower]; simp), hlower]

/-- A series and definitions of which one refers to another twice, and both to a third. -/
def series : Dataset :=
  .ofList [("t", ⟨⟨[⟨"time", some 2⟩], "K", .empty⟩, ⟨[2], #[1, 3], rfl⟩⟩)]

def seriesDefinitions : Definitions :=
  .ofList [("anomaly", "t - average"), ("average", "mean(t, dim='time')"), ("spread", "anomaly * anomaly / average")]

def seriesVariable : CompiledVariable :=
  ((compile .builtins series.source seriesDefinitions).compiled.get? "spread").get (by decide +kernel)

/-- Each definition is in the graph once, whatever refers to it. -/
theorem compile_inlined_spread :
    seriesVariable.store.nodes.map (fun n => (n.kind, n.parents)) =
        [(.operand "t", []), (.call "mean" [("dim", .text "time")], [0]), (.call "-" [], [0, 1]),
          (.call "*" [], [2, 2]), (.call "/" [], [3, 1])] ∧
      Inlined .builtins series.source seriesDefinitions "spread" seriesVariable :=
  ⟨by decide +kernel, compile_inlined (Option.some_get _).symm⟩

end

end Compilation
end Concord
