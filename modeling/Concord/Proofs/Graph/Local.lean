import Mathlib.Data.List.GetD
import Mathlib.Data.List.Sort
import Concord.Proofs.Graph.Explained
import Concord.Proofs.Graph.Walks

/-! What a definition depends on: on itself and on those that it mentions, at once and through others. Where two sets
    of definitions agree on these, the same becomes of it in both. -/

namespace Concord.Compilation

open Relation (TransGen ReflTransGen)

variable {functions : Functions} {source : Source} {definitions definitions' : Definitions} {v w d : String} {e : Expr}

/-! ### Definitions in their turn -/

/-- A definition is to be compiled: nothing has become of it except for an early failure, and what it refers to has
    failed iff it is faulty. -/
structure Turn (functions : Functions) (source : Source) (definitions : Definitions) (v : String) (p : Progress) :
    Prop where
  early : p.failures.get? v = (earlyFailures source definitions).get? v
  fresh : p.compiled.get? v = none
  failed : ∀ d, Refers source definitions v d → (p.failures.contains d = true ↔ Faulty functions source definitions d)

/-- What has become of one definition: a failure, a graph, or nothing. -/
def Progress.at (p : Progress) (v : String) : Option Failure × Option CompiledVariable :=
  (p.failures.get? v, p.compiled.get? v)

theorem compileOne_other {c : Context} {names : List String} {g : Digraph} {p : Progress} (h : v ≠ w) :
    (compileOne c names g p w).at v = p.at v := by
  unfold compileOne
  split
  · rfl
  · split
    · simp [Progress.at, NameMap.get?_insert, h]
    · split
      · rfl
      · split <;> simp [Progress.at, NameMap.get?_insert, h]

theorem foldl_compileOne_other {c : Context} {names : List String} {g : Digraph} :
    ∀ {l : List String} {p : Progress}, v ∉ l → (l.foldl (compileOne c names g) p).at v = p.at v
  | [], _, _ => rfl
  | w :: l, p, h => by
    rw [List.mem_cons, not_or] at h
    rw [List.foldl_cons, foldl_compileOne_other h.2, compileOne_other h.1]

/-- Nothing becomes of what is not in the order, except for an early failure. -/
theorem at_of_not_mem (functions : Functions) (hv : v ∉ compileOrder source definitions) :
    (compileAll functions source definitions).at v = ((earlyFailures source definitions).get? v, none) := by
  obtain ⟨hearly, hnone⟩ := (compileAll_compiled functions source definitions).pending v hv
  exact Prod.ext hearly hnone

/-- What becomes of a definition off cycles becomes of it in its turn. -/
theorem exists_turn (functions : Functions) (hv : v ∈ compileOrder source definitions) :
    ∃ p, Turn functions source definitions v p ∧ (compileAll functions source definitions).at v =
      (compileOne ⟨functions, source, definitions, (parseAll definitions).1⟩ definitions.keys
        (linked source definitions).1 p v).at v := by
  have horders := compileOrder_orders source definitions
  obtain ⟨done, rest, hsplit⟩ := List.append_of_mem hv
  have hinitial : done ++ v :: rest <+: compileOrder source definitions := hsplit ▸ List.prefix_rfl
  have h := compileSome_compiled functions ((List.prefix_append _ _).trans hinitial)
  have hfresh := horders.fresh hinitial
  obtain ⟨hearly, hnone⟩ := h.pending v hfresh
  refine ⟨_, ⟨hearly, hnone, fun d hd => h.failed_iff (early_spec functions source definitions)
    (horders.before hinitial d hd)⟩, ?_⟩
  have hrest : v ∉ rest := by
    have hnodup := horders.nodup
    rw [hsplit] at hnodup
    exact (List.nodup_cons.mp (List.nodup_append.mp hnodup).2.1).1
  rw [compileAll, hsplit, List.foldl_append, List.foldl_cons, foldl_compileOne_other hrest]
  rfl

theorem compileOne_at_congr {c c' : Context} {names names' : List String} {g g' : Digraph} {p p' : Progress}
    (hearly : p.failures.get? v = p'.failures.get? v) (hfresh : p.compiled.get? v = none)
    (hfresh' : p'.compiled.get? v = none)
    (hdep : failedDependency names g p.failures v = failedDependency names' g' p'.failures v)
    (hparsed : c.parsed.get? v = c'.parsed.get? v)
    (hlower : p.failures.get? v = none → failedDependency names g p.failures v = none → ∀ e, c.parsed.get? v = some e →
      lower c (nesting c.parsed + e.height) e .empty = lower c' (nesting c'.parsed + e.height) e .empty) :
    (compileOne c names g p v).at v = (compileOne c' names' g' p' v).at v := by
  have hsame : p.at v = p'.at v := Prod.ext hearly (hfresh.trans hfresh'.symm)
  unfold compileOne
  rw [NameMap.contains, NameMap.contains, ← hearly, ← hdep, ← hparsed]
  cases hfailure : p.failures.get? v with
  | some f => exact hsame
  | none =>
    simp only [Option.isSome_none, Bool.false_eq_true, if_false]
    cases hfirst : failedDependency names g p.failures v with
    | some d => simp [Progress.at, NameMap.get?_insert, hfresh, hfresh']
    | none =>
      cases he : c.parsed.get? v with
      | none => exact hsame
      | some e =>
        dsimp only
        rw [← hlower hfailure hfirst e he]
        cases lower c (nesting c.parsed + e.height) e .empty with
        | ok r => simp [Progress.at, NameMap.get?_insert, ← hearly, hfailure]
        | error f => simp [Progress.at, NameMap.get?_insert, hfresh, hfresh']

/-! ### Agreement -/

/-- A definition mentions itself, and what no input is named like among the operands of those that it mentions. -/
inductive Mentions (source : Source) (definitions : Definitions) (v : String) : String → Prop where
  | self : Mentions source definitions v v
  | operand {w d : String} {e : Expr} : Mentions source definitions v w → Means definitions w e →
      (Expr.operand d).Within e → source.describe d = none → Mentions source definitions v d

theorem Mentions.trans (h : Mentions source definitions v w) (h' : Mentions source definitions w d) :
    Mentions source definitions v d := by
  induction h' with
  | self => exact h
  | operand _ he hwithin hinput ih => exact .operand ih he hwithin hinput

theorem Refers.mentions (h : Refers source definitions v d) : Mentions source definitions v d := by
  obtain ⟨e, he, huses⟩ := h
  exact .operand .self he huses.operand huses.input

/-- Two sets of definitions are the same as far as a definition goes. -/
def Agree (source : Source) (definitions definitions' : Definitions) (v : String) : Prop :=
  ∀ d, Mentions source definitions v d → definitions.get? d = definitions'.get? d

namespace Agree

theorem same (h : Agree source definitions definitions' v) : definitions.get? v = definitions'.get? v := h v .self

theorem contains (h : Agree source definitions definitions' v) : definitions.contains v = definitions'.contains v :=
  congrArg Option.isSome h.same

theorem means (h : Agree source definitions definitions' v) (he : Means definitions v e) : Means definitions' v e := by
  obtain ⟨text, htext, hparse⟩ := he
  exact ⟨text, h.same ▸ htext, hparse⟩

theorem mentioned (h : Agree source definitions definitions' v) (hw : Mentions source definitions v w) :
    Agree source definitions definitions' w := fun d hd => h d (hw.trans hd)

theorem symm (h : Agree source definitions definitions' v) : Agree source definitions' definitions v := by
  have hback : ∀ d, Mentions source definitions' v d → Mentions source definitions v d := by
    intro d hd
    induction hd with
    | self => exact .self
    | operand _ he hwithin hinput ih =>
      obtain ⟨text, htext, hparse⟩ := he
      exact .operand ih ⟨text, (h _ ih).trans htext, hparse⟩ hwithin hinput
  exact fun d hd => (h d (hback d hd)).symm

theorem operand (h : Agree source definitions definitions' v) (he : Means definitions v e)
    (hd : (Expr.operand d).Within e) (hinput : source.describe d = none) : Agree source definitions definitions' d :=
  h.mentioned (.operand .self he hd hinput)

/-- Names mean the same. -/
theorem resolve (h : source.describe d = none → Agree source definitions definitions' d) :
    resolve source definitions d = Compilation.resolve source definitions' d := by
  unfold Compilation.resolve
  cases hinput : source.describe d with
  | some m => rfl
  | none => rw [(h hinput).contains]

theorem refers (h : Agree source definitions definitions' v) (hd : Refers source definitions v d) :
    Refers source definitions' v d := by
  have hagree := h.mentioned hd.mentions
  obtain ⟨e, he, huses⟩ := hd
  exact ⟨e, h.means he, huses.operand, huses.input, hagree.contains ▸ huses.defined⟩

theorem refers_iff (h : Agree source definitions definitions' v) :
    Refers source definitions v d ↔ Refers source definitions' v d := ⟨h.refers, h.symm.refers⟩

theorem reach (h : Agree source definitions definitions' v) (hw : ReflTransGen (Refers source definitions) v w) :
    ReflTransGen (Refers source definitions') v w ∧ Agree source definitions definitions' w := by
  induction hw with
  | refl => exact ⟨.refl, h⟩
  | tail _ hd ih => exact ⟨ih.1.tail (ih.2.refers hd), ih.2.mentioned hd.mentions⟩

theorem leads (h : Agree source definitions definitions' v) (hw : TransGen (Refers source definitions) v w) :
    TransGen (Refers source definitions') v w := by
  obtain ⟨d, hd, hw⟩ := TransGen.head'_iff.mp hw
  exact .head' (h.refers hd) ((h.mentioned hd.mentions).reach hw).1

theorem leads_iff (h : Agree source definitions definitions' v) :
    TransGen (Refers source definitions) v w ↔ TransGen (Refers source definitions') v w := ⟨h.leads, h.symm.leads⟩

theorem broken (h : Agree source definitions definitions' v) (hv : Broken functions source definitions v) :
    Broken functions source definitions' v := by
  cases hv with
  | malformed htext hparse => exact .malformed (h.same ▸ htext) hparse
  | unresolved he hwithin hinput hdefined =>
    exact .unresolved (h.means he) hwithin hinput ((h.operand he hwithin hinput).contains ▸ hdefined)
  | unbindable he hwithin herror => exact .unbindable (h.means he) hwithin herror
  | bare he => exact .bare (h.means he)
  | cyclic hcycle => exact .cyclic (h.leads hcycle)

theorem faulty (h : Agree source definitions definitions' v) (hv : Faulty functions source definitions v) :
    Faulty functions source definitions' v := by
  obtain ⟨w, hreach, hbroken⟩ := hv
  obtain ⟨hreach', hw⟩ := h.reach hreach
  exact ⟨w, hreach', hw.broken hbroken⟩

theorem faulty_iff (h : Agree source definitions definitions' v) :
    Faulty functions source definitions v ↔ Faulty functions source definitions' v := ⟨h.faulty, h.symm.faulty⟩

theorem parsed (h : Agree source definitions definitions' v) :
    (parseAll definitions).1.get? v = (parseAll definitions').1.get? v :=
  Option.ext fun _ => parseAll_parsed.trans (Iff.trans ⟨h.means, h.symm.means⟩ parseAll_parsed.symm)

theorem firstUnresolved (h : Agree source definitions definitions' v) (he : Means definitions v e) :
    firstUnresolved source definitions e = Compilation.firstUnresolved source definitions' e := by
  unfold Compilation.firstUnresolved
  rw [← List.head?_filterMap, ← List.head?_filterMap]
  refine congrArg List.head? (List.filterMap_congr fun d hd => ?_)
  rw [resolve (h.operand he (Expr.mem_operandNames.mp hd))]

theorem linked (h : Agree source definitions definitions' v) :
    (linked source definitions).2.get? v = (Compilation.linked source definitions').2.get? v := by
  have hfailed : (parseAll definitions).2.get? v = (parseAll definitions').2.get? v := by
    refine Option.ext fun f => ?_
    rw [parseAll_failed, parseAll_failed, h.same]
  rw [linked_failures, linked_failures, hfailed, ← h.parsed]
  cases he : (parseAll definitions).1.get? v with
  | none => rfl
  | some e =>
    dsimp only [Option.bind]
    rw [h.firstUnresolved (parseAll_parsed.mp he)]

end Agree

/-! ### Numbers of definitions -/

theorem keys_lt {i j : Nat} (hij : i < j) (hj : j < definitions.keys.length) :
    definitions.keys.getD i "" < definitions.keys.getD j "" := by
  have hsorted : definitions.keys.Pairwise (· < ·) := List.pairwise_map.mpr definitions.sorted
  rw [List.getD_eq_getElem _ _ (Nat.lt_trans hij hj), List.getD_eq_getElem _ _ hj]
  exact List.pairwise_iff_getElem.mp hsorted i j _ hj hij

theorem idxOf_getD {i : Nat} (hi : i < definitions.keys.length) :
    definitions.keys.idxOf (definitions.keys.getD i "") = i := by
  rw [List.getD_eq_getElem _ _ hi]
  exact definitions.nodup_keys.idxOf_getElem i hi

/-- Numbers are in the order of the names. -/
theorem idxOf_lt (hv : v ∈ definitions.keys) (hw : w ∈ definitions.keys) (h : v < w) :
    definitions.keys.idxOf v < definitions.keys.idxOf w := by
  rcases Nat.lt_trichotomy (definitions.keys.idxOf v) (definitions.keys.idxOf w) with hlt | heq | hgt
  · exact hlt
  · rw [(List.idxOf_inj hv).mp heq] at h
    exact absurd h (String.lt_irrefl _)
  · have := keys_lt hgt (List.idxOf_lt_length_of_mem hv)
    rw [getD_idxOf hv, getD_idxOf hw] at this
    exact absurd (String.lt_trans h this) (String.lt_irrefl _)

/-- The number that a definition has in another set. -/
def renumber (definitions definitions' : Definitions) (i : Nat) : Nat :=
  definitions'.keys.idxOf (definitions.keys.getD i "")

theorem renumber_idxOf (hv : v ∈ definitions.keys) :
    renumber definitions definitions' (definitions.keys.idxOf v) = definitions'.keys.idxOf v := by
  rw [renumber, getD_idxOf hv]

/-- Some names, each by its number, in order. -/
structure Numbers (definitions : Definitions) (names : String → Prop) (l : List Nat) : Prop where
  sorted : l.Pairwise (· < ·)
  mem : ∀ i, i ∈ l ↔ ∃ v, names v ∧ v ∈ definitions.keys ∧ i = definitions.keys.idxOf v

theorem Numbers.nodup {names : String → Prop} {l : List Nat} (h : Numbers definitions names l) : l.Nodup :=
  h.sorted.imp Nat.ne_of_lt

/-- The numbers of names that two sets have in common are told by each other. -/
theorem Numbers.map {names names' : String → Prop} {l l' : List Nat} (h : Numbers definitions names l)
    (h' : Numbers definitions' names' l') (hnames : ∀ v, names v ↔ names' v)
    (hboth : ∀ v, names v → (v ∈ definitions.keys ↔ v ∈ definitions'.keys)) :
    l' = l.map (renumber definitions definitions') := by
  have hsorted : (l.map (renumber definitions definitions')).Pairwise (· < ·) := by
    refine List.pairwise_map.mpr (h.sorted.imp_of_mem fun {i j} hi hj hij => ?_)
    obtain ⟨v, hv, hmem, rfl⟩ := (h.mem i).mp hi
    obtain ⟨w, hw, hmem', rfl⟩ := (h.mem j).mp hj
    rw [renumber_idxOf hmem, renumber_idxOf hmem']
    refine idxOf_lt ((hboth v hv).mp hmem) ((hboth w hw).mp hmem') ?_
    have := keys_lt hij (List.idxOf_lt_length_of_mem hmem')
    rwa [getD_idxOf hmem, getD_idxOf hmem'] at this
  refine h'.sorted.eq_of_mem_iff hsorted fun j => ?_
  rw [h'.mem, List.mem_map]
  constructor
  · rintro ⟨v, hv, hmem, rfl⟩
    have hv := (hnames v).mpr hv
    have hmem' := (hboth v hv).mpr hmem
    exact ⟨_, (h.mem _).mpr ⟨v, hv, hmem', rfl⟩, renumber_idxOf hmem'⟩
  · rintro ⟨i, hi, rfl⟩
    obtain ⟨v, hv, hmem, rfl⟩ := (h.mem i).mp hi
    exact ⟨v, (hnames v).mp hv, (hboth v hv).mp hmem, renumber_idxOf hmem⟩

section
variable {g : Digraph}

/-- The successors of a definition are those that it refers to. -/
theorem Draws.successors (h : Draws source definitions g) (hv : v ∈ definitions.keys) :
    Numbers definitions (Refers source definitions v) (g.successors (definitions.keys.idxOf v)) where
  sorted := List.Pairwise.filter _ List.pairwise_lt_range
  mem j := by
    constructor
    · intro hj
      have hlt : j < definitions.keys.length := h.count ▸ (show g.Edge _ j from hj).lt
      have hrefers := h.refers hj
      rw [getD_idxOf hv] at hrefers
      exact ⟨_, hrefers, hrefers.mem_keys_right, (idxOf_getD hlt).symm⟩
    · rintro ⟨d, hd, -, rfl⟩
      exact h.edge hd

theorem Draws.leads_iff (h : Draws source definitions g) (hv : v ∈ definitions.keys) (hw : w ∈ definitions.keys) :
    g.Leads (definitions.keys.idxOf v) (definitions.keys.idxOf w) ↔ TransGen (Refers source definitions) v w := by
  constructor
  · intro hleads
    have hreach : TransGen (Refers source definitions) (definitions.keys.getD (definitions.keys.idxOf v) "")
        (definitions.keys.getD (definitions.keys.idxOf w) "") :=
      hleads.lift (fun i => definitions.keys.getD i "") fun _ _ => h.refers
    rwa [getD_idxOf hv, getD_idxOf hw] at hreach
  · exact fun hreach => hreach.lift (fun v => definitions.keys.idxOf v) fun _ _ => h.edge

theorem Draws.hasEdge_iff (h : Draws source definitions g) (hv : v ∈ definitions.keys) (hw : w ∈ definitions.keys) :
    g.hasEdge (definitions.keys.idxOf v) (definitions.keys.idxOf w) = true ↔ Refers source definitions v w := by
  unfold Digraph.hasEdge
  rw [List.contains_iff_mem, h.edges]
  constructor
  · rintro ⟨v', d, hd, heq⟩
    obtain ⟨hv', hw'⟩ := Prod.ext_iff.mp heq
    rwa [(List.idxOf_inj hv).mp hv', (List.idxOf_inj hw).mp hw']
  · exact fun hrefers => ⟨v, w, hrefers, rfl⟩

/-- Definitions refer to each other, at once or through others. -/
def Together (source : Source) (definitions : Definitions) (v w : String) : Prop :=
  TransGen (Refers source definitions) v w ∧ TransGen (Refers source definitions) w v

/-- The component of a definition are those that it shares a cycle with. -/
theorem Draws.component (h : Draws source definitions g) (hv : v ∈ definitions.keys) :
    Numbers definitions (Together source definitions v) (g.component (definitions.keys.idxOf v)) where
  sorted := List.Pairwise.filter _ List.pairwise_lt_range
  mem j := by
    have hidx : definitions.keys.idxOf v < g.count := h.count ▸ List.idxOf_lt_length_of_mem hv
    rw [Digraph.mem_component hidx]
    constructor
    · intro hj
      have hlt : j < definitions.keys.length := h.count ▸ hj.1.lt
      have hmem : definitions.keys.getD j "" ∈ definitions.keys := by
        rw [List.getD_eq_getElem _ _ hlt]
        exact List.getElem_mem hlt
      rw [← idxOf_getD hlt, h.leads_iff hv hmem, h.leads_iff hmem hv] at hj
      exact ⟨_, hj, hmem, (idxOf_getD hlt).symm⟩
    · rintro ⟨w, hw, hmem, rfl⟩
      rwa [h.leads_iff hv hmem, h.leads_iff hmem hv]

end

/-! ### Cycles -/

namespace Agree

theorem keys (h : Agree source definitions definitions' v) : v ∈ definitions.keys ↔ v ∈ definitions'.keys := by
  rw [NameMap.mem_keys, NameMap.mem_keys, h.contains]

theorem together_iff (h : Agree source definitions definitions' v) :
    Together source definitions v w ↔ Together source definitions' v w := by
  constructor
  · exact fun hw => ⟨h.leads hw.1, (h.reach hw.1.to_reflTransGen).2.leads hw.2⟩
  · exact fun hw => ⟨h.symm.leads hw.1, (h.symm.reach hw.1.to_reflTransGen).2.leads hw.2⟩

theorem successors (h : Agree source definitions definitions' v) (hv : v ∈ definitions.keys) :
    (Compilation.linked source definitions').1.successors (definitions'.keys.idxOf v) =
      ((Compilation.linked source definitions).1.successors (definitions.keys.idxOf v)).map
        (renumber definitions definitions') :=
  ((linked_draws source definitions).successors hv).map ((linked_draws source definitions').successors (h.keys.mp hv))
    (fun _ => h.refers_iff) fun _ hd => (h.mentioned hd.mentions).keys

theorem component (h : Agree source definitions definitions' v) (hv : v ∈ definitions.keys) :
    (Compilation.linked source definitions').1.component (definitions'.keys.idxOf v) =
      ((Compilation.linked source definitions).1.component (definitions.keys.idxOf v)).map
        (renumber definitions definitions') :=
  ((linked_draws source definitions).component hv).map ((linked_draws source definitions').component (h.keys.mp hv))
    (fun _ => h.together_iff) fun _ hw => (h.reach hw.1.to_reflTransGen).2.keys

theorem renumbers (h : Agree source definitions definitions' v) (hv : v ∈ definitions.keys) :
    Digraph.Renumbers (Compilation.linked source definitions).1 (Compilation.linked source definitions').1
      ((Compilation.linked source definitions).1.component (definitions.keys.idxOf v))
      (renumber definitions definitions') := by
  have hdraws := linked_draws source definitions
  have hdraws' := linked_draws source definitions'
  have hcomponent := hdraws.component hv
  have hcomponent' := hdraws'.component (h.keys.mp hv)
  -- The members of the component are definitions of both sets, which agree on them.
  have hmember : ∀ i ∈ (Compilation.linked source definitions).1.component (definitions.keys.idxOf v),
      ∃ w, i = definitions.keys.idxOf w ∧ w ∈ definitions.keys ∧ Agree source definitions definitions' w := by
    intro i hi
    obtain ⟨w, hw, hmem, rfl⟩ := (hcomponent.mem i).mp hi
    exact ⟨w, rfl, hmem, (h.reach hw.1.to_reflTransGen).2⟩
  have hinj : ∀ {w u}, w ∈ definitions.keys → u ∈ definitions.keys → Agree source definitions definitions' w →
      renumber definitions definitions' (definitions.keys.idxOf w) =
        renumber definitions definitions' (definitions.keys.idxOf u) → w = u := by
    intro w u hw hu hagree heq
    rw [renumber_idxOf hw, renumber_idxOf hu] at heq
    exact (List.idxOf_inj (hagree.keys.mp hw)).mp heq
  refine ⟨fun i hi j hj heq => ?_, fun i hi => ?_, fun i hi => ?_, ?_, ?_⟩
  · obtain ⟨w, rfl, hw, hagree⟩ := hmember i hi
    obtain ⟨u, rfl, hu, -⟩ := hmember j hj
    rw [hinj hw hu hagree heq]
  · obtain ⟨w, rfl, hw, hagree⟩ := hmember i hi
    rw [renumber_idxOf hw, hagree.successors hw, List.filter_map]
    refine congrArg _ (List.filter_congr fun j hj => ?_)
    obtain ⟨d, hd, hmem, rfl⟩ := ((hdraws.successors hw).mem j).mp hj
    rw [Function.comp_apply, Bool.eq_iff_iff, List.contains_iff_mem, List.contains_iff_mem, List.mem_map]
    constructor
    · rintro ⟨k, hk, heq⟩
      obtain ⟨u, rfl, hu, hagree'⟩ := hmember k hk
      exact hinj hu hmem hagree' heq ▸ hk
    · exact fun hk => ⟨_, hk, rfl⟩
  · obtain ⟨w, rfl, hw, hagree⟩ := hmember i hi
    have hw' := hagree.keys.mp hw
    rw [renumber_idxOf hw, Bool.eq_iff_iff, hdraws'.hasEdge_iff hw' hw', hdraws.hasEdge_iff hw hw]
    exact hagree.refers_iff.symm
  · refine Digraph.length_le_count hcomponent.nodup fun i hi => ?_
    exact List.mem_range.mp (List.mem_filter.mp hi).1
  · have hlength := congrArg List.length (h.component hv)
    rw [List.length_map] at hlength
    rw [← hlength]
    refine Digraph.length_le_count hcomponent'.nodup fun i hi => ?_
    exact List.mem_range.mp (List.mem_filter.mp hi).1

end Agree

/-- The failure of a definition on a cycle shows a walk through all that it shares cycles with. -/
theorem early_cycle (hcycle : TransGen (Refers source definitions) v v) :
    (earlyFailures source definitions).get? v = some (.cycle
      (((linked source definitions).1.cycleWalk ((linked source definitions).1.component (definitions.keys.idxOf v))).map
        fun i => definitions.keys.getD i "")) := by
  obtain ⟨component, hcomponent, i, hi, hv⟩ := (linked_draws source definitions).cyclic_iff.mp hcycle
  obtain ⟨path, ⟨nodes, hnodes, j, hj, rfl, rfl⟩, hpath⟩ :=
    (failCycles_cycled definitions.keys (linked source definitions).1 (linked source definitions).2).on v _
      ⟨component, hcomponent, i, hi, hv, rfl⟩
  have hlt : j < definitions.keys.length :=
    (linked_draws source definitions).count ▸ (Digraph.mem_cyclicComponents.mp ⟨nodes, hnodes, hj⟩).1
  rw [idxOf_getD hlt, ← Digraph.eq_component hnodes hj]
  exact hpath

theorem Agree.early (h : Agree source definitions definitions' v) :
    (earlyFailures source definitions).get? v = (earlyFailures source definitions').get? v := by
  by_cases hcycle : TransGen (Refers source definitions) v v
  · obtain ⟨d, hd, -⟩ := TransGen.head'_iff.mp hcycle
    have hv := hd.mem_keys
    rw [early_cycle hcycle, early_cycle (h.leads hcycle), h.component hv, Digraph.cycleWalk_map (h.renumbers hv),
      List.map_map]
    congr 2
    refine List.map_congr_left fun i hi => ?_
    obtain ⟨w, hw, hmem, rfl⟩ :=
      (((linked_draws source definitions).component hv).mem i).mp (Digraph.cycleWalk_subset _ hi)
    rw [Function.comp_apply, renumber_idxOf hmem, getD_idxOf hmem,
      getD_idxOf ((h.reach hw.1.to_reflTransGen).2.keys.mp hmem)]
  · rw [early_off hcycle, early_off (mt h.symm.leads hcycle), h.linked]

/-! ### Compiling -/

theorem Agree.failedDependency {p p' : Progress} (h : Agree source definitions definitions' v) (hv : v ∈ definitions.keys)
    (hp : Turn functions source definitions v p) (hp' : Turn functions source definitions' v p') :
    failedDependency definitions.keys (Compilation.linked source definitions).1 p.failures v =
      Compilation.failedDependency definitions'.keys (Compilation.linked source definitions').1 p'.failures v := by
  have hsuccessors := (linked_draws source definitions).successors hv
  have hnames : ((Compilation.linked source definitions').1.successors (definitions'.keys.idxOf v)).map
      (fun i => definitions'.keys.getD i "") =
        ((Compilation.linked source definitions).1.successors (definitions.keys.idxOf v)).map
          fun i => definitions.keys.getD i "" := by
    rw [h.successors hv, List.map_map]
    refine List.map_congr_left fun i hi => ?_
    obtain ⟨d, hd, hmem, rfl⟩ := (hsuccessors.mem i).mp hi
    rw [Function.comp_apply, renumber_idxOf hmem, getD_idxOf hmem,
      getD_idxOf ((h.mentioned hd.mentions).keys.mp hmem)]
  unfold Compilation.failedDependency
  rw [hnames]
  refine List.find?_congr fun d hd => ?_
  obtain ⟨i, hi, rfl⟩ := List.mem_map.mp hd
  obtain ⟨d, hrefers, hmem, rfl⟩ := (hsuccessors.mem i).mp hi
  rw [getD_idxOf hmem, Bool.eq_iff_iff, hp.failed d hrefers, hp'.failed d (h.refers hrefers)]
  exact (h.mentioned hrefers.mentions).faulty_iff

/-- What an expression mentions is the same in two sets of definitions. -/
def AgreeWithin (source : Source) (definitions definitions' : Definitions) (e : Expr) : Prop :=
  ∀ d, (Expr.operand d).Within e → source.describe d = none → Agree source definitions definitions' d

theorem foldlM_congr {α β ε : Type} {step step' : β → α → Except ε β} :
    ∀ {l : List α} {acc : β}, (∀ a ∈ l, ∀ acc, step acc a = step' acc a) → l.foldlM step acc = l.foldlM step' acc
  | [], _, _ => rfl
  | a :: l, acc, h => by
    rw [List.foldlM_cons, List.foldlM_cons, h a List.mem_cons_self acc]
    cases step' acc a with
    | error x => rfl
    | ok acc' => exact foldlM_congr fun b hb => h b (List.mem_cons_of_mem _ hb)

theorem lower_agree (functions : Functions) : ∀ (fuel : Nat) (e : Expr) (s : NodeStore),
    AgreeWithin source definitions definitions' e →
      lower ⟨functions, source, definitions, (parseAll definitions).1⟩ fuel e s =
        lower ⟨functions, source, definitions', (parseAll definitions').1⟩ fuel e s
  | 0, e, s, _ => by rw [lower, lower]
  | fuel + 1, .number x, s, _ => by rw [lower, lower] <;> exact Nat.succ_ne_zero _
  | fuel + 1, .text t, s, _ => by rw [lower, lower] <;> exact Nat.succ_ne_zero _
  | fuel + 1, .operand name, s, h => by
    rw [lower, lower]
    dsimp only
    rw [Agree.resolve (h name .self)]
    cases hres : resolve source definitions' name with
    | error f => rfl
    | ok ref =>
      cases ref with
      | input m => rfl
      | definition d =>
        obtain ⟨rfl, hinput, -⟩ := resolve_definition.mp hres
        have hagree := h name .self hinput
        dsimp only [Bind.bind, Except.bind]
        rw [← hagree.parsed]
        cases he : (parseAll definitions).1.get? name with
        | none => rfl
        | some e =>
          exact lower_agree functions fuel e s fun d hd hd' => hagree.operand (parseAll_parsed.mp he) hd hd'
  | fuel + 1, .call name args kwargs, s, h => by
    rw [lower_call, lower_call]
    dsimp only
    cases hcall : functions.bind name args kwargs with
    | error f => rfl
    | ok call =>
      have hnext : ∀ a ∈ call.arrays, ∀ acc,
          lowerNext ⟨functions, source, definitions, (parseAll definitions).1⟩ fuel acc a =
            lowerNext ⟨functions, source, definitions', (parseAll definitions').1⟩ fuel acc a := by
        intro a ha acc
        unfold lowerNext
        have hargument := (Functions.bind_binds hcall).argument a ha
        rw [lower_agree functions fuel a acc.1 fun d hd => h d (hargument.within hd name)]
      dsimp only [Bind.bind, Except.bind]
      rw [foldlM_congr hnext]

/-- Where no failure is known, and nothing that a definition refers to has failed, its expression is in order. -/
theorem Turn.clear {p : Progress} (h : Turn functions source definitions v p) (hv : v ∈ definitions.keys)
    (he : Means definitions v e) (hearly : p.failures.get? v = none)
    (hdep : failedDependency definitions.keys (linked source definitions).1 p.failures v = none) :
    Clear functions source definitions e := by
  have hnone : (earlyFailures source definitions).contains v = false := by
    rw [NameMap.contains, ← h.early, hearly]
    rfl
  obtain ⟨e', he', hresolved⟩ := (early_spec functions source definitions).clean v (NameMap.mem_keys.mp hv) hnone
  cases he.unique he'
  refine clear_of_refers he hresolved fun d hd hfaulty => ?_
  have := failedDependency_none (linked_draws source definitions) hdep hd
  rw [(h.failed d hd).mpr hfaulty] at this
  cases this

/-- What has a graph or fails by itself does so with as much room for the nesting as one likes. -/
theorem Clear.lower_more (h : Clear functions source definitions e) (more : Nat) (s : NodeStore) :
    lower ⟨functions, source, definitions, (parseAll definitions).1⟩
        (nesting (parseAll definitions).1 + e.height + more) e s =
      lower ⟨functions, source, definitions, (parseAll definitions).1⟩ (nesting (parseAll definitions).1 + e.height) e s := by
  refine Compilation.lower_more _ _ _ _ fun hcycle => ?_
  exact (h.lower_error hcycle).2

/-- A definition depends only on those that it mentions, at once or through others: where two sets of definitions
    agree on these, the same becomes of it, its graph or its failure. -/
theorem compile_local (functions : Functions)
    (h : ∀ d, Mentions source definitions v d → definitions.get? d = definitions'.get? d) :
    (compile functions source definitions).compiled.get? v = (compile functions source definitions').compiled.get? v ∧
      (compile functions source definitions).failures.get? v =
        (compile functions source definitions').failures.get? v := by
  have hagree : Agree source definitions definitions' v := h
  have horders := compileOrder_orders source definitions
  have horders' := compileOrder_orders source definitions'
  have horder : v ∈ compileOrder source definitions ↔ v ∈ compileOrder source definitions' := by
    rw [horders.mem, horders'.mem, hagree.contains, hagree.leads_iff]
  have hresult : (compileAll functions source definitions).at v = (compileAll functions source definitions').at v := by
    by_cases hv : v ∈ compileOrder source definitions
    · obtain ⟨p, hp, hat⟩ := exists_turn functions hv
      obtain ⟨p', hp', hat'⟩ := exists_turn functions (horder.mp hv)
      have hmem := NameMap.mem_keys.mpr (horders.contains hv)
      have hearly : p.failures.get? v = p'.failures.get? v := hp.early.trans (hagree.early.trans hp'.early.symm)
      have hdep := hagree.failedDependency hmem hp hp'
      rw [hat, hat']
      refine compileOne_at_congr hearly hp.fresh hp'.fresh hdep hagree.parsed fun hnone hfirst e he => ?_
      have he := parseAll_parsed.mp he
      have hclear := hp.clear hmem he hnone hfirst
      have hclear' := hp'.clear (hagree.keys.mp hmem) (hagree.means he) (hearly ▸ hnone) (hdep ▸ hfirst)
      -- With the room of both sets together, the expression is lowered alike in both.
      rw [← hclear.lower_more (nesting (parseAll definitions').1 + e.height),
        ← hclear'.lower_more (nesting (parseAll definitions).1 + e.height),
        Nat.add_comm (nesting (parseAll definitions').1 + e.height)]
      exact lower_agree functions _ e _ fun d => hagree.operand he
    · rw [at_of_not_mem functions hv, at_of_not_mem functions (mt horder.mpr hv), hagree.early]
  exact ⟨congrArg Prod.snd hresult, congrArg Prod.fst hresult⟩

/-! ### A tangle among other definitions -/

/-- Some names, and what is mentioned by their definitions. -/
def closed (source : Source) (definitions : Definitions) (names : List String) : Bool :=
  names.all fun v => ((definitions.get? v).bind fun text => (Parser.parse text).toOption).all fun e =>
    e.operandNames.all fun d => (source.describe d).isSome || names.contains d

theorem Mentions.mem_of_closed (names : List String) (hclosed : closed source definitions names = true) (hv : v ∈ names)
    (h : Mentions source definitions v d) : d ∈ names := by
  induction h with
  | self => exact hv
  | operand _ he hwithin hinput ih =>
    obtain ⟨text, htext, hparse⟩ := he
    have hall := List.all_eq_true.mp hclosed _ ih
    rw [htext, Option.bind_some, hparse] at hall
    have hd := List.all_eq_true.mp hall _ (Expr.mem_operandNames.mpr hwithin)
    rw [hinput] at hd
    exact List.contains_iff_mem.mp hd

def tide : Dataset := .ofList [("t", ⟨⟨[⟨"time", some 1⟩], "K", .empty⟩, ⟨[1], #[1], rfl⟩⟩)]

/-- Two definitions that refer to each other, and one that refers to them. -/
def tangled : Definitions := .ofList [("down", "up - t"), ("report", "down * 2"), ("up", "down + t")]

/-- The same with more definitions, some of them broken. -/
def tangledMore : Definitions :=
  .ofList [("another", "report +"), ("between", "up * nowhere"), ("down", "up - t"), ("report", "down * 2"),
    ("tide", "between / t"), ("up", "down + t")]

/-- The cycle is the same, whatever the numbers of its definitions are. -/
theorem compile_local_tangled :
    (compile .builtins tide.source tangledMore).failures.get? "up" = some (.cycle ["down", "up", "down"]) := by
  have h : ∀ d, Mentions tide.source tangled "up" d → tangled.get? d = tangledMore.get? d := by
    intro d hd
    have hmem := hd.mem_of_closed ["down", "up"] (by decide +kernel) (by decide)
    have hsame : ∀ d ∈ ["down", "up"], tangled.get? d = tangledMore.get? d := by decide +kernel
    exact hsame d hmem
  rw [← (compile_local .builtins h).2]
  decide +kernel

end Concord.Compilation
