import Concord.Proofs.Graph.References

/-! The graph of references, and the failures that are known before any definition is compiled: those of
    malformed definitions, of names that refer to nothing, and of cycles, which stand in place of others. -/

namespace Concord.Compilation

variable {source : Source} {definitions : Definitions} {v d : String} {e : Expr}

/-! ### Noting failures -/

/-- Some failures are noted where there was none yet. -/
def Noted (note : String → Option Failure) (failures failures' : NameMap Failure) : Prop :=
  ∀ key, failures'.get? key = (failures.get? key).or (note key)

theorem noted_none (failures : NameMap Failure) : Noted (fun _ => none) failures failures :=
  fun _ => Option.or_none.symm

theorem noted_insertNew (failures : NameMap Failure) (name : String) (f : Failure) :
    Noted (fun key => if key = name then some f else none) failures (failures.insertNew name f) := by
  intro key
  rw [NameMap.get?_insertNew]
  by_cases hkey : key = name
  · subst hkey
    cases failures.get? key <;> simp
  · simp [hkey]

/-- The first of what the steps of a fold note is noted by the fold. -/
theorem noted_foldl {β γ : Type} {step : β → γ → β} {failures : β → NameMap Failure}
    {note : γ → String → Option Failure} (hstep : ∀ acc x, Noted (note x) (failures acc) (failures (step acc x))) :
    ∀ (l : List γ) (acc : β), Noted (fun key => l.findSome? (note · key)) (failures acc) (failures (l.foldl step acc))
  | [], acc => noted_none _
  | x :: l, acc => by
    intro key
    rw [List.foldl_cons, noted_foldl hstep l (step acc x) key, hstep acc x key, Option.or_assoc]
    dsimp only
    rw [List.findSome?_cons]
    cases note x key <;> rfl

theorem findSome?_of_key {α β κ : Type} [DecidableEq κ] {f : α → Option β} {key name : κ} (l : List α) :
    (l.findSome? fun a => if key = name then f a else none) = if key = name then l.findSome? f else none := by
  split
  · rfl
  · exact List.findSome?_eq_none_iff.mpr fun _ _ => rfl

/-- What each step of a fold appends is appended by the fold. -/
theorem foldl_append {β γ δ : Type} {step : β → γ → β} {listed : β → List δ} {more : γ → List δ}
    (hstep : ∀ acc x, listed (step acc x) = listed acc ++ more x) :
    ∀ (l : List γ) (acc : β), listed (l.foldl step acc) = listed acc ++ l.flatMap more
  | [], acc => by simp
  | x :: l, acc => by rw [List.foldl_cons, foldl_append hstep l, hstep, List.append_assoc, List.flatMap_cons]

/-! ### The references of one definition -/

/-- Follows one operand of a definition. -/
def linkOne (source : Source) (definitions : Definitions) (names : List String) (name : String)
    (acc : List (Nat × Nat) × NameMap Failure) (operand : String) : List (Nat × Nat) × NameMap Failure :=
  match resolve source definitions operand with
  | .ok (.input _) => acc
  | .ok (.definition dependency) => (acc.1 ++ [(names.idxOf name, names.idxOf dependency)], acc.2)
  | .error f => (acc.1, acc.2.insertNew name f)

theorem referencesOf_eq (names : List String) (name : String) (e : Expr) (failures : NameMap Failure) :
    referencesOf source definitions names name e failures =
      e.operandNames.foldl (linkOne source definitions names name) ([], failures) := rfl

/-- The edge of an operand of a definition. -/
def edgesOf (source : Source) (definitions : Definitions) (names : List String) (name operand : String) :
    List (Nat × Nat) :=
  match resolve source definitions operand with
  | .ok (.definition dependency) => [(names.idxOf name, names.idxOf dependency)]
  | _ => []

theorem mem_edgesOf {names : List String} {name operand : String} {x : Nat × Nat} :
    x ∈ edgesOf source definitions names name operand ↔
      resolve source definitions operand = .ok (.definition operand) ∧
        x = (names.idxOf name, names.idxOf operand) := by
  unfold edgesOf
  split
  · rename_i d hd
    obtain ⟨rfl, -⟩ := resolve_definition.mp hd
    simp [hd]
  · rename_i hnot
    exact ⟨fun h => absurd h List.not_mem_nil, fun h => (hnot _ h.1).elim⟩

theorem linkOne_edges (names : List String) (name : String) (acc : List (Nat × Nat) × NameMap Failure)
    (operand : String) : (linkOne source definitions names name acc operand).1 =
      acc.1 ++ edgesOf source definitions names name operand := by
  unfold linkOne edgesOf
  split <;> simp_all

/-- The failure of a name that refers to nothing. -/
def failureOf : Except Failure Reference → Option Failure
  | .error f => some f
  | .ok _ => none

theorem linkOne_noted (names : List String) (name : String) (acc : List (Nat × Nat) × NameMap Failure)
    (operand : String) :
    Noted (fun key => if key = name then failureOf (resolve source definitions operand) else none) acc.2
      (linkOne source definitions names name acc operand).2 := by
  unfold linkOne
  split
  · rename_i hinput
    simpa [hinput, failureOf] using noted_none acc.2
  · rename_i hdefined
    simpa [hdefined, failureOf] using noted_none acc.2
  · rename_i f hf
    simpa [hf, failureOf] using noted_insertNew acc.2 name f

theorem referencesOf_edges (names : List String) (name : String) (e : Expr) (failures : NameMap Failure) :
    (referencesOf source definitions names name e failures).1 =
      e.operandNames.flatMap (edgesOf source definitions names name) := by
  rw [referencesOf_eq, foldl_append (linkOne_edges names name), List.nil_append]

/-- A name within an expression refers to nothing. -/
def Unresolved (source : Source) (definitions : Definitions) (e : Expr) (f : Failure) : Prop :=
  ∃ d, (Expr.operand d).Within e ∧ resolve source definitions d = .error f

/-- The failure of the first name within an expression that refers to nothing. -/
def firstUnresolved (source : Source) (definitions : Definitions) (e : Expr) : Option Failure :=
  e.operandNames.findSome? fun d => failureOf (resolve source definitions d)

theorem firstUnresolved_some {f : Failure} (h : firstUnresolved source definitions e = some f) :
    Unresolved source definitions e f := by
  obtain ⟨d, hd, hf⟩ := List.exists_of_findSome?_eq_some h
  refine ⟨d, Expr.mem_operandNames.mp hd, ?_⟩
  cases hres : resolve source definitions d with
  | ok r =>
    rw [hres] at hf
    cases hf
  | error x =>
    rw [hres] at hf
    cases hf
    rfl

theorem firstUnresolved_none (h : firstUnresolved source definitions e = none) (f : Failure) :
    ¬Unresolved source definitions e f := by
  rintro ⟨d, hd, hres⟩
  have := List.findSome?_eq_none_iff.mp h d (Expr.mem_operandNames.mpr hd)
  rw [hres] at this
  cases this

theorem referencesOf_noted (names : List String) (name : String) (e : Expr) (failures : NameMap Failure) :
    Noted (fun key => if key = name then firstUnresolved source definitions e else none) failures
      (referencesOf source definitions names name e failures).2 := by
  intro key
  have h : Noted _ failures (referencesOf source definitions names name e failures).2 :=
    noted_foldl (linkOne_noted names name) e.operandNames ([], failures)
  rw [h key, findSome?_of_key]
  rfl

/-! ### All references -/

/-- Goes on to the next parsed definition. -/
def linkNext (source : Source) (definitions : Definitions) (acc : List (Nat × Nat) × NameMap Failure)
    (p : String × Expr) : List (Nat × Nat) × NameMap Failure :=
  (acc.1 ++ (referencesOf source definitions definitions.keys p.1 p.2 acc.2).1,
    (referencesOf source definitions definitions.keys p.1 p.2 acc.2).2)

theorem linkNext_edges (acc : List (Nat × Nat) × NameMap Failure) (p : String × Expr) :
    (linkNext source definitions acc p).1 =
      acc.1 ++ p.2.operandNames.flatMap (edgesOf source definitions definitions.keys p.1) :=
  congrArg (acc.1 ++ ·) (referencesOf_edges definitions.keys p.1 p.2 acc.2)

theorem linkNext_noted (acc : List (Nat × Nat) × NameMap Failure) (p : String × Expr) :
    Noted (fun key => if key = p.1 then firstUnresolved source definitions p.2 else none) acc.2
      (linkNext source definitions acc p).2 :=
  referencesOf_noted definitions.keys p.1 p.2 acc.2

/-- The graph of all definitions, and the failures of those that are malformed or refer to nothing. -/
def linked (source : Source) (definitions : Definitions) : Digraph × NameMap Failure :=
  linkAll source definitions (parseAll definitions).1 (parseAll definitions).2

theorem mem_parsed {p : String × Expr} : p ∈ (parseAll definitions).1.entries ↔ Means definitions p.1 p.2 :=
  NameMap.mem_entries.trans parseAll_parsed

/-- A graph on the definitions by their numbers, with an edge for each reference. -/
structure Draws (source : Source) (definitions : Definitions) (g : Digraph) : Prop where
  count : g.count = definitions.keys.length
  edges : ∀ x, x ∈ g.edges ↔
    ∃ v d, Refers source definitions v d ∧ x = (definitions.keys.idxOf v, definitions.keys.idxOf d)

theorem linked_draws (source : Source) (definitions : Definitions) :
    Draws source definitions (linked source definitions).1 where
  count := rfl
  edges x := by
    have hedges : (linked source definitions).1.edges = [] ++ _ :=
      foldl_append linkNext_edges (parseAll definitions).1.entries ([], (parseAll definitions).2)
    rw [hedges]
    simp only [List.nil_append, List.mem_flatMap, mem_edgesOf, Expr.mem_operandNames, resolve_definition, true_and]
    constructor
    · rintro ⟨p, hp, d, hd, ⟨hinput, hdefined⟩, hx⟩
      exact ⟨p.1, d, ⟨p.2, mem_parsed.mp hp, hd, hinput, hdefined⟩, hx⟩
    · rintro ⟨v, d, ⟨e, he, huses⟩, hx⟩
      exact ⟨(v, e), mem_parsed.mpr he, d, huses.operand, ⟨huses.input, huses.defined⟩, hx⟩

theorem findSome?_find {α β : Type} {f : α → Option β} {key : String} :
    ∀ {l : List (String × α)}, (l.Pairwise fun a b => a.1 < b.1) →
      (l.findSome? fun p => if key = p.1 then f p.2 else none) = (NameMap.find key l).bind f
  | [], _ => rfl
  | (k, a) :: l, h => by
    rw [List.pairwise_cons] at h
    rw [List.findSome?_cons, NameMap.find]
    by_cases hkey : key = k
    · subst hkey
      have hrest : (l.findSome? fun p => if key = p.1 then f p.2 else none) = none := by
        refine List.findSome?_eq_none_iff.mpr fun p hp => if_neg ?_
        rintro rfl
        exact String.lt_irrefl _ (h.1 p hp)
      rw [if_pos rfl, if_pos rfl, hrest]
      cases hf : f a <;> simp [hf]
    · rw [if_neg hkey, if_neg (Ne.symm hkey)]
      exact findSome?_find h.2

/-- The failures before cycles are looked for: a definition is malformed, or a name within it refers to nothing. -/
theorem linked_failures (v : String) : (linked source definitions).2.get? v =
    ((parseAll definitions).2.get? v).or
      (((parseAll definitions).1.get? v).bind (firstUnresolved source definitions)) := by
  have h : Noted _ (parseAll definitions).2 (linked source definitions).2 :=
    noted_foldl linkNext_noted (parseAll definitions).1.entries ([], (parseAll definitions).2)
  rw [h v]
  exact congrArg _ (findSome?_find (parseAll definitions).1.sorted)

/-! ### Numbers of definitions -/

variable {g : Digraph} {i j : Nat}

theorem getD_idxOf {names : List String} (h : v ∈ names) : names.getD (names.idxOf v) "" = v := by
  have hlt := List.idxOf_lt_length_of_mem h
  rw [List.getD_eq_getElem?_getD, List.getElem?_eq_getElem hlt, List.getElem_idxOf hlt, Option.getD_some]

theorem Refers.mem_keys (h : Refers source definitions v d) : v ∈ definitions.keys := by
  obtain ⟨e, he, -⟩ := h
  exact NameMap.mem_keys.mpr he.contains

theorem Refers.mem_keys_right (h : Refers source definitions v d) : d ∈ definitions.keys := by
  obtain ⟨e, -, huses⟩ := h
  exact NameMap.mem_keys.mpr huses.defined

theorem Draws.refers (h : Draws source definitions g) (hij : g.Edge i j) :
    Refers source definitions (definitions.keys.getD i "") (definitions.keys.getD j "") := by
  obtain ⟨v, d, hvd, heq⟩ := (h.edges (i, j)).mp (Digraph.edge_iff.mp hij).2
  cases heq
  rwa [getD_idxOf hvd.mem_keys, getD_idxOf hvd.mem_keys_right]

theorem Draws.edge (h : Draws source definitions g) (hvd : Refers source definitions v d) :
    g.Edge (definitions.keys.idxOf v) (definitions.keys.idxOf d) := by
  refine Digraph.edge_iff.mpr ⟨?_, (h.edges _).mpr ⟨v, d, hvd, rfl⟩⟩
  rw [h.count]
  exact List.idxOf_lt_length_of_mem hvd.mem_keys_right

/-- A definition refers to itself through others iff its node lies on a cycle. -/
theorem Draws.cyclic_iff (h : Draws source definitions g) :
    Relation.TransGen (Refers source definitions) v v ↔
      ∃ component ∈ g.cyclicComponents, ∃ i ∈ component, v = definitions.keys.getD i "" := by
  constructor
  · intro hcycle
    obtain ⟨d, hvd, -⟩ := Relation.TransGen.head'_iff.mp hcycle
    have hlt : definitions.keys.idxOf v < g.count := h.count ▸ List.idxOf_lt_length_of_mem hvd.mem_keys
    have hleads : g.Leads (definitions.keys.idxOf v) (definitions.keys.idxOf v) :=
      hcycle.lift (fun v => definitions.keys.idxOf v) fun _ _ => h.edge
    obtain ⟨component, hcomponent, hi⟩ := Digraph.mem_cyclicComponents.mpr ⟨hlt, hleads⟩
    exact ⟨component, hcomponent, _, hi, (getD_idxOf hvd.mem_keys).symm⟩
  · rintro ⟨component, hcomponent, i, hi, rfl⟩
    obtain ⟨-, hleads⟩ := Digraph.mem_cyclicComponents.mp ⟨component, hcomponent, hi⟩
    exact hleads.lift (fun i => definitions.keys.getD i "") fun _ _ => h.refers

/-! ### Cycles -/

/-- Some definitions fail for cycles, whatever is known of them, and the others as before. -/
structure Cycled (On : String → List String → Prop) (failures failures' : NameMap Failure) : Prop where
  on : ∀ key path, On key path → ∃ path', On key path' ∧ failures'.get? key = some (.cycle path')
  off : ∀ key, (∀ path, ¬On key path) → failures'.get? key = failures.get? key

theorem cycled_insert (failures : NameMap Failure) (name : String) (path : List String) :
    Cycled (fun key path' => key = name ∧ path' = path) failures (failures.insert name (.cycle path)) where
  on key path' h := ⟨path, ⟨h.1, rfl⟩, by rw [NameMap.get?_insert, if_pos h.1]⟩
  off key h := by rw [NameMap.get?_insert, if_neg fun heq => h path ⟨heq, rfl⟩]

theorem cycled_foldl {γ : Type} {step : NameMap Failure → γ → NameMap Failure} {On : γ → String → List String → Prop}
    (hstep : ∀ failures x, Cycled (On x) failures (step failures x)) :
    ∀ (l : List γ) (failures : NameMap Failure),
      Cycled (fun key path => ∃ x ∈ l, On x key path) failures (l.foldl step failures)
  | [], failures => ⟨by simp, fun _ _ => rfl⟩
  | x :: l, failures => by
    have hx := hstep failures x
    have hl := cycled_foldl hstep l (step failures x)
    rw [List.foldl_cons]
    refine ⟨fun key path h => ?_, fun key h => ?_⟩
    · by_cases hrest : ∃ path, ∃ y ∈ l, On y key path
      · obtain ⟨path, hpath⟩ := hrest
        obtain ⟨path', ⟨y, hy, hon⟩, hget⟩ := hl.on key path hpath
        exact ⟨path', ⟨y, List.mem_cons_of_mem _ hy, hon⟩, hget⟩
      · have hnone : ∀ path, ¬∃ y ∈ l, On y key path := fun path hpath => hrest ⟨path, hpath⟩
        rw [hl.off key hnone]
        obtain ⟨y, hy, h⟩ := h
        rcases List.mem_cons.mp hy with rfl | hy
        · obtain ⟨path', hon, hget⟩ := hx.on key path h
          exact ⟨path', ⟨y, List.mem_cons_self, hon⟩, hget⟩
        · exact absurd ⟨y, hy, h⟩ (hnone path)
    · rw [hl.off key fun path ⟨y, hy, hon⟩ => h path ⟨y, List.mem_cons_of_mem _ hy, hon⟩]
      exact hx.off key fun path hon => h path ⟨x, List.mem_cons_self, hon⟩

/-- The failures for cycles are those of the nodes of cyclic components, each with a walk through its component. -/
theorem failCycles_cycled (names : List String) (g : Digraph) (failures : NameMap Failure) :
    Cycled (fun key path => ∃ component ∈ g.cyclicComponents, ∃ i ∈ component,
        key = names.getD i "" ∧ path = (g.cycleWalk component).map fun i => names.getD i "") failures
      (failCycles names g failures) :=
  cycled_foldl (fun failures component =>
    cycled_foldl (fun failures i => cycled_insert failures (names.getD i "") _) component failures) _ failures

end Concord.Compilation
