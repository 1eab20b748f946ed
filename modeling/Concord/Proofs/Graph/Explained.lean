import Concord.Proofs.Graph.Fitting

/-! Why definitions fail. A definition fails iff one that it refers to, at once or through others, is broken itself;
    one on a cycle fails for it, and one that fails for another refers to that. -/

namespace Concord.Compilation

-- Sums start at the built-in zero, also where the algebra of numbers is known.
attribute [local instance (10000)] Zero.ofOfNat0

open Relation (TransGen ReflTransGen)

variable {functions : Functions} {source : Source} {definitions : Definitions} {v d : String} {e : Expr} {f : Failure}

/-- A definition is broken, or one that it refers to is. -/
def Faulty (functions : Functions) (source : Source) (definitions : Definitions) (v : String) : Prop :=
  ∃ w, ReflTransGen (Refers source definitions) v w ∧ Broken functions source definitions w

theorem Broken.faulty (h : Broken functions source definitions v) : Faulty functions source definitions v := ⟨v, .refl, h⟩

theorem Faulty.user (h : Faulty functions source definitions d) (hvd : Refers source definitions v d) :
    Faulty functions source definitions v := by
  obtain ⟨w, hreach, hbroken⟩ := h
  exact ⟨w, .head hvd hreach, hbroken⟩

theorem Broken.contains (h : Broken functions source definitions v) : definitions.contains v = true := by
  cases h with
  | malformed htext _ => exact NameMap.contains_iff.mpr ⟨_, htext⟩
  | unresolved he _ _ _ => exact he.contains
  | unbindable he _ _ => exact he.contains
  | bare he => exact he.contains
  | cyclic h =>
    obtain ⟨d, hvd, -⟩ := TransGen.head'_iff.mp h
    exact NameMap.mem_keys.mp hvd.mem_keys

theorem Faulty.contains (h : Faulty functions source definitions v) : definitions.contains v = true := by
  obtain ⟨w, hreach, hbroken⟩ := h
  rcases ReflTransGen.cases_head hreach with rfl | ⟨d, hvd, -⟩
  · exact hbroken.contains
  · exact NameMap.mem_keys.mp hvd.mem_keys

/-- What is lowered without failure is faulty only through others. -/
theorem Faulty.through (h : Faulty functions source definitions v) (he : Means definitions v e)
    (hfit : ¬Unfit functions e) (hresolved : ∀ f, ¬Unresolved source definitions e f)
    (hcycle : ¬TransGen (Refers source definitions) v v) :
    ∃ d, Refers source definitions v d ∧ Faulty functions source definitions d := by
  obtain ⟨w, hreach, hbroken⟩ := h
  rcases ReflTransGen.cases_head hreach with rfl | ⟨d, hvd, hreach⟩
  · exfalso
    cases hbroken with
    | malformed htext hparse =>
      obtain ⟨text, htext', hparse'⟩ := he
      cases htext.symm.trans htext'
      rw [hparse] at hparse'
      cases hparse'
    | unresolved he' hwithin hinput hdefined =>
      exact hresolved _ ⟨_, he.unique he' ▸ hwithin, resolve_error.mpr ⟨rfl, hinput, hdefined⟩⟩
    | unbindable he' hwithin herror => exact hfit (.unbindable (he.unique he' ▸ hwithin) herror)
    | bare he' => exact hfit (.bare (he.unique he'))
    | cyclic h => exact hcycle h
  · exact ⟨d, hvd, w, hreach, hbroken⟩

/-! ### Before compiling -/

/-- The failures that are known before any definition is compiled. -/
structure Early (functions : Functions) (source : Source) (definitions : Definitions) (early : NameMap Failure) :
    Prop where
  cycle : ∀ v, (∃ path, early.get? v = some (.cycle path)) ↔ TransGen (Refers source definitions) v v
  broken : ∀ v, early.contains v = true → Broken functions source definitions v
  upstream : ∀ v d, early.get? v ≠ some (.upstreamFailed d)
  clean : ∀ v, definitions.contains v = true → early.contains v = false →
    ∃ e, Means definitions v e ∧ ∀ f, ¬Unresolved source definitions e f

/-- What fails before cycles are looked for. -/
inductive Flawed (source : Source) (definitions : Definitions) (v : String) : Failure → Prop where
  | malformed {text : String} {x : SyntaxError} :
      definitions.get? v = some text → Parser.parse text = .error x → Flawed source definitions v (.malformed x)
  | unresolved {e : Expr} {d : String} : Means definitions v e → (Expr.operand d).Within e →
      source.describe d = none → definitions.contains d = false →
      Flawed source definitions v (.unresolvedReference d)

theorem Flawed.broken (h : Flawed source definitions v f) : Broken functions source definitions v := by
  cases h with
  | malformed htext hparse => exact .malformed htext hparse
  | unresolved he hwithin hinput hdefined => exact .unresolved he hwithin hinput hdefined

theorem linked_flawed (h : (linked source definitions).2.get? v = some f) : Flawed source definitions v f := by
  rw [linked_failures] at h
  rcases Option.or_eq_some_iff.mp h with h | ⟨-, h⟩
  · obtain ⟨text, x, htext, hparse, rfl⟩ := parseAll_failed.mp h
    exact .malformed htext hparse
  · obtain ⟨e, he, hf⟩ := Option.bind_eq_some_iff.mp h
    obtain ⟨d, hd, hres⟩ := firstUnresolved_some hf
    obtain ⟨rfl, hinput, hdefined⟩ := resolve_error.mp hres
    exact .unresolved (parseAll_parsed.mp he) hd hinput hdefined

theorem linked_clean (hv : definitions.contains v = true) (h : (linked source definitions).2.contains v = false) :
    ∃ e, Means definitions v e ∧ ∀ f, ¬Unresolved source definitions e f := by
  have hnone : (linked source definitions).2.get? v = none := by simpa [NameMap.contains] using h
  rw [linked_failures] at hnone
  obtain ⟨hfailed, hunresolved⟩ := Option.or_eq_none_iff.mp hnone
  obtain ⟨text, htext⟩ := NameMap.contains_iff.mp hv
  cases hparse : Parser.parse text with
  | error x =>
    rw [parseAll_failed.mpr ⟨text, x, htext, hparse, rfl⟩] at hfailed
    cases hfailed
  | ok e =>
    have he : Means definitions v e := ⟨text, htext, hparse⟩
    rw [parseAll_parsed.mpr he] at hunresolved
    exact ⟨e, he, firstUnresolved_none hunresolved⟩

/-- The failures with which compiling starts. -/
def earlyFailures (source : Source) (definitions : Definitions) : NameMap Failure :=
  failCycles definitions.keys (linked source definitions).1 (linked source definitions).2

theorem early_on (h : TransGen (Refers source definitions) v v) :
    ∃ path, (earlyFailures source definitions).get? v = some (.cycle path) := by
  obtain ⟨component, hcomponent, i, hi, hv⟩ := (linked_draws source definitions).cyclic_iff.mp h
  obtain ⟨path, -, hpath⟩ := (failCycles_cycled _ _ _).on v _ ⟨component, hcomponent, i, hi, hv, rfl⟩
  exact ⟨path, hpath⟩

theorem early_off (h : ¬TransGen (Refers source definitions) v v) :
    (earlyFailures source definitions).get? v = (linked source definitions).2.get? v := by
  refine (failCycles_cycled _ _ _).off v ?_
  rintro path ⟨component, hcomponent, i, hi, hv, -⟩
  exact h ((linked_draws source definitions).cyclic_iff.mpr ⟨component, hcomponent, i, hi, hv⟩)

theorem early_spec (functions : Functions) (source : Source) (definitions : Definitions) :
    Early functions source definitions (earlyFailures source definitions) where
  cycle v := by
    refine ⟨fun ⟨path, hpath⟩ => ?_, early_on⟩
    by_contra hnot
    rw [early_off hnot] at hpath
    cases linked_flawed hpath
  broken v h := by
    by_cases hcycle : TransGen (Refers source definitions) v v
    · exact .cyclic hcycle
    · obtain ⟨f, hf⟩ := NameMap.contains_iff.mp h
      rw [early_off hcycle] at hf
      exact (linked_flawed hf).broken
  upstream v d h := by
    by_cases hcycle : TransGen (Refers source definitions) v v
    · obtain ⟨path, hpath⟩ := early_on hcycle
      rw [h] at hpath
      cases hpath
    · rw [early_off hcycle] at h
      cases linked_flawed h
  clean v hv h := by
    have hcycle : ¬TransGen (Refers source definitions) v v := by
      intro hcycle
      obtain ⟨path, hpath⟩ := early_on hcycle
      rw [NameMap.contains_iff.mpr ⟨_, hpath⟩] at h
      cases h
    rw [NameMap.contains, early_off hcycle] at h
    exact linked_clean hv h

/-! ### One definition after the other -/

/-- A failure names another failure as its reason. -/
def Blames (failures : NameMap Failure) (v d : String) : Prop := failures.get? v = some (.upstreamFailed d)

/-- From failure to failure, one comes to a failure for another reason. -/
def Ends (failures : NameMap Failure) (v : String) : Prop :=
  ∃ w f, ReflTransGen (Blames failures) v w ∧ failures.get? w = some f ∧ ∀ d, f ≠ .upstreamFailed d

/-- What has become of definitions, of which some are done, when some have failed early. -/
structure Compiled (functions : Functions) (source : Source) (definitions : Definitions) (early : NameMap Failure)
    (done : List String) (p : Progress) : Prop where
  kept : ∀ v f, early.get? v = some f → p.failures.get? v = some f
  pending : ∀ v ∉ done, p.failures.get? v = early.get? v ∧ p.compiled.get? v = none
  sound : ∀ v, p.failures.contains v = true → Faulty functions source definitions v
  either : ∀ v ∈ done, p.failures.contains v = true ∨ p.compiled.contains v = true
  apart : ∀ v, p.compiled.contains v = true → definitions.contains v = true ∧ ¬Faulty functions source definitions v
  cycle : ∀ v path, p.failures.get? v = some (.cycle path) → early.get? v = some (.cycle path)
  upstream : ∀ v d, p.failures.get? v = some (.upstreamFailed d) →
    Refers source definitions v d ∧ p.failures.contains d = true
  ends : ∀ v, p.failures.contains v = true → Ends p.failures v

section
variable {early : NameMap Failure} {done : List String} {p : Progress}

theorem compiled_start (h : Early functions source definitions early) :
    Compiled functions source definitions early [] ⟨.empty, early⟩ where
  kept _ _ hf := hf
  pending _ _ := ⟨rfl, rfl⟩
  sound v hv := (h.broken v hv).faulty
  either _ hv := absurd hv List.not_mem_nil
  apart _ hv := by cases hv
  cycle _ _ hpath := hpath
  upstream v d hd := absurd hd (h.upstream v d)
  ends v hv := by
    obtain ⟨f, hf⟩ := NameMap.contains_iff.mp hv
    exact ⟨v, f, .refl, hf, fun d heq => h.upstream v d (heq ▸ hf)⟩

/-- A definition that has failed already is left. -/
theorem Compiled.skip (h : Compiled functions source definitions early done p) (hv : p.failures.contains v = true) :
    Compiled functions source definitions early (done ++ [v]) p where
  kept := h.kept
  pending w hw := h.pending w fun hmem => hw (List.mem_append_left _ hmem)
  sound := h.sound
  either w hw := by
    rcases List.mem_append.mp hw with hw | hw
    · exact h.either w hw
    · exact .inl (List.mem_singleton.mp hw ▸ hv)
  apart := h.apart
  cycle := h.cycle
  upstream := h.upstream
  ends := h.ends

/-- A definition gets a graph. -/
theorem Compiled.succeed (h : Compiled functions source definitions early done p) (x : CompiledVariable)
    (hdefined : definitions.contains v = true) (hv : ¬Faulty functions source definitions v) :
    Compiled functions source definitions early (done ++ [v]) { p with compiled := p.compiled.insert v x } where
  kept := h.kept
  pending w hw := by
    obtain ⟨hearly, hnone⟩ := h.pending w fun hmem => hw (List.mem_append_left _ hmem)
    refine ⟨hearly, ?_⟩
    rw [NameMap.get?_insert, if_neg fun heq => hw (List.mem_append_right _ (List.mem_singleton.mpr heq)), hnone]
  sound := h.sound
  either w hw := by
    rcases List.mem_append.mp hw with hw | hw
    · exact (h.either w hw).imp_right fun hw => NameMap.contains_insert.mpr (.inr hw)
    · exact .inr (NameMap.contains_insert.mpr (.inl (List.mem_singleton.mp hw)))
  apart w hw := by
    rcases NameMap.contains_insert.mp hw with rfl | hw
    · exact ⟨hdefined, hv⟩
    · exact h.apart w hw
  cycle := h.cycle
  upstream := h.upstream
  ends := h.ends

/-- Why a definition fails that has not failed before. -/
inductive Cause (source : Source) (definitions : Definitions) (failures : NameMap Failure) (v : String) :
    Failure → Prop where
  | own {f : Failure} : f.IsOwn → Cause source definitions failures v f
  | upstream {d : String} : Refers source definitions v d → failures.contains d = true →
      Cause source definitions failures v (.upstreamFailed d)

theorem get?_insert_new {failures : NameMap Failure} {w : String} {g : Failure} (hnew : failures.get? v = none)
    (hw : failures.get? w = some g) : (failures.insert v f).get? w = some g := by
  rw [NameMap.get?_insert, if_neg, hw]
  rintro rfl
  rw [hnew] at hw
  cases hw

theorem get?_insert_cases {failures : NameMap Failure} {w : String} {g : Failure}
    (hw : (failures.insert v f).get? w = some g) : w = v ∧ g = f ∨ failures.get? w = some g := by
  rw [NameMap.get?_insert] at hw
  split at hw
  · rename_i heq
    exact .inl ⟨heq, (Option.some.inj hw).symm⟩
  · exact .inr hw

theorem Ends.insert {failures : NameMap Failure} {w : String} (h : Ends failures w) (hnew : failures.get? v = none) :
    Ends (failures.insert v f) w := by
  obtain ⟨u, g, hchain, hu, hg⟩ := h
  exact ⟨u, g, ReflTransGen.mono (fun _ _ => get?_insert_new hnew) _ _ hchain, get?_insert_new hnew hu, hg⟩

/-- A definition fails. -/
theorem Compiled.fail (h : Compiled functions source definitions early done p) (hnew : p.failures.get? v = none)
    (hv : Faulty functions source definitions v) (hcause : Cause source definitions p.failures v f) :
    Compiled functions source definitions early (done ++ [v]) { p with failures := p.failures.insert v f } where
  kept w g hw := get?_insert_new hnew (h.kept w g hw)
  pending w hw := by
    obtain ⟨hearly, hnone⟩ := h.pending w fun hmem => hw (List.mem_append_left _ hmem)
    refine ⟨?_, hnone⟩
    rw [NameMap.get?_insert, if_neg fun heq => hw (List.mem_append_right _ (List.mem_singleton.mpr heq)), hearly]
  sound w hw := by
    rcases NameMap.contains_insert.mp hw with rfl | hw
    · exact hv
    · exact h.sound w hw
  either w hw := by
    rcases List.mem_append.mp hw with hw | hw
    · exact (h.either w hw).imp_left fun hw => NameMap.contains_insert.mpr (.inr hw)
    · exact .inl (NameMap.contains_insert.mpr (.inl (List.mem_singleton.mp hw)))
  apart := h.apart
  cycle w path hw := by
    rcases get?_insert_cases hw with ⟨-, rfl⟩ | hw
    · cases hcause with
      | own hown => cases hown
    · exact h.cycle w path hw
  upstream w d hw := by
    rcases get?_insert_cases hw with ⟨rfl, rfl⟩ | hw
    · cases hcause with
      | own hown => cases hown
      | upstream hrefers hd => exact ⟨hrefers, NameMap.contains_insert.mpr (.inr hd)⟩
    · exact (h.upstream w d hw).imp_right fun hd => NameMap.contains_insert.mpr (.inr hd)
  ends w hw := by
    rcases NameMap.contains_insert.mp hw with rfl | hw
    · have hself : (p.failures.insert w f).get? w = some f := by rw [NameMap.get?_insert, if_pos rfl]
      cases hcause with
      | own hown =>
        refine ⟨w, f, .refl, hself, fun d heq => ?_⟩
        subst heq
        cases hown
      | upstream hrefers hd =>
        obtain ⟨u, g, hchain, hu, hg⟩ := (h.ends _ hd).insert hnew
        exact ⟨u, g, .head hself hchain, hu, hg⟩
    · exact (h.ends w hw).insert hnew

/-! ### The next definition -/

theorem failedDependency_some {g : Digraph} {failures : NameMap Failure}
    (hdraws : Draws source definitions g) (hv : definitions.contains v = true)
    (h : failedDependency definitions.keys g failures v = some d) :
    Refers source definitions v d ∧ failures.contains d = true := by
  refine ⟨?_, List.find?_some h⟩
  obtain ⟨j, hj, rfl⟩ := List.mem_map.mp (List.mem_of_find?_eq_some h)
  have hrefers := hdraws.refers hj
  rwa [getD_idxOf (NameMap.mem_keys.mpr hv)] at hrefers

theorem failedDependency_none {g : Digraph} {failures : NameMap Failure} (hdraws : Draws source definitions g)
    (h : failedDependency definitions.keys g failures v = none) (hrefers : Refers source definitions v d) :
    failures.contains d = false := by
  have hmem : d ∈ (g.successors (definitions.keys.idxOf v)).map fun i => definitions.keys.getD i "" :=
    List.mem_map.mpr ⟨_, hdraws.edge hrefers, getD_idxOf hrefers.mem_keys_right⟩
  simpa using List.find?_eq_none.mp h d hmem

theorem nesting_eq (parsed : NameMap Expr) : nesting parsed = (parsed.keys.map (weight parsed)).sum + 1 := by
  unfold nesting NameMap.values NameMap.keys
  rw [List.map_map, List.map_map]
  congr 2
  refine List.map_congr_left fun p hp => ?_
  simp [weight, NameMap.mem_entries.mp hp]

theorem Needs.defined (h : Needs source definitions e d) : definitions.contains d = true := by
  obtain ⟨first, huses, hreach⟩ := h
  rcases ReflTransGen.cases_tail hreach with rfl | ⟨w, -, hwd⟩
  · exact huses.defined
  · exact NameMap.mem_keys.mp hwd.mem_keys_right

/-- There is room for every definition once, so an expression that is in order is not lowered only if it does not fit. -/
theorem Clear.lower_error {s : NodeStore} (hclear : Clear functions source definitions e)
    (h : lower ⟨functions, source, definitions, (parseAll definitions).1⟩ (nesting (parseAll definitions).1 + e.height) e s =
      .error f) : Unfit functions e ∧ f.IsOwn := by
  have hfuel : e.height + ((parseAll definitions).1.keys.map (weight (parseAll definitions).1)).sum ≤
      nesting (parseAll definitions).1 + e.height := by
    rw [nesting_eq]
    omega
  have hneeds : ∀ d, Needs source definitions e d → d ∈ (parseAll definitions).1.keys := by
    intro d hd
    obtain ⟨e', he'⟩ := exists_means hd.defined (hclear.needs d hd)
    exact NameMap.mem_keys.mpr (NameMap.contains_iff.mpr ⟨e', parseAll_parsed.mpr he'⟩)
  exact Compilation.lower_error (fun _ _ => parseAll_parsed) _ e hfuel hneeds hclear h

theorem clear_of_refers (he : Means definitions v e) (hresolved : ∀ f, ¬Unresolved source definitions e f)
    (hok : ∀ d, Refers source definitions v d → ¬Faulty functions source definitions d) :
    Clear functions source definitions e := by
  refine ⟨hresolved, fun d hd hbroken => ?_⟩
  obtain ⟨first, huses, hreach⟩ := hd
  exact hok first ⟨e, he, huses⟩ ⟨d, hreach, hbroken⟩

/-- A definition that is done, or on a cycle, has failed iff it is faulty. -/
theorem Compiled.failed_iff (h : Compiled functions source definitions early done p)
    (hearly : Early functions source definitions early) (hd : ¬TransGen (Refers source definitions) d d → d ∈ done) :
    p.failures.contains d = true ↔ Faulty functions source definitions d := by
  refine ⟨h.sound d, fun hfaulty => ?_⟩
  by_cases hon : TransGen (Refers source definitions) d d
  · obtain ⟨path, hpath⟩ := (hearly.cycle d).mpr hon
    exact NameMap.contains_iff.mpr ⟨_, h.kept d _ hpath⟩
  · exact (h.either d (hd hon)).resolve_right fun hcompiled => (h.apart d hcompiled).2 hfaulty

/-- Compiling a definition off cycles, behind those off cycles that it refers to. -/
theorem Compiled.step (hearly : Early functions source definitions early)
    (h : Compiled functions source definitions early done p) (hv : definitions.contains v = true)
    (hcycle : ¬TransGen (Refers source definitions) v v)
    (hdone : ∀ d, Refers source definitions v d → ¬TransGen (Refers source definitions) d d → d ∈ done) (hnew : v ∉ done) :
    Compiled functions source definitions early (done ++ [v])
      (compileOne ⟨functions, source, definitions, (parseAll definitions).1⟩ definitions.keys
        (linked source definitions).1 p v) := by
  unfold compileOne
  split
  · rename_i hcontains
    exact h.skip hcontains
  · rename_i hcontains
    have hnone : p.failures.get? v = none := by simpa [NameMap.contains] using hcontains
    split
    · rename_i d hd
      obtain ⟨hrefers, hcontains⟩ := failedDependency_some (linked_draws source definitions) hv hd
      exact h.fail hnone ((h.sound d hcontains).user hrefers) (.upstream hrefers hcontains)
    · rename_i hdeps
      have hok : ∀ d, Refers source definitions v d → ¬Faulty functions source definitions d := by
        intro d hd hfaulty
        have := failedDependency_none (linked_draws source definitions) hdeps hd
        rw [(h.failed_iff hearly (hdone d hd)).mpr hfaulty] at this
        cases this
      have hearly' : early.contains v = false := by
        rw [NameMap.contains, ← (h.pending v hnew).1, hnone]
        rfl
      obtain ⟨e, he, hresolved⟩ := hearly.clean v hv hearly'
      have hclear := clear_of_refers he hresolved hok
      have hparsed : (parseAll definitions).1.get? v = some e := parseAll_parsed.mpr he
      simp only [hparsed]
      split
      · rename_i hlower
        refine h.succeed _ hv fun hfaulty => ?_
        obtain ⟨d, hd, hfaulty⟩ := hfaulty.through he (lower_fits _ e hlower) hresolved hcycle
        exact hok d hd hfaulty
      · rename_i f hlower
        obtain ⟨hunfit, hown⟩ := hclear.lower_error hlower
        exact h.fail hnone (broken_of_unfit he hunfit).faulty (.own hown)

end

/-! ### All definitions -/

/-- The names of the definitions off cycles, as compiling takes them. -/
def compileOrder (source : Source) (definitions : Definitions) : List String :=
  ((linked source definitions).1.sort.order.map fun i => definitions.keys.getD i "").filter fun name =>
    !((earlyFailures source definitions).get? name).any Failure.isCycle

/-- What has become of the definitions in the end. -/
def compileAll (functions : Functions) (source : Source) (definitions : Definitions) : Progress :=
  (compileOrder source definitions).foldl
    (compileOne ⟨functions, source, definitions, (parseAll definitions).1⟩ definitions.keys (linked source definitions).1)
    ⟨.empty, earlyFailures source definitions⟩

theorem compile_eq (functions : Functions) (source : Source) (definitions : Definitions) :
    compile functions source definitions =
      ⟨(compileAll functions source definitions).compiled, (compileAll functions source definitions).failures,
        compileOrder source definitions, definitions.keys, (linked source definitions).1⟩ := rfl

/-- The order has the definitions off cycles once, each behind those off cycles that it refers to. -/
structure Orders (source : Source) (definitions : Definitions) (order : List String) : Prop where
  nodup : order.Nodup
  mem : ∀ v, v ∈ order ↔ definitions.contains v = true ∧ ¬TransGen (Refers source definitions) v v
  ordered : order.Pairwise fun v d => ¬Refers source definitions v d

theorem notCycle_iff : (!((earlyFailures source definitions).get? v).any Failure.isCycle) = true ↔
    ¬TransGen (Refers source definitions) v v := by
  rw [← ((early_spec ⟨[]⟩ source definitions).cycle v), Bool.not_eq_true', ← Bool.not_eq_true]
  refine not_congr ?_
  cases hget : (earlyFailures source definitions).get? v with
  | none => simp
  | some f => cases f <;> simp [Failure.isCycle]

theorem compileOrder_orders (source : Source) (definitions : Definitions) :
    Orders source definitions (compileOrder source definitions) := by
  have hdraws := linked_draws source definitions
  obtain ⟨hsorting, hall⟩ := (linked source definitions).1.sort_sorting
  have hlt : ∀ {i}, i ∈ (linked source definitions).1.sort.order → i < definitions.keys.length :=
    fun hi => hdraws.count ▸ hsorting.lt _ hi
  have hgetD : ∀ {i}, i < definitions.keys.length → definitions.keys[i]? = some (definitions.keys.getD i "") := by
    intro i hi
    rw [List.getD_eq_getElem?_getD, List.getElem?_eq_getElem hi]
    rfl
  have hfilter : ∀ {v}, v ∈ compileOrder source definitions ↔
      v ∈ (linked source definitions).1.sort.order.map (fun i => definitions.keys.getD i "") ∧
        ¬TransGen (Refers source definitions) v v := by
    intro v
    unfold compileOrder
    rw [List.mem_filter, notCycle_iff]
  refine ⟨?_, fun v => ?_, ?_⟩
  · refine List.Nodup.filter _ (List.Nodup.map_on (fun i hi j hj heq => ?_) hsorting.nodup)
    have hsame : definitions.keys[i]? = definitions.keys[j]? := by rw [hgetD (hlt hi), hgetD (hlt hj), heq]
    exact (List.getElem?_inj (hlt hi) definitions.nodup_keys).mp hsame
  · rw [hfilter, ← NameMap.mem_keys]
    refine and_congr_left fun _ => ⟨fun h => ?_, fun h => ?_⟩
    · obtain ⟨i, hi, rfl⟩ := List.mem_map.mp h
      exact List.mem_of_getElem? (hgetD (hlt hi))
    · have hi : definitions.keys.idxOf v < (linked source definitions).1.count :=
        hdraws.count ▸ List.idxOf_lt_length_of_mem h
      exact List.mem_map.mpr ⟨_, hall _ hi, getD_idxOf h⟩
  · -- A definition before one that it refers to is on a cycle with it.
    have hpair : ((linked source definitions).1.sort.order.map fun i => definitions.keys.getD i "").Pairwise
        fun v d => Refers source definitions v d → ReflTransGen (Refers source definitions) d v := by
      refine List.pairwise_map.mpr (hsorting.ordered.imp_of_mem fun {i j} hi hj h hrefers => ?_)
      have hidx : ∀ {i}, i < definitions.keys.length → definitions.keys.idxOf (definitions.keys.getD i "") = i := by
        intro i hi
        rw [List.getD_eq_getElem?_getD, List.getElem?_eq_getElem hi]
        exact definitions.nodup_keys.idxOf_getElem i hi
      have hedge := hdraws.edge hrefers
      rw [hidx (hlt hi), hidx (hlt hj)] at hedge
      exact (h hedge).lift (fun i => definitions.keys.getD i "") fun _ _ => hdraws.refers
    refine List.Pairwise.imp_of_mem ?_ (hpair.filter _)
    intro v d hv _ h hrefers
    exact (hfilter.mp hv).2 (.head' hrefers (h hrefers))

namespace Orders

variable {order done rest : List String}

theorem contains (h : Orders source definitions order) (hv : v ∈ order) : definitions.contains v = true := ((h.mem v).mp hv).1

theorem acyclic (h : Orders source definitions order) (hv : v ∈ order) : ¬TransGen (Refers source definitions) v v :=
  ((h.mem v).mp hv).2

/-- A definition is not among those before it. -/
theorem fresh (h : Orders source definitions order) (hinitial : done ++ v :: rest <+: order) : v ∉ done := by
  have hnodup := h.nodup.sublist hinitial.sublist
  exact fun hmem => (List.nodup_append.mp hnodup).2.2 v hmem v List.mem_cons_self rfl

/-- Those off cycles that a definition refers to are before it. -/
theorem before (h : Orders source definitions order) (hinitial : done ++ v :: rest <+: order) (d : String)
    (hd : Refers source definitions v d) (hon : ¬TransGen (Refers source definitions) d d) : d ∈ done := by
  obtain ⟨tail, rfl⟩ := hinitial
  have hmem := (h.mem d).mpr ⟨NameMap.mem_keys.mp hd.mem_keys_right, hon⟩
  rw [List.append_assoc, List.cons_append, List.mem_append, List.mem_cons] at hmem
  rcases hmem with hmem | rfl | hmem
  · exact hmem
  · exact absurd (.single hd) hon
  · have hpair := h.ordered
    rw [List.append_assoc, List.cons_append] at hpair
    exact absurd hd ((List.pairwise_cons.mp (List.pairwise_append.mp hpair).2.1).1 d hmem)

end Orders

/-- Why definitions fail. -/
structure Explained (functions : Functions) (source : Source) (definitions : Definitions) (c : Compilation) : Prop where
  either : ∀ v, definitions.contains v = true ↔ c.compiled.contains v = true ∨ c.failures.contains v = true
  apart : ∀ v, ¬(c.compiled.contains v = true ∧ c.failures.contains v = true)
  failed : ∀ v, c.failures.contains v = true ↔ Faulty functions source definitions v
  cycle : ∀ v, (∃ path, c.failures.get? v = some (.cycle path)) ↔ TransGen (Refers source definitions) v v
  upstream : ∀ v d, c.failures.get? v = some (.upstreamFailed d) →
    Refers source definitions v d ∧ c.failures.contains d = true
  ends : ∀ v, c.failures.contains v = true → Ends c.failures v

/-- What has become of the definitions when some have been taken in the order. -/
def compileSome (functions : Functions) (source : Source) (definitions : Definitions) (done : List String) : Progress :=
  done.foldl
    (compileOne ⟨functions, source, definitions, (parseAll definitions).1⟩ definitions.keys (linked source definitions).1)
    ⟨.empty, earlyFailures source definitions⟩

theorem compileSome_compiled (functions : Functions) {done : List String}
    (h : done <+: compileOrder source definitions) :
    Compiled functions source definitions (earlyFailures source definitions) done
      (compileSome functions source definitions done) := by
  have horders := compileOrder_orders source definitions
  have hearly := early_spec functions source definitions
  have key : ∀ (rest done : List String) (p : Progress), done ++ rest <+: compileOrder source definitions →
      Compiled functions source definitions (earlyFailures source definitions) done p →
      Compiled functions source definitions (earlyFailures source definitions) (done ++ rest)
        (rest.foldl (compileOne ⟨functions, source, definitions, (parseAll definitions).1⟩ definitions.keys
          (linked source definitions).1) p) := by
    intro rest
    induction rest with
    | nil => simp
    | cons v rest ih =>
      intro done p hinitial h
      have hstep := ih (done ++ [v]) _ (by simpa using hinitial) (h.step hearly
        (horders.contains (hinitial.subset (by simp))) (horders.acyclic (hinitial.subset (by simp)))
        (horders.before hinitial) (horders.fresh hinitial))
      rwa [List.append_assoc, List.singleton_append] at hstep
  exact key done [] _ h (compiled_start hearly)

theorem compileAll_compiled (functions : Functions) (source : Source) (definitions : Definitions) :
    Compiled functions source definitions (earlyFailures source definitions) (compileOrder source definitions)
      (compileAll functions source definitions) := compileSome_compiled functions List.prefix_rfl

/-- Every definition has a graph or a failure. It has a failure iff it is broken or refers to one that is, at once or
    through others: one for a cycle iff it lies on one, and one for another definition only where it refers to that
    and that has failed. From there on one comes to a failure for another reason. -/
theorem compile_explained (functions : Functions) (source : Source) (definitions : Definitions) :
    Explained functions source definitions (compile functions source definitions) := by
  have h := compileAll_compiled functions source definitions
  have hearly := early_spec functions source definitions
  have horders := compileOrder_orders source definitions
  rw [compile_eq]
  have heither : ∀ v, definitions.contains v = true →
      (compileAll functions source definitions).failures.contains v = true ∨
        (compileAll functions source definitions).compiled.contains v = true := by
    intro v hv
    by_cases hcycle : TransGen (Refers source definitions) v v
    · obtain ⟨path, hpath⟩ := (hearly.cycle v).mpr hcycle
      exact .inl (NameMap.contains_iff.mpr ⟨_, h.kept v _ hpath⟩)
    · exact h.either v ((horders.mem v).mpr ⟨hv, hcycle⟩)
  refine ⟨fun v => ⟨fun hv => (heither v hv).symm, ?_⟩, fun v ⟨hcompiled, hfailed⟩ => ?_,
    fun v => ⟨h.sound v, fun hfaulty => ?_⟩, fun v => ⟨fun ⟨path, hpath⟩ => ?_, fun hcycle => ?_⟩, h.upstream, h.ends⟩
  · rintro (hcompiled | hfailed)
    · exact (h.apart v hcompiled).1
    · exact (h.sound v hfailed).contains
  · exact (h.apart v hcompiled).2 (h.sound v hfailed)
  · exact (heither v hfaulty.contains).resolve_right fun hcompiled => (h.apart v hcompiled).2 hfaulty
  · exact (hearly.cycle v).mp ⟨path, h.cycle v path hpath⟩
  · obtain ⟨path, hpath⟩ := (hearly.cycle v).mpr hcycle
    exact ⟨path, h.kept v _ hpath⟩

end Concord.Compilation
