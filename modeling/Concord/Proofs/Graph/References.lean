import Concord.Graph.Compile
import Concord.Proofs.Graph.Cycles
import Concord.Proofs.Expr.Parts
import Concord.Proofs.NameMap

/-! References among definitions. The graph that compilation draws has an edge where a definition refers to
    another, and before any definition is compiled the failures are those of definitions that are malformed, refer
    to nothing or lie on a cycle. -/

namespace Concord

namespace Compilation

variable {source : Source} {definitions : Definitions} {v d : String} {e : Expr} {f : Failure}

/-! ### What definitions refer to -/

/-- The expression of a definition. -/
def Means (definitions : Definitions) (v : String) (e : Expr) : Prop :=
  ∃ text, definitions.get? v = some text ∧ Parser.parse text = .ok e

/-- An expression uses a definition: it has an operand of the name, and no input is of the name. -/
structure Uses (source : Source) (definitions : Definitions) (e : Expr) (d : String) : Prop where
  operand : (Expr.operand d).Within e
  input : source.describe d = none
  defined : definitions.contains d = true

/-- A definition refers to another. -/
def Refers (source : Source) (definitions : Definitions) (v d : String) : Prop :=
  ∃ e, Means definitions v e ∧ Uses source definitions e d

theorem Means.contains (h : Means definitions v e) : definitions.contains v = true := by
  obtain ⟨text, htext, -⟩ := h
  exact NameMap.contains_iff.mpr ⟨text, htext⟩

theorem Means.unique {e' : Expr} (h : Means definitions v e) (h' : Means definitions v e') : e = e' := by
  obtain ⟨text, htext, hparse⟩ := h
  obtain ⟨text', htext', hparse'⟩ := h'
  cases htext.symm.trans htext'
  exact Except.ok.inj (hparse.symm.trans hparse')

theorem resolve_input {m : InputMetadata} : resolve source definitions v = .ok (.input m) ↔ source.describe v = some m := by
  unfold resolve
  split
  · rename_i hm
    simp [hm]
  · rename_i hm
    rw [hm]
    split <;> simp

theorem resolve_definition : resolve source definitions v = .ok (.definition d) ↔
    v = d ∧ source.describe d = none ∧ definitions.contains d = true := by
  unfold resolve
  split
  · rename_i hinput
    simp
    rintro rfl
    simp [hinput]
  · rename_i hinput
    split
    · rename_i hdefined
      simp only [Except.ok.injEq, Reference.definition.injEq]
      constructor
      · rintro rfl
        exact ⟨rfl, hinput, hdefined⟩
      · exact fun h => h.1
    · rename_i hdefined
      simp
      rintro rfl -
      simpa using hdefined

theorem resolve_error : resolve source definitions d = .error f ↔
    f = .unresolvedReference d ∧ source.describe d = none ∧ definitions.contains d = false := by
  unfold resolve
  split
  · rename_i hinput
    simp [hinput]
  · rename_i hinput
    split
    · rename_i hdefined
      simp [hdefined]
    · rename_i hdefined
      simp [hinput, hdefined, eq_comm]

/-! ### Parsing -/

/-- Goes on to the next definition. -/
def parseOne (acc : NameMap Expr × NameMap Failure) (p : String × String) : NameMap Expr × NameMap Failure :=
  match Parser.parse p.2 with
  | .ok e => (acc.1.insert p.1 e, acc.2)
  | .error e => (acc.1, acc.2.insert p.1 (.malformed e))

theorem parseAll_eq (definitions : Definitions) :
    parseAll definitions = definitions.entries.foldl parseOne (.empty, .empty) := rfl

/-- The expressions and failures of the definitions that are parsed so far. -/
structure Parsing (done : List (String × String)) (acc : NameMap Expr × NameMap Failure) : Prop where
  parsed : ∀ v e, acc.1.get? v = some e ↔ ∃ text, (v, text) ∈ done ∧ Parser.parse text = .ok e
  failed : ∀ v f, acc.2.get? v = some f ↔
    ∃ text x, (v, text) ∈ done ∧ Parser.parse text = .error x ∧ f = .malformed x

theorem Parsing.step {done : List (String × String)} {acc : NameMap Expr × NameMap Failure} {p : String × String}
    (h : Parsing done acc) (hnew : p.1 ∉ done.map (·.1)) : Parsing (done ++ [p]) (parseOne acc p) := by
  have hother : ∀ {text}, (p.1, text) ∉ done := fun hmem => hnew (List.mem_map.mpr ⟨_, hmem, rfl⟩)
  have hmem : ∀ {v text}, (v, text) ∈ done ++ [p] ↔ (v, text) ∈ done ∨ (v, text) = p := by simp
  have hkept : ∀ {v}, v ≠ p.1 → ∀ {text}, (v, text) ∈ done ++ [p] ↔ (v, text) ∈ done := by
    intro v hv text
    rw [hmem]
    exact ⟨fun h => h.resolve_right fun heq => hv (heq ▸ rfl), .inl⟩
  have hself : ∀ {text}, (p.1, text) ∈ done ++ [p] ↔ text = p.2 := by
    intro text
    rw [hmem]
    exact ⟨fun h => congrArg Prod.snd (h.resolve_left hother), fun h => .inr (h ▸ rfl)⟩
  have hnone : acc.1.get? p.1 = none := by
    refine Option.eq_none_iff_forall_ne_some.mpr fun e he => ?_
    obtain ⟨text, hmem, -⟩ := (h.parsed p.1 e).mp he
    exact hother hmem
  have hnone' : acc.2.get? p.1 = none := by
    refine Option.eq_none_iff_forall_ne_some.mpr fun f hf => ?_
    obtain ⟨text, x, hmem, -⟩ := (h.failed p.1 f).mp hf
    exact hother hmem
  unfold parseOne
  cases hparse : Parser.parse p.2 with
  | ok e =>
    refine ⟨fun v e' => ?_, fun v f => ?_⟩
    · rw [NameMap.get?_insert]
      split
      · rename_i hv
        subst hv
        simp [hself, hparse]
      · rename_i hv
        simp [hkept hv, h.parsed]
    · by_cases hv : v = p.1
      · subst hv
        simp [hself, hparse, hnone']
      · simp [hkept hv, h.failed]
  | error x =>
    refine ⟨fun v e' => ?_, fun v f => ?_⟩
    · by_cases hv : v = p.1
      · subst hv
        simp [hself, hparse, hnone]
      · simp [hkept hv, h.parsed]
    · rw [NameMap.get?_insert]
      split
      · rename_i hv
        subst hv
        simp [hself, hparse, eq_comm]
      · rename_i hv
        simp [hkept hv, h.failed]

theorem parseAll_parsing (definitions : Definitions) : Parsing definitions.entries (parseAll definitions) := by
  have key : ∀ (rest done : List (String × String)) (acc : NameMap Expr × NameMap Failure),
      ((done ++ rest).map (·.1)).Nodup → Parsing done acc → Parsing (done ++ rest) (rest.foldl parseOne acc) := by
    intro rest
    induction rest with
    | nil => simp
    | cons p rest ih =>
      intro done acc hnodup h
      have hnew : p.1 ∉ done.map (·.1) := by
        rw [List.map_append, List.map_cons] at hnodup
        intro hmem
        exact (List.nodup_append.mp hnodup).2.2 p.1 hmem p.1 List.mem_cons_self rfl
      have := ih (done ++ [p]) (parseOne acc p) (by simpa using hnodup) (h.step hnew)
      rwa [List.append_assoc, List.singleton_append] at this
  rw [parseAll_eq]
  exact key definitions.entries [] _ definitions.nodup_keys
    ⟨fun _ _ => by simp [NameMap.empty, NameMap.get?, NameMap.find],
      fun _ _ => by simp [NameMap.empty, NameMap.get?, NameMap.find]⟩

/-- The parsed definitions are those that mean an expression. -/
theorem parseAll_parsed : (parseAll definitions).1.get? v = some e ↔ Means definitions v e := by
  rw [(parseAll_parsing definitions).parsed]
  simp only [NameMap.mem_entries, Means]

/-- The others are malformed. -/
theorem parseAll_failed : (parseAll definitions).2.get? v = some f ↔
    ∃ text x, definitions.get? v = some text ∧ Parser.parse text = .error x ∧ f = .malformed x := by
  rw [(parseAll_parsing definitions).failed]
  simp only [NameMap.mem_entries]

end Compilation
end Concord
