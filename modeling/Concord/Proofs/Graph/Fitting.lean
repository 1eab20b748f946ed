import Mathlib.Algebra.BigOperators.Group.List.Basic
import Concord.Proofs.Graph.Binding
import Concord.Proofs.Graph.Linking

/-! Which expressions lowering puts into a graph: those whose calls all fit, where the definitions that they need
    are in order. The bound on the nesting is never met then. -/

namespace Concord

-- Sums start at the built-in zero, also where the algebra of numbers is known.
attribute [local instance (10000)] Zero.ofOfNat0

/-- A failure of a definition itself, neither for a cycle nor for another definition. -/
def Failure.IsOwn : Failure → Prop
  | .cycle _ => False
  | .upstreamFailed _ => False
  | _ => True

theorem Functions.bindFirst_error {name : String} {args : List Expr} {kwargs : List (String × Expr)} {f : Failure} :
    ∀ {specs : List FunctionSpec} {demand : Option Param}, bindFirst name args kwargs demand specs = .error f → f.IsOwn
  | [], none, h => by
    cases h
    trivial
  | [], some _, h => by
    cases h
    trivial
  | spec :: specs, demand, h => by
    cases hspec : bindOne spec args kwargs with
    | ok call =>
      simp only [bindFirst, hspec] at h
      cases h
    | error x => cases x <;> simp only [bindFirst, hspec] at h <;> exact bindFirst_error h

theorem foldlM_eq_error {α β ε : Type} {step : β → α → Except ε β} {x : ε} :
    ∀ {l : List α} {acc : β}, l.foldlM step acc = .error x → ∃ a ∈ l, ∃ acc', step acc' a = .error x
  | [], _, h => by cases h
  | a :: l, acc, h => by
    rw [List.foldlM_cons] at h
    cases ha : step acc a with
    | error y =>
      rw [ha] at h
      cases h
      exact ⟨a, List.mem_cons_self, acc, ha⟩
    | ok acc' =>
      rw [ha] at h
      obtain ⟨b, hb, h⟩ := foldlM_eq_error h
      exact ⟨b, List.mem_cons_of_mem _ hb, h⟩

theorem foldlM_eq_ok {α β ε : Type} {step : β → α → Except ε β} :
    ∀ {l : List α} {acc r : β}, l.foldlM step acc = .ok r → ∀ a ∈ l, ∃ acc' r', step acc' a = .ok r'
  | [], _, _, _, _, ha => absurd ha List.not_mem_nil
  | b :: l, acc, _, h, a, ha => by
    obtain ⟨mid, hmid, h⟩ := foldlM_cons_eq_ok.mp h
    rcases List.mem_cons.mp ha with rfl | ha
    · exact ⟨acc, mid, hmid⟩
    · exact foldlM_eq_ok h a ha

namespace Compilation

variable {source : Source} {definitions : Definitions} {functions : Functions} {v d : String} {e : Expr} {c : Context}
  {fuel : Nat} {f : Failure} {s : NodeStore}

/-! ### Steps of lowering -/

theorem lowerNext_error {acc : NodeStore × List Nat} (h : lowerNext c fuel acc e = .error f) :
    lower c fuel e acc.1 = .error f := by
  unfold lowerNext at h
  cases hlower : lower c fuel e acc.1 with
  | error x =>
    rw [hlower] at h
    cases h
    rfl
  | ok r =>
    rw [hlower] at h
    cases h

theorem lower_call_error {name : String} {args : List Expr} {kwargs : List (String × Expr)}
    (h : lower c (fuel + 1) (.call name args kwargs) s = .error f) : c.functions.bind name args kwargs = .error f ∨
      ∃ call a s', c.functions.bind name args kwargs = .ok call ∧ a ∈ call.arrays ∧ lower c fuel a s' = .error f := by
  rw [lower_call] at h
  cases hcall : c.functions.bind name args kwargs with
  | error x =>
    rw [hcall] at h
    cases h
    exact .inl rfl
  | ok call =>
    rw [hcall] at h
    dsimp only [Bind.bind, Except.bind] at h
    cases hfold : call.arrays.foldlM (lowerNext c fuel) (s, []) with
    | ok r =>
      rw [hfold] at h
      cases h
    | error x =>
      rw [hfold] at h
      cases h
      obtain ⟨a, hmem, acc, hnext⟩ := foldlM_eq_error hfold
      exact .inr ⟨call, a, acc.1, rfl, hmem, lowerNext_error hnext⟩

/-! ### What fits -/

/-- An expression is a text, or a call within it fits no function. -/
inductive Unfit (functions : Functions) (e : Expr) : Prop where
  | bare {s : String} : e = .text s → Unfit functions e
  | unbindable {name : String} {args : List Expr} {kwargs : List (String × Expr)} {f : Failure} :
      (Expr.call name args kwargs).Within e → functions.bind name args kwargs = .error f → Unfit functions e

/-- What is in a graph fits. -/
theorem lower_fits : ∀ (fuel : Nat) (e : Expr) {s : NodeStore} {r : NodeStore × Nat},
    lower c fuel e s = .ok r → ¬Unfit c.functions e
  | 0, _, _, _, h => by
    obtain ⟨_, hfuel, -⟩ := lower_cases h
    cases hfuel
  | fuel + 1, e, s, r, h => by
    obtain ⟨_, ⟨⟩, hr⟩ := lower_cases h
    rintro (rfl | ⟨hwithin, herror⟩)
    · cases hr
    cases hr with
    | number => cases hwithin
    | input => cases hwithin
    | definition => cases hwithin
    | call hcall ht =>
      rcases within_call_iff.mp hwithin with heq | ⟨a, ha, hwithin⟩
      · cases heq
        cases hcall.symm.trans herror
      · rcases (Functions.bind_binds hcall).rest a ha with hmem | hliteral
        · obtain ⟨acc, r', hr'⟩ := foldlM_eq_ok ht a hmem
          obtain ⟨r'', hr'', -⟩ := lowerNext_eq_ok.mp hr'
          exact lower_fits fuel a hr'' (.unbindable hwithin herror)
        · cases hliteral <;> cases hwithin

/-! ### What is lowered -/

/-- What is wrong with a definition itself. -/
inductive Broken (functions : Functions) (source : Source) (definitions : Definitions) (v : String) : Prop where
  | malformed {text : String} {x : SyntaxError} :
      definitions.get? v = some text → Parser.parse text = .error x → Broken functions source definitions v
  | unresolved {e : Expr} {d : String} : Means definitions v e → (Expr.operand d).Within e →
      source.describe d = none → definitions.contains d = false → Broken functions source definitions v
  | unbindable {e : Expr} {name : String} {args : List Expr} {kwargs : List (String × Expr)} {f : Failure} :
      Means definitions v e → (Expr.call name args kwargs).Within e → functions.bind name args kwargs = .error f →
      Broken functions source definitions v
  | bare {s : String} : Means definitions v (.text s) → Broken functions source definitions v
  | cyclic : Relation.TransGen (Refers source definitions) v v → Broken functions source definitions v

theorem broken_of_unfit (he : Means definitions v e) (h : Unfit functions e) : Broken functions source definitions v := by
  cases h with
  | bare heq => exact .bare (heq ▸ he)
  | unbindable hwithin herror => exact .unbindable he hwithin herror

/-- A definition that is not broken has an expression. -/
theorem exists_means (hd : definitions.contains d = true) (h : ¬Broken functions source definitions d) :
    ∃ e, Means definitions d e := by
  obtain ⟨text, htext⟩ := NameMap.contains_iff.mp hd
  cases hparse : Parser.parse text with
  | ok e => exact ⟨e, text, htext, hparse⟩
  | error x => exact absurd (.malformed htext hparse) h

/-- An expression needs a definition, at once or through others. -/
def Needs (source : Source) (definitions : Definitions) (e : Expr) (d : String) : Prop :=
  ∃ first, Uses source definitions e first ∧ Relation.ReflTransGen (Refers source definitions) first d

/-- All names within an expression refer to something, and no definition that it needs is broken. -/
structure Clear (functions : Functions) (source : Source) (definitions : Definitions) (e : Expr) : Prop where
  resolved : ∀ f, ¬Unresolved source definitions e f
  needs : ∀ d, Needs source definitions e d → ¬Broken functions source definitions d

theorem Needs.argument {name : String} {args : List Expr} {kwargs : List (String × Expr)} {a : Expr}
    (ha : Argument args kwargs a) (h : Needs source definitions a d) :
    Needs source definitions (.call name args kwargs) d := by
  obtain ⟨first, huses, hreach⟩ := h
  exact ⟨first, ⟨ha.within huses.operand name, huses.input, huses.defined⟩, hreach⟩

theorem Clear.argument {name : String} {args : List Expr} {kwargs : List (String × Expr)} {a : Expr}
    (h : Clear functions source definitions (.call name args kwargs)) (ha : Argument args kwargs a) :
    Clear functions source definitions a where
  resolved f := fun ⟨d, hd, hres⟩ => h.resolved f ⟨d, ha.within hd name, hres⟩
  needs d hd := h.needs d (hd.argument ha)

/-- What the expression of a definition needs is needed where the definition is used. -/
theorem Needs.through {e' : Expr} (huses : Uses source definitions e d) (hd : Means definitions d e')
    (h : Needs source definitions e' v) : Relation.TransGen (Refers source definitions) d v ∧ Needs source definitions e v := by
  obtain ⟨first, huses', hreach⟩ := h
  have hfirst : Refers source definitions d first := ⟨e', hd, huses'⟩
  exact ⟨.head' hfirst hreach, d, huses, .head hfirst hreach⟩

theorem Clear.through {e' : Expr} (h : Clear functions source definitions e) (huses : Uses source definitions e d)
    (hd : Means definitions d e') : Clear functions source definitions e' where
  resolved f := by
    rintro ⟨d', hd', hres⟩
    obtain ⟨-, hinput, hdefined⟩ := resolve_error.mp hres
    exact h.needs d ⟨d, huses, .refl⟩ (.unresolved hd hd' hinput hdefined)
  needs v hv := h.needs v (Needs.through huses hd hv).2

/-- The levels of the expression of a definition, with one for its name. -/
def weight (parsed : NameMap Expr) (d : String) : Nat := ((parsed.get? d).map fun e => e.height + 1).getD 0

theorem weight_erase {parsed : NameMap Expr} {pending : List String} (hget : parsed.get? d = some e) (hmem : d ∈ pending) :
    e.height + 1 + ((pending.erase d).map (weight parsed)).sum = (pending.map (weight parsed)).sum := by
  have hsum := List.sum_map_erase (weight parsed) hmem
  have hweight : weight parsed d = e.height + 1 := by
    rw [weight, hget]
    rfl
  omega

/-- Where what an expression needs is in order, it is not lowered only if it does not fit: `pending` are the
    definitions that may still be met, and the bound has room for each of them once. -/
theorem lower_error (hparsed : ∀ v e, c.parsed.get? v = some e ↔ Means c.definitions v e) :
    ∀ (fuel : Nat) (e : Expr) {pending : List String} {s : NodeStore} {f : Failure},
      e.height + (pending.map (weight c.parsed)).sum ≤ fuel →
      (∀ d, Needs c.source c.definitions e d → d ∈ pending) → Clear c.functions c.source c.definitions e →
      lower c fuel e s = .error f → Unfit c.functions e ∧ f.IsOwn
  | 0, e, _, _, _, hfuel, _, _, _ => by
    have := e.one_le_height
    omega
  | fuel + 1, .number x, _, _, _, _, _, _, h => by
    rw [lower] at h
    · cases h
    · exact Nat.succ_ne_zero _
  | fuel + 1, .text t, _, _, _, _, _, _, h => by
    rw [lower] at h
    · cases h
      exact ⟨.bare rfl, trivial⟩
    · exact Nat.succ_ne_zero _
  | fuel + 1, .operand name, pending, s, f, hfuel, hneeds, hclear, h => by
    rw [lower] at h
    cases hres : resolve c.source c.definitions name with
    | error x => exact absurd ⟨name, .self, hres⟩ (hclear.resolved x)
    | ok r =>
      rw [hres] at h
      cases r with
      | input m => cases h
      | definition d =>
        obtain ⟨rfl, hinput, hdefined⟩ := resolve_definition.mp hres
        have huses : Uses c.source c.definitions (.operand name) name := ⟨.self, hinput, hdefined⟩
        have hbroken := hclear.needs name ⟨name, huses, .refl⟩
        obtain ⟨e, he⟩ := exists_means hdefined hbroken
        have hget := (hparsed name e).mpr he
        have hlower : lower c fuel e s = .error f := by
          dsimp only [Bind.bind, Except.bind] at h
          rw [hget] at h
          exact h
        have hmem : name ∈ pending := hneeds name ⟨name, huses, .refl⟩
        have hfuel' : e.height + ((pending.erase name).map (weight c.parsed)).sum ≤ fuel := by
          have hweight := weight_erase hget hmem
          have hone : (Expr.operand name).height = 1 := rfl
          omega
        -- The definition refers to itself by no path, so that it is not met again.
        have hneeds' : ∀ d, Needs c.source c.definitions e d → d ∈ pending.erase name := by
          intro d hd
          obtain ⟨hreach, hneed⟩ := Needs.through huses he hd
          have hne : d ≠ name := by
            rintro rfl
            exact hbroken (.cyclic hreach)
          exact (List.mem_erase_of_ne hne).mpr (hneeds d hneed)
        obtain ⟨hunfit, -⟩ := lower_error hparsed fuel e hfuel' hneeds' (hclear.through huses he) hlower
        exact absurd (broken_of_unfit he hunfit) hbroken
  | fuel + 1, .call name args kwargs, pending, s, f, hfuel, hneeds, hclear, h => by
    rcases lower_call_error h with hcall | ⟨call, a, s', hcall, hmem, hnext⟩
    · exact ⟨.unbindable .self hcall, Functions.bindFirst_error hcall⟩
    · have hbinds := Functions.bind_binds hcall
      have ha := hbinds.argument a hmem
      have hlt := ha.height_lt name
      obtain ⟨hunfit, hown⟩ := lower_error hparsed fuel a (by omega) (fun d hd => hneeds d (hd.argument ha))
        (hclear.argument ha) hnext
      refine ⟨?_, hown⟩
      cases hunfit with
      | bare heq => exact absurd (heq ▸ hmem) (hbinds.ne_text _)
      | unbindable hwithin herror => exact .unbindable (ha.within hwithin name) herror

end Compilation
end Concord
