import Concord.Proofs.Evaluate.Pointwise
import Concord.Proofs.Graph.Lowering
import Concord.Proofs.Graph.References
import Concord.Proofs.Measure.Exact

/-! The amounts that definitions of arithmetic stand for: their value in base units, where each input counts as many
    base units as its unit has. Lowering puts them into graphs. -/

namespace Concord

open Concord.Measure

/-! ### Amounts -/

/-- What a call makes of amounts. A conversion changes none; its unit has to be a product of symbols. -/
inductive Operation : String → CallOptions → List ℚ → ℚ → Prop
  | add {options : CallOptions} {x y : ℚ} : Operation "+" options [x, y] (x + y)
  | subtract {options : CallOptions} {x y : ℚ} : Operation "-" options [x, y] (x - y)
  | multiply {options : CallOptions} {x y : ℚ} : Operation "*" options [x, y] (x * y)
  | divide {options : CallOptions} {x y : ℚ} : Operation "/" options [x, y] (x / y)
  | keep {options : CallOptions} {x : ℚ} : Operation "+" options [x] x
  | negate {options : CallOptions} {x : ℚ} : Operation "-" options [x] (-x)
  | convert {options : CallOptions} {x : ℚ} {target : String} {u : Measure Double} :
      options.text? "units" = some target → read target = .ok u → Symbolic u → Operation "convert" options [x] x

/-- The amount of an input, an element of which is given: so many times the base units of its unit, which has to be a
    product of symbols. -/
inductive InputAmount (source : Source) (element : String → ℚ) (name : String) : ℚ → Prop
  | intro {m : InputMetadata} {u : Measure Double} : source.describe name = some m → read m.unit = .ok u →
      Symbolic u → InputAmount source element name (element name * siScale u.terms)

/-- The amount that an expression of arithmetic stands for. -/
inductive Amount (source : Source) (definitions : Definitions) (element : String → ℚ) : Expr → ℚ → Prop
  | input {name : String} {x : ℚ} : InputAmount source element name x →
      Amount source definitions element (.operand name) x
  | definition {name : String} {e : Expr} {x : ℚ} : source.describe name = none →
      Compilation.Means definitions name e → Amount source definitions element e x →
      Amount source definitions element (.operand name) x
  | unary {function : String} {args : List Expr} {kwargs : List (String × Expr)} {call : BoundCall} {e : Expr}
      {x z : ℚ} : Functions.builtins.bind function args kwargs = .ok call → call.arrays = [e] →
      Amount source definitions element e x → Operation function call.options [x] z →
      Amount source definitions element (.call function args kwargs) z
  | binary {function : String} {args : List Expr} {kwargs : List (String × Expr)} {call : BoundCall} {e e' : Expr}
      {x y z : ℚ} : Functions.builtins.bind function args kwargs = .ok call → call.arrays = [e, e'] →
      Amount source definitions element e x → Amount source definitions element e' y →
      Operation function call.options [x, y] z →
      Amount source definitions element (.call function args kwargs) z

/-- The amount that a node of a graph before resolution stands for. -/
inductive NodeAmount (source : Source) (element : String → ℚ) (s : NodeStore) : Nat → ℚ → Prop
  | input {id : Nat} {name : String} {x : ℚ} : s.keys[id]? = some (.operand name, []) →
      InputAmount source element name x → NodeAmount source element s id x
  | unary {id a : Nat} {function : String} {options : CallOptions} {x z : ℚ} :
      s.keys[id]? = some (.call function options, [a]) → NodeAmount source element s a x →
      Operation function options [x] z → NodeAmount source element s id z
  | binary {id a b : Nat} {function : String} {options : CallOptions} {x y z : ℚ} :
      s.keys[id]? = some (.call function options, [a, b]) → NodeAmount source element s a x →
      NodeAmount source element s b y → Operation function options [x, y] z → NodeAmount source element s id z

/-! ### Lowering -/

theorem NodeAmount.mono {source : Source} {element : String → ℚ} {s t : NodeStore} {id : Nat} {x : ℚ}
    (h : NodeAmount source element s id x) (hkeys : s.keys <+: t.keys) : NodeAmount source element t id x := by
  have hkey : ∀ {i : Nat} {k : NodeKind × List Nat}, s.keys[i]? = some k → t.keys[i]? = some k := by
    intro i k hk
    obtain ⟨more, hmore⟩ := hkeys
    rw [← hmore, List.getElem?_append_left (List.getElem?_eq_some_iff.mp hk).1, hk]
  induction h with
  | input hid hx => exact .input (hkey hid) hx
  | unary hid _ hop ih => exact .unary (hkey hid) ih hop
  | binary hid _ _ hop iha ihb => exact .binary (hkey hid) iha ihb hop

theorem NodeAmount.lt_count {source : Source} {element : String → ℚ} {s : NodeStore} {id : Nat} {x : ℚ}
    (h : NodeAmount source element s id x) : id < s.count := by
  have hkey : ∃ key, s.keys[id]? = some key := by
    cases h with
    | input h => exact ⟨_, h⟩
    | unary h => exact ⟨_, h⟩
    | binary h => exact ⟨_, h⟩
  obtain ⟨key, hkey⟩ := hkey
  have hlt := (List.getElem?_eq_some_iff.mp hkey).1
  rwa [NodeStore.keys, List.length_map] at hlt

namespace Compilation

variable {c : Context} {source : Source} {definitions : Definitions} {element : String → ℚ}

theorem foldlM_lowerNext_keys {fuel : Nat}
    (hlower : ∀ (e : Expr) {s : NodeStore} {r : NodeStore × Nat}, lower c fuel e s = .ok r → s.keys <+: r.1.keys) :
    ∀ {l : List Expr} {acc r : NodeStore × List Nat}, l.foldlM (lowerNext c fuel) acc = .ok r →
      acc.1.keys <+: r.1.keys
  | [], _, _, h => by
    cases h
    exact List.prefix_rfl
  | e :: l, acc, r, h => by
    obtain ⟨_, hu, h⟩ := foldlM_lowerNext_cons h
    exact (hlower e hu).trans (foldlM_lowerNext_keys hlower h)

theorem lower_keys : ∀ (fuel : Nat) (e : Expr) {s : NodeStore} {r : NodeStore × Nat}, lower c fuel e s = .ok r →
    s.keys <+: r.1.keys
  | 0, _, _, _, h => by
    obtain ⟨_, hfuel, -⟩ := lower_cases h
    cases hfuel
  | fuel + 1, e, s, r, h => by
    obtain ⟨_, ⟨⟩, hr⟩ := lower_cases h
    cases hr with
    | number => exact (NodeStore.keys_add s _ _).1
    | input => exact (NodeStore.keys_add s _ _).1
    | definition _ _ h => exact lower_keys fuel _ h
    | @call _ _ _ _ t _ _ ht =>
      exact (foldlM_lowerNext_keys (fun e => lower_keys fuel e) ht).trans (NodeStore.keys_add t _ _).1

/-- An expression is lowered to a node that stands for its amount. -/
theorem lower_amount {e : Expr} {x : ℚ} (he : Amount source definitions element e x)
    (hfunctions : c.functions = .builtins) (hsource : c.source = source)
    (hparsed : ∀ v e, c.parsed.get? v = some e ↔ Means definitions v e) :
    ∀ {fuel : Nat} {s : NodeStore} {r : NodeStore × Nat}, lower c fuel e s = .ok r →
      NodeAmount source element r.1 r.2 x := by
  -- By induction on the amount, not on the fuel: a definition is lowered in place of its name.
  induction he with
  | input hx =>
    intro fuel s r h
    obtain ⟨hm, hu, hsymbolic⟩ := hx
    obtain ⟨_, rfl, hr⟩ := lower_cases h
    cases hr with
    | input => exact .input (NodeStore.keys_add s _ _).2 (.intro hm hu hsymbolic)
    | definition href =>
      obtain ⟨rfl, hnone, -⟩ := resolve_definition.mp (hsource ▸ href)
      cases hnone.symm.trans hm
  | definition hinput hmeans _ ih =>
    intro fuel s r h
    obtain ⟨_, rfl, hr⟩ := lower_cases h
    cases hr with
    | input href =>
      cases (resolve_input.mp (hsource ▸ href)).symm.trans hinput
    | definition href he h =>
      obtain ⟨rfl, -⟩ := resolve_definition.mp href
      cases he.symm.trans ((hparsed _ _).mpr hmeans)
      exact ih h
  | unary hbind harrays _ hop ih =>
    intro fuel s r h
    obtain ⟨_, rfl, hr⟩ := lower_cases h
    cases hr with | call hcall ht => ?_
    cases (hfunctions ▸ hcall).symm.trans hbind
    rw [harrays] at ht
    obtain ⟨⟨u, a⟩, hu, ht⟩ := foldlM_lowerNext_cons ht
    cases ht
    exact .unary (NodeStore.keys_add _ _ _).2 ((ih hu).mono (NodeStore.keys_add _ _ _).1) hop
  | binary hbind harrays _ _ hop iha ihb =>
    intro fuel s r h
    obtain ⟨below, rfl, hr⟩ := lower_cases h
    cases hr with | call hcall ht => ?_
    cases (hfunctions ▸ hcall).symm.trans hbind
    rw [harrays] at ht
    obtain ⟨⟨u, a⟩, hu, ht⟩ := foldlM_lowerNext_cons ht
    obtain ⟨⟨w, b⟩, hw, ht⟩ := foldlM_lowerNext_cons ht
    cases ht
    have hadd := fun {t : NodeStore} {k : NodeKind} {parents : List Nat} => (NodeStore.keys_add t k parents).1
    exact .binary (NodeStore.keys_add _ _ _).2 ((iha hu).mono ((lower_keys below _ hw).trans hadd)) ((ihb hw).mono hadd)
      hop

/-- The graph of a definition is what its expression is lowered to. -/
def IsLowered (functions : Functions) (source : Source) (definitions : Definitions) (name : String)
    (v : CompiledVariable) : Prop :=
  ∃ fuel e, Means definitions name e ∧
    lower ⟨functions, source, definitions, (parseAll definitions).1⟩ fuel e .empty = .ok (v.store, v.root)

theorem compile_isLowered {functions : Functions} {name : String} {v : CompiledVariable}
    (h : (compile functions source definitions).compiled.get? name = some v) :
    IsLowered functions source definitions name v :=
  have hv := compile_graphOf h
  ⟨_, v.expression, parseAll_parsed.mp hv.parsed, hv.lowered⟩

/-- The root of the graph of a definition stands for the amount of the definition. -/
theorem compile_amount {name : String} {v : CompiledVariable} {e : Expr} {x : ℚ}
    (hv : (compile .builtins source definitions).compiled.get? name = some v) (he : Means definitions name e)
    (hx : Amount source definitions element e x) : NodeAmount source element v.store v.root x := by
  obtain ⟨fuel, e', he', hlower⟩ := compile_isLowered hv
  cases he.unique he'
  exact lower_amount hx rfl rfl (fun _ _ => parseAll_parsed) hlower

end Compilation
end Concord
