import Concord.Function.Builtin
import Concord.Proofs.Resolve.Resolved

/-! Compilation gives graphs of inputs, literals and calls, parents before their children, and the calls
    have the options that their functions demand. -/

namespace Concord

/-! ### Options of calls -/

namespace Functions

theorem length_place {params : List Param} {slots slots' : List (Option Expr)} {arg : String × Expr}
    (h : place params slots arg = some slots') : slots'.length = slots.length := by
  obtain ⟨i, -, h⟩ := Option.bind_eq_some_iff.mp h
  split at h
  · cases h
    exact List.length_set
  · cases h

theorem length_foldlM_place {params : List Param} :
    ∀ {kwargs : List (String × Expr)} {slots slots' : List (Option Expr)},
      kwargs.foldlM (place params) slots = some slots' → slots'.length = slots.length
  | [], _, _, h => by
    cases h
    rfl
  | _ :: _, _, _, h => by
    rw [List.foldlM_cons] at h
    obtain ⟨mid, hmid, h⟩ := Option.bind_eq_some_iff.mp h
    exact (length_foldlM_place h).trans (length_place hmid)

/-- Every parameter has a place. -/
theorem length_slots {params : List Param} {args : List Expr} {kwargs : List (String × Expr)}
    {sl : List (Option Expr)} (h : slots params args kwargs = some sl) : sl.length = params.length := by
  unfold slots at h
  split at h
  · cases h
  · rw [length_foldlM_place h, List.length_append, List.length_map, List.length_replicate]
    omega

theorem bindOne_eq_ok {f : FunctionSpec} {args : List Expr} {kwargs : List (String × Expr)} {call : BoundCall}
    (h : bindOne f args kwargs = .ok call) :
    ∃ sl, sl.length = f.params.length ∧ collect (f.params.zip sl) = .ok (call.arrays, call.options) := by
  unfold bindOne at h
  split at h
  · cases h
  · rename_i sl hsl
    obtain ⟨⟨arrays, options⟩, hc, rfl⟩ := map_eq_ok.mp h
    exact ⟨sl, length_slots hsl, hc⟩

/-- A call is bound to a function of the list. -/
theorem bindFirst_eq_ok {name : String} {args : List Expr} {kwargs : List (String × Expr)} {call : BoundCall} :
    ∀ {fs : List FunctionSpec} {demand : Option Param}, bindFirst name args kwargs demand fs = .ok call →
      ∃ f ∈ fs, bindOne f args kwargs = .ok call
  | [], none, h => by cases h
  | [], some _, h => by cases h
  | f :: fs, demand, h => by
    cases hf : bindOne f args kwargs with
    | ok c =>
      simp only [bindFirst, hf] at h
      exact ⟨f, List.mem_cons_self, by cases h; exact hf⟩
    | error e =>
      have hrest : ∃ demand', bindFirst name args kwargs demand' fs = .ok call := by
        cases e <;> simp only [bindFirst, hf] at h <;> exact ⟨_, h⟩
      obtain ⟨demand', hrest⟩ := hrest
      obtain ⟨f', hf', hc⟩ := bindFirst_eq_ok hrest
      exact ⟨f', List.mem_cons_of_mem _ hf', hc⟩

/-- The options that a call of a builtin function has: a power has its exponent. -/
def Fit (function : String) (options : CallOptions) : Prop :=
  function = "^" → (options.number? "exponent").isSome = true

theorem overloads_power : builtins.overloads "^" =
    [⟨"^", [arrayParam "x", numberParam "exponent"], .passThrough, .power, .map .power, true⟩] := by
  decide

theorem bind_fit {name : String} {args : List Expr} {kwargs : List (String × Expr)} {call : BoundCall}
    (h : builtins.bind name args kwargs = .ok call) : Fit name call.options := by
  rintro rfl
  obtain ⟨f, hf, h⟩ := bindFirst_eq_ok h
  rw [overloads_power, List.mem_singleton] at hf
  subst hf
  obtain ⟨sl, hlen, hc⟩ := bindOne_eq_ok h
  match sl, hlen with
  | [x, e], _ =>
    cases x with
    | none => cases hc
    | some x =>
      cases e with
      | none => cases x <;> cases hc
      | some e =>
        have hopt : ∃ y, call.options = [("exponent", .number y)] := by
          cases e with
          | number y =>
            refine ⟨y, ?_⟩
            cases x with
            | text t => cases hc
            | _ => exact (congrArg Prod.snd (Except.ok.inj hc)).symm
          | _ => cases x <;> cases hc
        obtain ⟨y, hy⟩ := hopt
        rw [hy]
        rfl

end Functions

/-! ### Lowering -/

section
variable {Fit : String → CallOptions → Prop} {s : NodeStore}

/-- What a node before resolution has to be. -/
def Plain (Fit : String → CallOptions → Prop) (kind : NodeKind) (parents : List Nat) : Prop :=
  match kind with
  | .literal _ => parents = []
  | .operand _ => parents = []
  | .call function options => Fit function options
  | _ => False

/-- A graph before resolution that grew by lowering, and one of its nodes. -/
structure Lowers (Fit : String → CallOptions → Prop) (s : NodeStore) (r : NodeStore × Nat) : Prop where
  lowered : Resolution.Lowered Fit r.1
  count : s.count ≤ r.1.count
  lt : r.2 < r.1.count

theorem add_lowers {k : NodeKind} {parents : List Nat} (hs : Resolution.Lowered Fit s)
    (hp : ∀ p ∈ parents, p < s.count) (hk : Plain Fit k parents) : Lowers Fit s (s.add k parents) := by
  unfold NodeStore.add
  cases hl : s.lookup k parents with
  | some id =>
    obtain ⟨n, hn, -⟩ := NodeStore.lookup_some hl
    exact ⟨hs, Nat.le_refl _, NodeStore.lt_count hn⟩
  | none =>
    refine ⟨fun i n hn => ?_, ?_, ?_⟩
    · rcases NodeStore.node_of_append hn with hn | ⟨rfl, rfl⟩
      · exact hs i n hn
      · exact ⟨hp, hk⟩
    · rw [NodeStore.count_append]
      exact Nat.le_succ _
    · rw [NodeStore.count_append]
      exact Nat.lt_succ_self _

end

namespace Compilation

variable {Fit : String → CallOptions → Prop} {c : Context}

/-- Lowers the next array of a call. -/
def lowerNext (c : Context) (fuel : Nat) (acc : NodeStore × List Nat) (e : Expr) :
    Except Failure (NodeStore × List Nat) := do
  let (s, id) ← lower c fuel e acc.1
  .ok (s, acc.2 ++ [id])

theorem lower_call {fuel : Nat} {s : NodeStore} (name : String) (args : List Expr) (kwargs : List (String × Expr)) :
    lower c (fuel + 1) (.call name args kwargs) s = (do
      let call ← c.functions.bind name args kwargs
      let (s, parents) ← call.arrays.foldlM (lowerNext c fuel) (s, [])
      .ok (s.add (.call name call.options) parents)) := by
  rw [lower]
  rfl

/-- What an expression that could be lowered is lowered to. -/
inductive LowersTo (c : Context) (fuel : Nat) (s : NodeStore) : Expr → NodeStore × Nat → Prop where
  | number {x : Double} : LowersTo c fuel s (.number x) (s.add (.literal x) [])
  | input {name : String} {m : InputMetadata} : resolve c.source c.definitions name = .ok (.input m) →
      LowersTo c fuel s (.operand name) (s.add (.operand name) [])
  | definition {name d : String} {e : Expr} {r : NodeStore × Nat} :
      resolve c.source c.definitions name = .ok (.definition d) → c.parsed.get? d = some e →
      lower c fuel e s = .ok r → LowersTo c fuel s (.operand name) r
  | call {name : String} {args : List Expr} {kwargs : List (String × Expr)} {call : BoundCall} {t : NodeStore}
      {parents : List Nat} : c.functions.bind name args kwargs = .ok call →
      call.arrays.foldlM (lowerNext c fuel) (s, []) = .ok (t, parents) →
      LowersTo c fuel s (.call name args kwargs) (t.add (.call name call.options) parents)

theorem lower_cases {e : Expr} {s : NodeStore} {r : NodeStore × Nat} :
    ∀ {fuel : Nat}, lower c fuel e s = .ok r → ∃ below, fuel = below + 1 ∧ LowersTo c below s e r
  | 0, h => by
    rw [lower] at h
    cases h
  | fuel + 1, h => by
    refine ⟨fuel, rfl, ?_⟩
    cases e with
    | number x =>
      rw [lower] at h
      · cases h
        exact .number
      · exact Nat.succ_ne_zero _
    | text t =>
      rw [lower] at h
      · cases h
      · exact Nat.succ_ne_zero _
    | operand name =>
      rw [lower] at h
      obtain ⟨ref, href, h⟩ := bind_eq_ok.mp h
      cases ref with
      | input m =>
        cases h
        exact .input href
      | definition d =>
        dsimp only at h
        split at h
        · cases h
        · rename_i e he
          exact .definition href he h
    | call name args kwargs =>
      rw [lower_call] at h
      obtain ⟨call, hcall, h⟩ := bind_eq_ok.mp h
      obtain ⟨⟨t, parents⟩, ht, h⟩ := bind_eq_ok.mp h
      cases h
      exact .call hcall ht

theorem lowerNext_eq_ok {fuel : Nat} {e : Expr} {acc r : NodeStore × List Nat} :
    lowerNext c fuel acc e = .ok r ↔ ∃ r', lower c fuel e acc.1 = .ok r' ∧ r = (r'.1, acc.2 ++ [r'.2]) := by
  unfold lowerNext
  rw [bind_eq_ok]
  exact exists_congr fun _ => and_congr_right fun _ => ⟨fun h => (Except.ok.inj h).symm, fun h => h ▸ rfl⟩

theorem foldlM_lowerNext_cons {fuel : Nat} {e : Expr} {l : List Expr} {acc r : NodeStore × List Nat}
    (h : (e :: l).foldlM (lowerNext c fuel) acc = .ok r) :
    ∃ r', lower c fuel e acc.1 = .ok r' ∧ l.foldlM (lowerNext c fuel) (r'.1, acc.2 ++ [r'.2]) = .ok r := by
  obtain ⟨mid, hmid, h⟩ := foldlM_cons_eq_ok.mp h
  obtain ⟨r', hr', rfl⟩ := lowerNext_eq_ok.mp hmid
  exact ⟨r', hr', h⟩

/-- Steps that do the same unless they fail for `x` do so one after the other. -/
theorem foldlM_congr_unless {α β ε : Type} {step step' : β → α → Except ε β} {x : ε} :
    ∀ {l : List α} {acc : β}, (∀ a ∈ l, ∀ acc, step acc a ≠ .error x → step' acc a = step acc a) →
      l.foldlM step acc ≠ .error x → l.foldlM step' acc = l.foldlM step acc
  | [], _, _, _ => rfl
  | a :: l, acc, hstep, h => by
    rw [List.foldlM_cons] at h
    rw [List.foldlM_cons, List.foldlM_cons]
    have hfirst : step acc a ≠ .error x := fun hx => h (by rw [hx]; rfl)
    rw [hstep a List.mem_cons_self acc hfirst]
    cases ha : step acc a with
    | error y => rfl
    | ok acc' =>
      rw [ha] at h
      exact foldlM_congr_unless (fun b hb => hstep b (List.mem_cons_of_mem _ hb)) h

/-- With enough room for the nesting, more makes no difference. -/
theorem lower_more : ∀ (fuel more : Nat) (e : Expr) (s : NodeStore), lower c fuel e s ≠ .error (.cycle []) →
    lower c (fuel + more) e s = lower c fuel e s
  | 0, _, e, s, h => by
    rw [lower] at h
    exact absurd rfl h
  | fuel + 1, more, .number x, s, _ => by
    rw [Nat.succ_add, lower, lower] <;> exact Nat.succ_ne_zero _
  | fuel + 1, more, .text t, s, _ => by
    rw [Nat.succ_add, lower, lower] <;> exact Nat.succ_ne_zero _
  | fuel + 1, more, .operand name, s, h => by
    rw [lower] at h
    rw [Nat.succ_add, lower, lower]
    cases hres : resolve c.source c.definitions name with
    | error f => rfl
    | ok ref =>
      cases ref with
      | input m => rfl
      | definition d =>
        rw [hres] at h
        dsimp only [Bind.bind, Except.bind] at h ⊢
        cases hd : c.parsed.get? d with
        | none => rfl
        | some e =>
          rw [hd] at h
          exact lower_more fuel more e s h
  | fuel + 1, more, .call name args kwargs, s, h => by
    rw [lower_call] at h
    rw [Nat.succ_add, lower_call, lower_call]
    cases hcall : c.functions.bind name args kwargs with
    | error f => rfl
    | ok call =>
      rw [hcall] at h
      dsimp only [Bind.bind, Except.bind] at h ⊢
      have hnext : ∀ a ∈ call.arrays, ∀ acc, lowerNext c fuel acc a ≠ .error (.cycle []) →
          lowerNext c (fuel + more) acc a = lowerNext c fuel acc a := by
        intro a _ acc ha
        unfold lowerNext at ha ⊢
        rw [lower_more fuel more a acc.1 fun hx => ha (by rw [hx]; rfl)]
      rw [foldlM_congr_unless hnext fun hx => h (by rw [hx])]

/-- The arrays of a call are all lowered into the graph. -/
theorem foldlM_lowerNext {fuel : Nat}
    (hlower : ∀ (e : Expr) {s : NodeStore} {r : NodeStore × Nat}, Resolution.Lowered Fit s → lower c fuel e s = .ok r →
      Lowers Fit s r) :
    ∀ (l : List Expr) {acc acc' : NodeStore × List Nat}, Resolution.Lowered Fit acc.1 →
      (∀ p ∈ acc.2, p < acc.1.count) → l.foldlM (lowerNext c fuel) acc = .ok acc' →
      Resolution.Lowered Fit acc'.1 ∧ acc.1.count ≤ acc'.1.count ∧ ∀ p ∈ acc'.2, p < acc'.1.count
  | [], acc, acc', hl, hp, h => by
    cases h
    exact ⟨hl, Nat.le_refl _, hp⟩
  | e :: l, acc, acc', hl, hp, h => by
    obtain ⟨⟨u, id⟩, hu, h⟩ := foldlM_lowerNext_cons h
    have hlow := hlower e hl hu
    have hp' : ∀ p ∈ acc.2 ++ [id], p < u.count := by
      intro p hp'
      rcases List.mem_append.mp hp' with hp' | hp'
      · exact Nat.lt_of_lt_of_le (hp p hp') hlow.count
      · exact List.mem_singleton.mp hp' ▸ hlow.lt
    obtain ⟨hl', hcount, hp''⟩ := foldlM_lowerNext hlower l hlow.lowered hp' h
    exact ⟨hl', Nat.le_trans hlow.count hcount, hp''⟩

/-- Lowering keeps a graph as it is before resolution. -/
theorem lower_lowers (hbind : ∀ name args kwargs call, c.functions.bind name args kwargs = .ok call →
      Fit name call.options) :
    ∀ (fuel : Nat) (e : Expr) {s : NodeStore} {r : NodeStore × Nat}, Resolution.Lowered Fit s →
      lower c fuel e s = .ok r → Lowers Fit s r
  | 0, _, _, _, _, h => by
    obtain ⟨_, hfuel, -⟩ := lower_cases h
    cases hfuel
  | fuel + 1, e, s, r, hs, h => by
    obtain ⟨_, ⟨⟩, hr⟩ := lower_cases h
    cases hr with
    | number => exact add_lowers hs (fun _ hp => absurd hp List.not_mem_nil) rfl
    | input => exact add_lowers hs (fun _ hp => absurd hp List.not_mem_nil) rfl
    | definition _ _ h => exact lower_lowers hbind fuel _ hs h
    | @call _ _ _ call t parents hcall ht =>
      obtain ⟨ht, hcount, hp⟩ := foldlM_lowerNext (fun e => lower_lowers hbind fuel e) call.arrays hs
        (fun _ hp => absurd hp List.not_mem_nil) ht
      have hadd := add_lowers ht hp (k := .call _ call.options) (hbind _ _ _ _ hcall)
      exact ⟨hadd.lowered, Nat.le_trans hcount hadd.count, hadd.lt⟩

/-! ### Compiled graphs -/

variable {functions : Functions} {source : Source} {definitions : Definitions} {name : String} {v : CompiledVariable}

/-- A graph is what the parsed definition of a name is lowered to. -/
structure GraphOf (functions : Functions) (source : Source) (definitions : Definitions) (name : String)
    (v : CompiledVariable) : Prop where
  named : v.name = name
  parsed : (parseAll definitions).1.get? name = some v.expression
  lowered : lower ⟨functions, source, definitions, (parseAll definitions).1⟩
    (nesting (parseAll definitions).1 + v.expression.height) v.expression .empty = .ok (v.store, v.root)

theorem compileOne_graphOf {names : List String} {g : Digraph} {p : Progress} {w : String}
    (hp : ∀ key v, p.compiled.get? key = some v → GraphOf functions source definitions key v) :
    ∀ key v, (compileOne ⟨functions, source, definitions, (parseAll definitions).1⟩ names g p w).compiled.get? key =
      some v → GraphOf functions source definitions key v := by
  intro key v h
  unfold compileOne at h
  split at h
  · exact hp key v h
  · split at h
    · exact hp key v h
    · split at h
      · exact hp key v h
      · rename_i e he
        split at h
        · rename_i hlower
          rw [NameMap.get?_insert] at h
          split at h
          · rename_i heq
            cases h
            exact ⟨heq.symm, heq ▸ he, hlower⟩
          · exact hp key v h
        · exact hp key v h

theorem compile_graphOf (h : (compile functions source definitions).compiled.get? name = some v) :
    GraphOf functions source definitions name v := by
  have hfold : ∀ (l : List String) {names : List String} {g : Digraph} {p : Progress},
      (∀ key v, p.compiled.get? key = some v → GraphOf functions source definitions key v) →
      ∀ key v, (l.foldl (compileOne ⟨functions, source, definitions, (parseAll definitions).1⟩ names g) p).compiled.get?
        key = some v → GraphOf functions source definitions key v := by
    intro l
    induction l with
    | nil => exact fun hp => hp
    | cons w l ih => exact fun hp => ih (compileOne_graphOf hp)
  exact hfold _ (fun _ _ h => by cases h) name v h

/-- The graph of a variable is as lowering makes them. -/
theorem compile_lowered (hbind : ∀ name args kwargs call, functions.bind name args kwargs = .ok call →
      Fit name call.options) (h : (compile functions source definitions).compiled.get? name = some v) :
    Resolution.Lowered Fit v.store :=
  (lower_lowers hbind _ _ (fun _ _ hn => by cases hn) (compile_graphOf h).lowered).lowered

end Compilation
end Concord
