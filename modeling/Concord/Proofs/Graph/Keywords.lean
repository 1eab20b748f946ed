import Concord.Proofs.Graph.Lowering
import Mathlib.Data.List.Nodup

/-! Ways to write a call. Keyword arguments may stand in any order, and where a name has one function, the last of the
    arguments in place may be given by keyword instead. Written in another way a call is bound, or refused, as before,
    and it becomes the same node. -/

namespace Concord
namespace Functions

/-- The same call written in another way. -/
inductive Rewritten (fs : Functions) (name : String) :
    List Expr → List (String × Expr) → List Expr → List (String × Expr) → Prop
  | reordered {args : List Expr} {kwargs kwargs' : List (String × Expr)} (h : kwargs.Perm kwargs') :
      Rewritten fs name args kwargs args kwargs'
  /-- The last argument in place is given by keyword. -/
  | keyword {f : FunctionSpec} {p : Param} {args : List Expr} {arg : Expr} {kwargs : List (String × Expr)}
      (hone : fs.overloads name = [f]) (hnames : (f.params.map (·.name)).Nodup)
      (hparam : f.params[args.length]? = some p) :
      Rewritten fs name (args ++ [arg]) kwargs args ((p.name, arg) :: kwargs)
  | symm {args args' : List Expr} {kwargs kwargs' : List (String × Expr)}
      (h : Rewritten fs name args kwargs args' kwargs') : Rewritten fs name args' kwargs' args kwargs
  | trans {args args' args'' : List Expr} {kwargs kwargs' kwargs'' : List (String × Expr)}
      (h : Rewritten fs name args kwargs args' kwargs') (h' : Rewritten fs name args' kwargs' args'' kwargs'') :
      Rewritten fs name args kwargs args'' kwargs''

variable {fs : Functions} {p : Param} {name : String} {params : List Param} {args args' : List Expr}
  {kwargs kwargs' : List (String × Expr)} {sl sl' : List (Option Expr)} {i : Nat}

/-! ### Keyword arguments in any order -/

theorem place_eq_some {a : String × Expr} : place params sl a = some sl' ↔
    ∃ i, params.findIdx? (·.name == a.1) = some i ∧ sl[i]? = some none ∧ sl.set i (some a.2) = sl' := by
  unfold place
  rw [Option.bind_eq_bind, Option.bind_eq_some_iff]
  refine exists_congr fun i => and_congr_right fun _ => ?_
  cases sl[i]? with
  | none => simp
  | some slot => cases slot <;> simp

/-- Of two keyword arguments either may take its place first. If both have the same place, the second is refused. -/
theorem place_comm (a b : String × Expr) (sl : List (Option Expr)) :
    ((place params sl a).bind fun t => place params t b) = (place params sl b).bind fun t => place params t a := by
  have hswap : ∀ {a b : String × Expr} {t : List (Option Expr)},
      ((place params sl a).bind fun t => place params t b) = some t →
        ((place params sl b).bind fun t => place params t a) = some t := by
    intro a b t h
    obtain ⟨u, hu, ht⟩ := Option.bind_eq_some_iff.mp h
    obtain ⟨i, hi, hfree, rfl⟩ := place_eq_some.mp hu
    obtain ⟨j, hj, hfree', rfl⟩ := place_eq_some.mp ht
    have hne : i ≠ j := by
      rintro rfl
      have hlt := (List.getElem?_eq_some_iff.mp hfree).1
      rw [List.getElem?_set_self hlt] at hfree'
      cases hfree'
    rw [List.getElem?_set_ne hne] at hfree'
    refine Option.bind_eq_some_iff.mpr ⟨_, place_eq_some.mpr ⟨j, hj, hfree', rfl⟩, place_eq_some.mpr ⟨i, hi, ?_, ?_⟩⟩
    · rw [List.getElem?_set_ne hne.symm, hfree]
    · exact List.set_comm _ _ hne.symm
  exact Option.ext fun t => ⟨hswap, hswap⟩

theorem foldlM_place_perm (h : kwargs.Perm kwargs') (sl : List (Option Expr)) :
    kwargs.foldlM (place params) sl = kwargs'.foldlM (place params) sl := by
  induction h generalizing sl with
  | nil => rfl
  | cons a _ ih =>
    rw [List.foldlM_cons, List.foldlM_cons]
    exact congrArg _ (funext ih)
  | swap a b l =>
    simp only [List.foldlM_cons, ← bind_assoc]
    exact congrArg (· >>= _) (place_comm b a sl)
  | trans _ _ ih ih' => exact (ih sl).trans (ih' sl)

theorem slots_perm (h : kwargs.Perm kwargs') (args : List Expr) :
    slots params args kwargs = slots params args kwargs' := by
  unfold slots
  rw [foldlM_place_perm h]

/-! ### Arguments by keyword -/

theorem findIdx?_name (hnames : (params.map (·.name)).Nodup) (hp : params[i]? = some p) :
    params.findIdx? (·.name == p.name) = some i := by
  obtain ⟨hi, rfl⟩ := List.getElem?_eq_some_iff.mp hp
  refine List.findIdx?_eq_some_iff_getElem.mpr ⟨hi, beq_self_eq_true _, fun j hj heq => ?_⟩
  have hi' : i < (params.map (·.name)).length := by rwa [List.length_map]
  have hj' : j < (params.map (·.name)).length := Nat.lt_trans hj hi'
  have hname : (params.map (·.name))[j] = (params.map (·.name))[i] := by simpa using heq
  exact Nat.ne_of_lt hj (hnames.getElem_inj_iff.mp hname)

/-- By keyword the last argument in place takes the same place. -/
theorem slots_keyword (hnames : (params.map (·.name)).Nodup) (hp : params[args.length]? = some p)
    (kwargs : List (String × Expr)) (arg : Expr) :
    slots params (args ++ [arg]) kwargs = slots params args ((p.name, arg) :: kwargs) := by
  have hlt : args.length < params.length := (List.getElem?_eq_some_iff.mp hp).1
  have hlen : (args ++ [arg]).length = args.length + 1 := List.length_append
  obtain ⟨free, hfree⟩ : ∃ free, params.length - args.length = free + 1 := ⟨params.length - args.length - 1, by omega⟩
  have hrest : params.length - (args ++ [arg]).length = free := by omega
  have hplace : place params (args.map some ++ List.replicate (free + 1) none) (p.name, arg) =
      some ((args ++ [arg]).map some ++ List.replicate free none) := by
    refine place_eq_some.mpr ⟨args.length, findIdx?_name hnames hp, ?_, ?_⟩
    · simp [List.replicate_succ]
    · simp [List.replicate_succ]
  unfold slots
  rw [if_neg (by omega), if_neg (by omega), List.foldlM_cons, hfree, hrest, hplace]
  rfl

/-! ### Calls -/

theorem bindOne_congr {f : FunctionSpec} (h : slots f.params args kwargs = slots f.params args' kwargs') :
    bindOne f args kwargs = bindOne f args' kwargs' := by
  unfold bindOne
  rw [h]

/-- Calls that fit each function alike, and have as many arguments, are bound alike. -/
theorem bindFirst_congr (hcount : args.length + kwargs.length = args'.length + kwargs'.length) :
    ∀ {l : List FunctionSpec} {demand : Option Param}, (∀ f ∈ l, bindOne f args kwargs = bindOne f args' kwargs') →
      bindFirst name args kwargs demand l = bindFirst name args' kwargs' demand l
  | [], none, _ => by
    rw [bindFirst, bindFirst, hcount]
  | [], some _, _ => rfl
  | f :: l, demand, h => by
    have ih : ∀ demand, bindFirst name args kwargs demand l = bindFirst name args' kwargs' demand l := fun _ =>
      bindFirst_congr hcount fun g hg => h g (List.mem_cons_of_mem f hg)
    rw [bindFirst, bindFirst, h f List.mem_cons_self]
    cases bindOne f args' kwargs' with
    | ok call => rfl
    | error e => cases e <;> exact ih _

theorem Rewritten.bind_eq (h : fs.Rewritten name args kwargs args' kwargs') :
    fs.bind name args kwargs = fs.bind name args' kwargs' := by
  induction h with
  | reordered h => exact bindFirst_congr (by rw [h.length_eq]) fun f _ => bindOne_congr (slots_perm h _)
  | keyword hone hnames hparam =>
    refine bindFirst_congr (by simp only [List.length_append, List.length_cons, List.length_nil]; omega) fun f hf => ?_
    rw [hone, List.mem_singleton] at hf
    subst hf
    exact bindOne_congr (slots_keyword hnames hparam _ _)
  | symm _ ih => exact ih.symm
  | trans _ _ ih ih' => exact ih.trans ih'

/-- A call that is written in another way has the same function, arrays and options, or is refused for the same
    reason, and it adds the same nodes to a graph. -/
theorem bind_rewritten (h : fs.Rewritten name args kwargs args' kwargs') :
    fs.bind name args kwargs = fs.bind name args' kwargs' ∧
      ∀ (c : Compilation.Context) (fuel : Nat) (s : NodeStore), c.functions = fs →
        Compilation.lower c fuel (.call name args kwargs) s =
          Compilation.lower c fuel (.call name args' kwargs') s := by
  refine ⟨h.bind_eq, fun c fuel s hc => ?_⟩
  cases fuel with
  | zero => rfl
  | succ fuel => rw [Compilation.lower_call, Compilation.lower_call, hc, h.bind_eq]

/-- A mean with its axis in place is that with all arguments by keyword, in another order; and two calls are refused
    both ways, for an axis that is given twice and for one that is no text. -/
theorem bind_rewritten_mean :
    builtins.bind "mean" [.operand "tas", .text "time"] [] =
        .ok ⟨reduction "mean" .mean true, [.operand "tas"], [("dim", .text "time")]⟩ ∧
      builtins.bind "mean" [] [("dim", .text "time"), ("x", .operand "tas")] =
        .ok ⟨reduction "mean" .mean true, [.operand "tas"], [("dim", .text "time")]⟩ ∧
      builtins.bind "mean" [.operand "tas", .text "time"] [("dim", .text "lat")] = .error (.unknownFunction "mean" 3) ∧
      builtins.bind "mean" [.operand "tas"] [("dim", .text "time"), ("dim", .text "lat")] =
        .error (.unknownFunction "mean" 3) ∧
      builtins.bind "mean" [.operand "tas", .operand "x"] [] =
        .error (.incompatibleOperands "mean" "argument 'dim' must be a string literal") ∧
      builtins.bind "mean" [.operand "tas"] [("dim", .operand "x")] =
        .error (.incompatibleOperands "mean" "argument 'dim' must be a string literal") := by
  have hone : builtins.overloads "mean" = [reduction "mean" .mean true] := by decide
  have hdim : ∀ e kwargs,
      builtins.Rewritten "mean" ([.operand "tas"] ++ [e]) kwargs [.operand "tas"] (("dim", e) :: kwargs) :=
    fun e kwargs => .keyword (p := textParam "dim") hone (by decide) rfl
  have hx : ∀ kwargs, builtins.Rewritten "mean" ([] ++ [.operand "tas"]) kwargs [] (("x", .operand "tas") :: kwargs) :=
    fun kwargs => .keyword (p := arrayParam "x") hone (by decide) rfl
  have hall : builtins.Rewritten "mean" [.operand "tas", .text "time"] [] []
      [("dim", .text "time"), ("x", .operand "tas")] := ((hdim _ _).trans (hx _)).trans (.reordered (.swap _ _ _))
  exact ⟨rfl, (bind_rewritten hall).1.symm.trans rfl, rfl, (bind_rewritten (hdim _ _)).1.symm.trans rfl, rfl,
    (bind_rewritten (hdim _ _)).1.symm.trans rfl⟩

end Functions
end Concord
