import Concord.Proofs.Resolve.Shapes
import Mathlib.Data.List.TakeWhile

/-! Functions of one name. A call is bound to the first one that its arguments fit, but its node is looked up
    by the number of its arrays alone. This finds the function that the call was bound to if and only if no
    array of it was left out and none of those tried before takes as many arrays. -/

namespace Concord
namespace Functions

variable {fs : Functions} {f : FunctionSpec} {name : String} {args : List Expr} {kwargs : List (String × Expr)}
  {call : BoundCall}

/-! ### How many arrays a call has -/

/-- The arrays of a call are the arguments given for array parameters. -/
theorem length_collect : ∀ {given : List (Param × Option Expr)} {c : List Expr × CallOptions}, collect given = .ok c →
    c.1.length = given.countP fun g => g.1.kind = .array ∧ g.2.isSome
  | [], c, h => by
    cases h
    rfl
  | (p, none) :: given, c, h => by
    unfold collect at h
    split at h
    · cases h
    · rw [length_collect h]
      simp
  | (p, some e) :: given, c, h => by
    unfold collect at h
    split at h
    · cases h
    · rename_i hp _
      obtain ⟨c', hc, rfl⟩ := map_eq_ok.mp h
      simp [hp, length_collect hc]
    · rename_i hp
      obtain ⟨c', hc, rfl⟩ := map_eq_ok.mp h
      simp [hp, length_collect hc]
    · rename_i hp
      obtain ⟨c', hc, rfl⟩ := map_eq_ok.mp h
      simp [hp, length_collect hc]
    · cases h

/-- No parameter that is required is left out. -/
theorem collect_required : ∀ {given : List (Param × Option Expr)} {c : List Expr × CallOptions},
    collect given = .ok c → ∀ g ∈ given, g.1.required = true → g.2.isSome = true
  | [], _, _, _, hg => absurd hg List.not_mem_nil
  | (p, none) :: given, c, h, g, hg => by
    unfold collect at h
    split at h
    · cases h
    · rename_i hoptional
      intro hrequired
      rcases List.mem_cons.mp hg with rfl | hg
      · exact absurd hrequired hoptional
      · exact collect_required h g hg hrequired
  | (p, some e) :: given, c, h, g, hg => by
    have hrest : ∃ c', collect given = .ok c' := by
      unfold collect at h
      split at h
      · cases h
      · exact (map_eq_ok.mp h).imp fun _ => And.left
      · exact (map_eq_ok.mp h).imp fun _ => And.left
      · exact (map_eq_ok.mp h).imp fun _ => And.left
      · cases h
    obtain ⟨c', hc⟩ := hrest
    intro hrequired
    rcases List.mem_cons.mp hg with rfl | hg
    · rfl
    · exact collect_required hc g hg hrequired

theorem arity_eq_countP {sl : List (Option Expr)} (h : sl.length = f.params.length) :
    f.arity = (f.params.zip sl).countP fun g => g.1.kind = .array := by
  calc f.arity = f.params.countP (·.kind = .array) := List.countP_eq_length_filter.symm
    _ = ((f.params.zip sl).map Prod.fst).countP (·.kind = .array) := by rw [List.map_fst_zip (Nat.le_of_eq h.symm)]
    _ = (f.params.zip sl).countP fun g => g.1.kind = .array := List.countP_map

/-- A call has as many arrays as its function takes if the function demands them all. -/
theorem bindOne_arity (h : bindOne f args kwargs = .ok call)
    (hrequired : ∀ p ∈ f.params, p.kind = .array → p.required = true) : call.arrays.length = f.arity := by
  obtain ⟨sl, hlen, hc⟩ := bindOne_eq_ok h
  rw [length_collect hc, arity_eq_countP hlen]
  refine List.countP_congr fun g hg => ?_
  have hgiven : g.1.kind = .array → g.2.isSome = true := fun hkind =>
    collect_required hc g hg (hrequired g.1 (List.of_mem_zip hg).1 hkind)
  simpa using hgiven

/-! ### The function that is found -/

theorem bindOne_spec (h : bindOne f args kwargs = .ok call) : call.spec = f := by
  unfold bindOne at h
  split at h
  · cases h
  · obtain ⟨c, -, rfl⟩ := map_eq_ok.mp h
    rfl

/-- The functions of a name that a call is tried with in vain. -/
def passedOver (fs : Functions) (name : String) (args : List Expr) (kwargs : List (String × Expr)) :
    List FunctionSpec :=
  (fs.overloads name).takeWhile fun f => !(bindOne f args kwargs).isOk

theorem bindOne_of_mem_passedOver (h : f ∈ fs.passedOver name args kwargs) : bindOne f args kwargs ≠ .ok call := by
  intro hok
  have hfails := List.mem_takeWhile_imp h
  rw [hok] at hfails
  cases hfails

theorem bindFirst_takeWhile : ∀ {l : List FunctionSpec} {demand : Option Param},
    bindFirst name args kwargs demand l = .ok call →
      bindOne call.spec args kwargs = .ok call ∧
        ∃ behind, l = l.takeWhile (fun f => !(bindOne f args kwargs).isOk) ++ call.spec :: behind
  | [], none, h => by cases h
  | [], some _, h => by cases h
  | f :: l, demand, h => by
    cases hf : bindOne f args kwargs with
    | ok c =>
      simp only [bindFirst, hf] at h
      cases h
      rw [bindOne_spec hf]
      exact ⟨hf, l, by rw [List.takeWhile_cons_of_neg (by rw [hf]; exact Bool.false_ne_true), List.nil_append]⟩
    | error e =>
      have hrest : ∃ demand', bindFirst name args kwargs demand' l = .ok call := by
        cases e <;> simp only [bindFirst, hf] at h <;> exact ⟨_, h⟩
      obtain ⟨demand', hrest⟩ := hrest
      obtain ⟨hok, behind, hl⟩ := bindFirst_takeWhile hrest
      refine ⟨hok, behind, ?_⟩
      rw [List.takeWhile_cons_of_pos (by rw [hf]; rfl), List.cons_append, ← hl]

/-- A call is bound to the function that stands behind those passed over. -/
theorem bind_eq_passedOver (h : fs.bind name args kwargs = .ok call) :
    bindOne call.spec args kwargs = .ok call ∧
      ∃ behind, fs.overloads name = fs.passedOver name args kwargs ++ call.spec :: behind :=
  bindFirst_takeWhile h

/-- A function is found by the number of its arrays if none of those passed over takes as many. -/
theorem get?_of_passedOver (h : fs.bind name args kwargs = .ok call) (harity : call.arrays.length = call.spec.arity)
    (hpassed : ∀ f ∈ fs.passedOver name args kwargs, f.arity ≠ call.arrays.length) :
    fs.get? name call.arrays.length = some call.spec := by
  obtain ⟨-, behind, hsplit⟩ := bind_eq_passedOver h
  have hnone : (fs.passedOver name args kwargs).find? (·.arity = call.arrays.length) = none :=
    List.find?_eq_none.mpr fun f hf hd => hpassed f hf (of_decide_eq_true hd)
  rw [get?, hsplit, List.find?_append, hnone, Option.none_or]
  exact List.find?_cons_of_pos (decide_eq_true harity.symm)

/-- The number of arrays of a call finds the function that it is bound to if and only if the call has all arrays
    of that function and no function passed over takes as many. -/
theorem found_iff (h : fs.bind name args kwargs = .ok call) :
    fs.get? name call.arrays.length = some call.spec ↔
      call.arrays.length = call.spec.arity ∧
        ∀ f ∈ fs.passedOver name args kwargs, f.arity ≠ call.arrays.length := by
  refine ⟨fun hfound => ⟨(get?_eq_some hfound).2.2.symm, fun f hf harity => ?_⟩,
    fun ⟨harity, hpassed⟩ => get?_of_passedOver h harity hpassed⟩
  -- The first of those passed over would be found, but the call does not fit it.
  obtain ⟨hok, behind, hsplit⟩ := bind_eq_passedOver h
  have hsome : ((fs.passedOver name args kwargs).find? (·.arity = call.arrays.length)).isSome = true :=
    List.find?_isSome.mpr ⟨f, hf, decide_eq_true harity⟩
  obtain ⟨g, hg⟩ := Option.isSome_iff_exists.mp hsome
  rw [get?, hsplit, List.find?_append, hg, Option.some_or] at hfound
  cases hfound
  exact bindOne_of_mem_passedOver (List.mem_of_find?_eq_some hg) hok

/-- A function that changes the sign, and one of the same name that sums up along an axis. -/
def overlapping : Functions :=
  ⟨[⟨"f", [arrayParam "x"], .passThrough, .preserve, .map .negate, true⟩,
    ⟨"f", [arrayParam "x", textParam "dim"], .scan, .preserve, .scan .cumulativeSum, true⟩]⟩

/-- A function that takes one array or two. -/
def optional : Functions :=
  ⟨[⟨"f", [arrayParam "x", ⟨"y", .array, false⟩], .passThrough, .preserve, .map .negate, true⟩]⟩

/-- A call that names an axis is bound to the second function of its name, and the first one is found; a call
    that leaves an array out is bound, and nothing is found. -/
theorem found_iff_fails :
    (∃ call, overlapping.bind "f" [.operand "a"] [("dim", .text "time")] = .ok call ∧ call.spec.shape = .scan ∧
      (overlapping.get? "f" call.arrays.length).map (·.shape) = some .passThrough ∧
      ¬overlapping.get? "f" call.arrays.length = some call.spec) ∧
    ∃ call, optional.bind "f" [.operand "a"] [] = .ok call ∧
      optional.get? "f" call.arrays.length = none ∧ ¬optional.get? "f" call.arrays.length = some call.spec := by
  have hoverlapping : overlapping.bind "f" [.operand "a"] [("dim", .text "time")] = .ok
      ⟨overlapping.specs[1], [.operand "a"], [("dim", .text "time")]⟩ := rfl
  have hoptional : optional.bind "f" [.operand "a"] [] = .ok ⟨optional.specs[0], [.operand "a"], []⟩ := rfl
  refine ⟨⟨_, hoverlapping, rfl, by decide, fun hfound => ?_⟩, ⟨_, hoptional, by decide, fun hfound => ?_⟩⟩
  · exact ((found_iff hoverlapping).mp hfound).2 overlapping.specs[0] List.mem_cons_self rfl
  · exact absurd ((found_iff hoptional).mp hfound).1 (by decide)

/-! ### Functions told apart -/

/-- Functions that demand all their arrays and, where they share a name, take different numbers of them. -/
structure Unambiguous (fs : Functions) : Prop where
  required : ∀ f ∈ fs.specs, ∀ p ∈ f.params, p.kind = .array → p.required = true
  distinct : fs.specs.Pairwise fun f g => f.name = g.name → f.arity ≠ g.arity

/-- Then every call finds the function that it is bound to. -/
theorem Unambiguous.found (hu : fs.Unambiguous) (h : fs.bind name args kwargs = .ok call) :
    fs.get? name call.arrays.length = some call.spec := by
  obtain ⟨hok, behind, hsplit⟩ := bind_eq_passedOver h
  have hmem : ∀ f ∈ fs.passedOver name args kwargs ++ call.spec :: behind, f ∈ fs.specs ∧ f.name = name := by
    intro f hf
    rw [← hsplit] at hf
    exact (List.mem_filter.mp hf).imp_right eq_of_beq
  have hspec := hmem call.spec (List.mem_append_right _ List.mem_cons_self)
  have harity : call.arrays.length = call.spec.arity := bindOne_arity hok (hu.required _ hspec.1)
  refine get?_of_passedOver h harity fun f hf => ?_
  have hpairwise := hu.distinct.sublist (List.filter_sublist (p := (·.name == name)))
  rw [show fs.specs.filter (·.name == name) = _ from hsplit, List.pairwise_append] at hpairwise
  have hname := (hmem f (List.mem_append_left _ hf)).2
  rw [harity]
  exact hpairwise.2.2 f hf call.spec List.mem_cons_self (hname.trans hspec.2.symm)

/-- Functions stay so when one is added that demands all its arrays, unless its name has one that takes as many. -/
theorem Unambiguous.register (hu : fs.Unambiguous) (hrequired : ∀ p ∈ f.params, p.kind = .array → p.required = true)
    (hnew : ∀ g ∈ fs.specs, g.name = f.name → g.arity ≠ f.arity) : (fs.register f).Unambiguous where
  required g hg := by
    rcases List.mem_append.mp hg with hg | hg
    · exact hu.required g hg
    · exact List.mem_singleton.mp hg ▸ hrequired
  distinct := List.pairwise_append.mpr ⟨hu.distinct, List.pairwise_singleton _ _, fun g hg f' hf' =>
    List.mem_singleton.mp hf' ▸ hnew g hg⟩

theorem builtins_unambiguous : builtins.Unambiguous where
  required := by decide
  distinct := by decide

end Functions

/-! ### Nodes of calls -/

theorem NodeStore.node_add {s : NodeStore} (kind : NodeKind) (parents : List Nat) :
    ∃ n, (s.add kind parents).1.node? (s.add kind parents).2 = some n ∧ n.kind = kind ∧ n.parents = parents := by
  unfold NodeStore.add
  cases hl : s.lookup kind parents with
  | some id => exact NodeStore.lookup_some hl
  | none => exact ⟨_, NodeStore.node_append_self, rfl, rfl⟩

namespace Compilation

variable {c : Context} {fuel : Nat}

/-- Every array of a call becomes a parent. -/
theorem length_foldlM_lowerNext : ∀ {l : List Expr} {acc r : NodeStore × List Nat},
    l.foldlM (lowerNext c fuel) acc = .ok r → r.2.length = acc.2.length + l.length
  | [], _, _, h => by
    cases h
    rfl
  | e :: l, acc, r, h => by
    obtain ⟨_, -, h⟩ := foldlM_lowerNext_cons h
    rw [length_foldlM_lowerNext h, List.length_append, List.length_cons, List.length_cons, List.length_nil]
    omega

/-- The node of a call has the name of the function that it is bound to, and its arrays as parents. -/
theorem lower_call_node {s : NodeStore} {r : NodeStore × Nat} {name : String} {args : List Expr}
    {kwargs : List (String × Expr)} (h : lower c (fuel + 1) (.call name args kwargs) s = .ok r) :
    ∃ call n, c.functions.bind name args kwargs = .ok call ∧ r.1.node? r.2 = some n ∧
      n.kind = .call name call.options ∧ n.parents.length = call.arrays.length := by
  obtain ⟨_, ⟨⟩, hr⟩ := lower_cases h
  cases hr with | @call _ _ _ call t parents hcall ht => ?_
  obtain ⟨n, hn, hkind, hparents⟩ := NodeStore.node_add (s := t) (.call name call.options) parents
  refine ⟨call, n, hcall, hn, hkind, ?_⟩
  rw [hparents, length_foldlM_lowerNext ht, List.length_nil, Nat.zero_add]

/-- So a node is evaluated by the function that its call was bound to, if the functions are told apart. -/
theorem lower_call_found {s : NodeStore} {r : NodeStore × Nat} {name : String} {args : List Expr}
    {kwargs : List (String × Expr)} (hu : c.functions.Unambiguous)
    (h : lower c (fuel + 1) (.call name args kwargs) s = .ok r) :
    ∃ call n, c.functions.bind name args kwargs = .ok call ∧ r.1.node? r.2 = some n ∧
      n.kind = .call name call.options ∧ c.functions.get? name n.parents.length = some call.spec := by
  obtain ⟨call, n, hcall, hn, hkind, hlen⟩ := lower_call_node h
  exact ⟨call, n, hcall, hn, hkind, by rw [hlen]; exact hu.found hcall⟩

end Compilation
end Concord
