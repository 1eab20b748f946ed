import Mathlib
import Concord.Proofs.Graph.Amounts
import Concord.Proofs.Resolve.WellTyped

/-! Resolution keeps amounts. In exact arithmetic each node that stands for an amount before resolution becomes a node
    whose value, times the base units of its unit, is that amount: where units differ, conversions put in make up
    for it, and the units of products and quotients are read from their texts as they were printed. -/

namespace Concord.Resolution

open Concord.Measure NodeStore

variable {source : Source} {dimensionMap : NameMap String} {element : String → ℚ} {s t : NodeStore}
  {r : NodeStore × Nat} {id : Nat} {o : Operand} {x y z : ℚ}

/-- Resolution with the builtin functions and conversion by the table of symbols. -/
def linearContext (source : Source) (dimensionMap : NameMap String) : Context :=
  ⟨.builtins, source, Measure.linear, dimensionMap⟩

/-- Exact arithmetic: the builtin functions and the conversions of the table, in rational numbers. In numbers of 64 bits
    they are those of `Whole.Evaluator.value_at_place`, with the conversions by `conversionIn_id`. -/
def exactly (element : String → ℚ) : Points ℚ := ⟨.builtins, conversionIn Double.toRat, element⟩

/-! ### Values of nodes -/

/-- What a node does to the values of its parents. -/
theorem value_of_key {α : Type} [Scalar α] [Neg α] {w : Points α} {kind : NodeKind} {parents : List Nat}
    {ys : List α} (hb : s.ParentsBelow) (hkey : s.keys[id]? = some (kind, parents))
    (hys : parents.mapM (w.value s) = some ys) : w.value s id = w.node kind ys := by
  have hvalue : (s.parents id).mapM (s.pointAt w.node) = some ys := by
    rw [parents_eq_keys, hkey]
    exact hys
  rw [Points.value, pointAt_eq hb, hvalue, kind_eq_keys, hkey]
  rfl

theorem mapM_value {α : Type} {value : Nat → Option α} {y : α} (h : value id = some y) :
    [id].mapM value = some [y] := by
  rw [List.mapM_cons, h]
  rfl

theorem mapM_values {α : Type} {value : Nat → Option α} {a b : Nat} {y z : α} (ha : value a = some y)
    (hb : value b = some z) : [a, b].mapM value = some [y, z] := by
  rw [List.mapM_cons, ha, mapM_value hb]
  rfl

/-! ### Amounts of nodes -/

/-- The node is no literal, it has a value, and wherever its unit can be read this is a product of symbols and the
    value times its base units is the amount. -/
structure Has (element : String → ℚ) (s : NodeStore) (id : Nat) (o : Operand) (y x : ℚ) : Prop where
  operand : operandOf s id = .ok o
  literal : o.isLiteral = false
  value : (exactly element).value s id = some y
  amount : ∀ u, read o.unit = .ok u → Symbolic u ∧ y * siScale u.terms = x

/-- A node of a resolved graph stands for an amount. -/
def Stands (element : String → ℚ) (s : NodeStore) (id : Nat) (x : ℚ) : Prop := ∃ o y, Has element s id o y x

section
variable {c : Context}

theorem Has.grows (h : Has element s id o y x) (hs : LaidOut c s) (ht : LaidOut c t) (hgrows : Grows c s t) :
    Has element t id o y x where
  operand := hgrows.operandOf h.operand
  literal := h.literal
  value := by
    rw [← h.value]
    exact pointAt_of_keys hs.parentsBelow ht.parentsBelow hgrows.keeps.keys (lt_of_operandOf h.operand)
  amount := h.amount

end

theorem read_of_sameUnit {a b : String} {u : Measure Double} (h : sameUnit a b = true) (hb : read b = .ok u) :
    read a = .ok u := by
  unfold sameUnit at h
  rw [hb] at h
  cases ha : read a with
  | ok v =>
    rw [ha] at h
    rw [of_decide_eq_true h]
  | error f =>
    rw [ha] at h
    have hab : a = b := by simpa using h
    rw [hab, hb] at ha
    cases ha

theorem read_of_accepts {a b : String} (h : linear.accepts a b = true) (hne : sameUnit a b = false) :
    ∃ u v, read a = .ok u ∧ read b = .ok v := by
  have hsome : (affineBetween a b).isSome = true := by simpa [linear, hne] using h
  obtain ⟨u, v, hu, hv, -⟩ := affineBetween_isSome hsome
  exact ⟨u, v, hu, hv⟩

/-! ### Conversions -/

/-- A node that is converted stands for the same amount in the new unit. -/
theorem convertNode_has {target : String} (hs : LaidOut (linearContext source dimensionMap) s)
    (hid : Has element s id o y x) (htarget : ∀ v, read target = .ok v → Symbolic v)
    (h : convertNode (linearContext source dimensionMap) s id target = .ok r) :
    ∃ o' y', Has element r.1 r.2 o' y' x ∧ sameUnit o'.unit target = true := by
  obtain ⟨o₀, ho₀, hyields⟩ := convertNode_yields hs h
  cases hid.operand.symm.trans ho₀
  obtain ⟨a, ha, h⟩ := bind_eq_ok.mp h
  obtain ⟨a', ha', ho⟩ := operandOf_eq_ok hid.operand
  cases (layoutOf_iff.mp ha).symm.trans ha'
  have hunit : o.unit = a.unit := by rw [ho]
  have hoperand := hyields.operand
  unfold Typing.converted at hoperand
  split at h
  · rename_i hsame
    cases h
    exact ⟨o, y, hid, hunit ▸ hsame⟩
  · rename_i hsame
    split at h
    · rename_i haccepts
      cases h
      rw [if_neg (hunit ▸ hsame)] at hoperand
      -- Only units that can be read are converted, so the amount of the node is known.
      obtain ⟨u, v, hu, hv⟩ := read_of_accepts haccepts (Bool.eq_false_iff.mpr hsame)
      obtain ⟨hsymbolic, hamount⟩ := hid.amount u (hunit ▸ hu)
      obtain ⟨f, hf, hscale⟩ := conversionIn_rat haccepts hu hv hsymbolic (htarget v hv)
      have hyield := hid.grows hs hyields.laidOut hyields.grows
      refine ⟨_, f y, ⟨hoperand, rfl, ?_, fun w hw => ?_⟩, Typing.sameUnit_refl target⟩
      · rw [value_of_key hyields.laidOut.parentsBelow (keys_addWithLayout _ _ _ _) (mapM_value hyield.value)]
        exact congrArg (Option.map fun f => f y) hf
      · cases hv.symm.trans hw
        exact ⟨htarget v hv, (hscale y).trans hamount⟩
    · cases h

/-- Two arguments, of which the second is brought to the unit of the first where that is asked for. -/
theorem align_second {function : String} {conversions : List (Nat × String)} {a b : Nat} {oa ob : Operand}
    {ya yb xa xb : ℚ} {r : NodeStore × List Nat} (hs : LaidOut (linearContext source dimensionMap) s)
    (ha : Has element s a oa ya xa) (hb : Has element s b ob yb xb)
    (hconversions : Typing.conversionsTo linear.accepts function oa.unit [(oa, 0), (ob, 1)] = .ok conversions)
    (h : convertInputs (linearContext source dimensionMap) s [a, b] conversions = .ok r) :
    ∃ b' ob' yb', r.2 = [a, b'] ∧ Has element r.1 b' ob' yb' xb ∧ sameUnit ob'.unit oa.unit = true := by
  rw [Typing.conversionsTo, if_pos (by rw [Typing.sameUnit_refl, Bool.or_true]), Typing.conversionsTo, hb.literal,
    Bool.false_or] at hconversions
  split at hconversions
  · rename_i hsame
    cases hconversions
    cases h
    exact ⟨b, ob, yb, rfl, hb, hsame⟩
  · split at hconversions
    · cases hconversions
      rw [convertInputs] at h
      obtain ⟨⟨t, b'⟩, ht, h⟩ := bind_eq_ok.mp h
      cases h
      obtain ⟨ob', yb', hb', hsame⟩ := convertNode_has hs hb (fun v hv => (ha.amount v hv).1) ht
      exact ⟨b', ob', yb', rfl, hb', hsame⟩
    · cases hconversions

/-! ### Calls -/

theorem stands_call {function : String} {options : CallOptions} {parents : List Nat} {a : Layout} {f : FunctionSpec}
    {e : Elementwise} {ys : List ℚ} (ht : LaidOut (linearContext source dimensionMap) t)
    (hlayout : LayoutOf (linearContext source dimensionMap) t (.call function options) parents a)
    (hf : Functions.builtins.get? function parents.length = some f) (hkernel : f.kernel = .map e)
    (hys : parents.mapM ((exactly element).value t) = some ys) (hy : e.arithmetic? ys = some y)
    (hamount : ∀ u, read a.unit = .ok u → Symbolic u ∧ y * siScale u.terms = x) :
    Stands element (t.addWithLayout (.call function options) parents a).1
      (t.addWithLayout (.call function options) parents a).2 x := by
  have hadded := added_addWithLayout ht hlayout
  have hbelow : ∀ p ∈ parents, p < t.count := by
    intro p hp
    obtain ⟨b, hb⟩ := hlayout.parents_known p hp
    obtain ⟨n, hn, -⟩ := Option.bind_eq_some_iff.mp hb
    exact lt_count hn
  have hkeep : ∀ p ∈ parents, (exactly element).value _ p = (exactly element).value t p := fun p hp =>
    pointAt_of_keys ht.parentsBelow hadded.laidOut.parentsBelow hadded.grows.keeps.keys (hbelow p hp)
  have hvalues := (mapM_congr hkeep).trans hys
  refine ⟨_, y, hadded.yields.operand, rfl, ?_, hamount⟩
  rw [value_of_key hadded.laidOut.parentsBelow (keys_addWithLayout _ _ _ _) hvalues]
  refine Option.bind_eq_some_iff.mpr ⟨f, (mapM_eq_some.mp hys).length_eq ▸ hf, ?_⟩
  rw [hkernel]
  exact hy

section
variable {function : String} {options : CallOptions} {f : FunctionSpec} {e : Elementwise} {a b : Nat} {oa ob : Operand}
  {ya yb xa xb : ℚ}

theorem addCall_unary {change : ℚ → ℚ} (hs : LaidOut (linearContext source dimensionMap) s)
    (ha : Has element s a oa ya xa) (hf : Functions.builtins.get? function 1 = some f) (hkernel : f.kernel = .map e) (hrule : f.unit = .preserve)
    (he : e.arithmetic? [ya] = some (change ya)) (hscale : ∀ k, change ya * k = change (ya * k))
    (h : addCall (linearContext source dimensionMap) s function options [a] = .ok r) :
    Stands element r.1 r.2 (change xa) := by
  cases called hs h with
  | convert hf' hkernel' =>
    cases hf.symm.trans hf'
    cases hkernel.symm.trans hkernel'
  | call hf' _ hoperands hunit hinputs hlayout =>
    cases hf.symm.trans hf'
    have hoperands' : operandsOf s [a] = .ok [oa] := mapM_eq_ok.mpr (.cons ha.operand .nil)
    cases hoperands'.symm.trans hoperands
    rw [hrule] at hunit
    cases hunit
    cases hinputs
    refine stands_call hs hlayout hf hkernel (mapM_value ha.value) he fun u hu => ?_
    obtain ⟨hsymbolic, hamount⟩ := ha.amount u hu
    exact ⟨hsymbolic, by rw [hscale, hamount]⟩

theorem addCall_binary {join : ℚ → ℚ → ℚ} (hs : LaidOut (linearContext source dimensionMap) s)
    (ha : Has element s a oa ya xa) (hb : Has element s b ob yb xb)
    (hf : Functions.builtins.get? function 2 = some f) (hkernel : f.kernel = .map e)
    (he : ∀ y z, e.arithmetic? [y, z] = some (join y z))
    (hunit : ∀ outcome t inputs, Typing.unit linear.accepts f.unit function [oa, ob] options = .ok outcome →
      convertInputs (linearContext source dimensionMap) s [a, b] outcome.conversions = .ok (t, inputs) →
      ∃ b' ob' yb', inputs = [a, b'] ∧ Has element t b' ob' yb' xb ∧
        ∀ u, read outcome.unit = .ok u → Symbolic u ∧ join ya yb' * siScale u.terms = join xa xb)
    (h : addCall (linearContext source dimensionMap) s function options [a, b] = .ok r) :
    Stands element r.1 r.2 (join xa xb) := by
  cases called hs h with
  | convert hf' hkernel' =>
    cases hf.symm.trans hf'
    cases hkernel.symm.trans hkernel'
  | call hf' _ hoperands hunit' hinputs hlayout =>
    cases hf.symm.trans hf'
    have hoperands' : operandsOf s [a, b] = .ok [oa, ob] := mapM_eq_ok.mpr (.cons ha.operand (.cons hb.operand .nil))
    cases hoperands'.symm.trans hoperands
    obtain ⟨hlaid, hgrows, -, -⟩ := convertInputs_yields hs hoperands hinputs
    obtain ⟨b', ob', yb', rfl, hb', hamount⟩ := hunit _ _ _ hunit' hinputs
    exact stands_call hlaid hlayout hf hkernel (mapM_values (ha.grows hs hlaid hgrows).value hb'.value) (he _ _) hamount

/-- Sums and differences: the second argument is brought to the unit of the first. -/
theorem same_amount {join : ℚ → ℚ → ℚ} {outcome : UnitOutcome} {inputs : List Nat}
    (hjoin : ∀ y z k, join y z * k = join (y * k) (z * k)) (hs : LaidOut (linearContext source dimensionMap) s)
    (ha : Has element s a oa ya xa) (hb : Has element s b ob yb xb)
    (hunit : Typing.unit linear.accepts .same function [oa, ob] options = .ok outcome)
    (hinputs : convertInputs (linearContext source dimensionMap) s [a, b] outcome.conversions = .ok (t, inputs)) :
    ∃ b' ob' yb', inputs = [a, b'] ∧ Has element t b' ob' yb' xb ∧
      ∀ u, read outcome.unit = .ok u → Symbolic u ∧ join ya yb' * siScale u.terms = join xa xb := by
  have hfirst : [oa, ob].find? (!·.isLiteral) = some oa := by rw [List.find?_cons_of_pos (by rw [ha.literal]; rfl)]
  unfold Typing.unit at hunit
  rw [hfirst] at hunit
  obtain ⟨conversions, hconversions, rfl⟩ := map_eq_ok.mp hunit
  obtain ⟨b', ob', yb', hb', hhas, hsame⟩ := align_second hs ha hb hconversions hinputs
  -- If the unit of the first argument can be read, that of the second is the same by now.
  refine ⟨b', ob', yb', hb', hhas, fun u hu => ?_⟩
  obtain ⟨hsymbolic, hamount⟩ := ha.amount u hu
  exact ⟨hsymbolic, by rw [hjoin, hamount, (hhas.amount u (read_of_sameUnit hsame hu)).2]⟩

theorem Has.measure (h : Has element s id o y x) {u : Measure Double} (hu : Typing.measure function o = .ok u) :
    Symbolic u ∧ Sound u ∧ y * siScale u.terms = x := by
  unfold Typing.measure at hu
  rw [h.literal, if_neg Bool.false_ne_true] at hu
  split at hu
  · rename_i hread
    cases hu
    obtain ⟨hsymbolic, hamount⟩ := h.amount _ hread
    exact ⟨hsymbolic, (sound_read hread).1, hamount⟩
  · cases hu

/-- Products and quotients: the unit is printed and read again, and the values in it are those of the amounts. -/
theorem printed_amount (op : Measure Double → Measure Double → Measure Double) {join : ℚ → ℚ → ℚ}
    {outcome : UnitOutcome} {inputs : List Nat}
    (hop : ∀ {u v}, Symbolic u → Symbolic v → Sound u → Sound v → Symbolic (op u v) ∧ Sound (op u v))
    (hjoin : ∀ u v y z, join y z * siScale (op u v).terms = join (y * siScale u.terms) (z * siScale v.terms))
    (ha : Has element s a oa ya xa) (hb : Has element s b ob yb xb)
    (hunit : ((Typing.measure function oa >>= fun u => Typing.measure function ob >>= fun v =>
      .ok (op (unity.multiply u) v)).map fun w => (⟨text w, []⟩ : UnitOutcome)) = .ok outcome)
    (hinputs : convertInputs (linearContext source dimensionMap) s [a, b] outcome.conversions = .ok (t, inputs)) :
    ∃ b' ob' yb', inputs = [a, b'] ∧ Has element t b' ob' yb' xb ∧
      ∀ u, read outcome.unit = .ok u → Symbolic u ∧ join ya yb' * siScale u.terms = join xa xb := by
  obtain ⟨_, hw, rfl⟩ := map_eq_ok.mp hunit
  obtain ⟨u, hu, hw⟩ := bind_eq_ok.mp hw
  obtain ⟨v, hv, hw⟩ := bind_eq_ok.mp hw
  cases hw
  cases hinputs
  obtain ⟨hus, huw, hua⟩ := ha.measure hu
  obtain ⟨hvs, hvw, hva⟩ := hb.measure hv
  have hone : siScale (unity.multiply u).terms = siScale u.terms := by
    rw [siScale_multiply]
    exact one_mul _
  obtain ⟨hsymbolic, hsound⟩ := hop (symbolic_unity.multiply hus sound_unity huw) hvs (sound_unity.multiply huw) hvw
  refine ⟨b, ob, yb, rfl, hb, fun w hw => ?_⟩
  rw [hsymbolic.eq_of_read_text hsound hw, hjoin, hone, hua, hva]
  exact ⟨hsymbolic, rfl⟩

theorem addCall_one {z : ℚ} (hs : LaidOut (linearContext source dimensionMap) s) (ha : Stands element s a xa)
    (hop : Operation function options [xa] z)
    (h : addCall (linearContext source dimensionMap) s function options [a] = .ok r) : Stands element r.1 r.2 z := by
  obtain ⟨oa, ya, ha⟩ := ha
  cases hop with
  | keep => exact addCall_unary hs ha rfl rfl rfl (show _ = some (id ya) from rfl) (fun _ => rfl) h
  | negate => exact addCall_unary hs ha rfl rfl rfl rfl (neg_mul _) h
  | convert htarget hread hsymbolic =>
    have hf : Functions.builtins.get? "convert" 1 = some _ := rfl
    cases called hs h with
    | convert hf' hkernel htarget' hr =>
      cases htarget.symm.trans htarget'
      obtain ⟨o', y', hhas, -⟩ := convertNode_has hs ha (fun v hv => by cases hread.symm.trans hv; exact hsymbolic) hr
      exact ⟨o', y', hhas⟩
    | call hf' hkernel =>
      cases hf.symm.trans hf'
      exact absurd rfl hkernel

theorem addCall_two {z : ℚ} (hs : LaidOut (linearContext source dimensionMap) s) (ha : Stands element s a xa)
    (hb : Stands element s b xb) (hop : Operation function options [xa, xb] z)
    (h : addCall (linearContext source dimensionMap) s function options [a, b] = .ok r) : Stands element r.1 r.2 z := by
  obtain ⟨oa, ya, ha⟩ := ha
  obtain ⟨ob, yb, hb⟩ := hb
  cases hop with
  | add =>
    exact addCall_binary hs ha hb rfl rfl (fun _ _ => rfl) (fun _ _ _ => same_amount add_mul hs ha hb) h
  | subtract =>
    exact addCall_binary hs ha hb rfl rfl (fun _ _ => rfl) (fun _ _ _ => same_amount sub_mul hs ha hb) h
  | multiply =>
    refine addCall_binary hs ha hb rfl rfl (fun _ _ => rfl) (fun _ _ _ hunit => ?_) h
    refine printed_amount multiply ?_ ?_ ha hb hunit
    · exact fun hu hv hus hvs => ⟨hu.multiply hv hus hvs, hus.multiply hvs⟩
    · intro u v y z
      rw [siScale_multiply]
      exact mul_mul_mul_comm ..
  | divide =>
    refine addCall_binary hs ha hb rfl rfl (fun _ _ => rfl) (fun _ _ _ hunit => ?_) h
    refine printed_amount divide ?_ ?_ ha hb hunit
    · exact fun hu hv hus hvs => ⟨hu.divide hv hus hvs, hus.divide hvs⟩
    · intro u v y z
      rw [siScale_divide]
      exact div_mul_div_comm ..

end

/-! ### All steps -/

/-- A node is resolved to one that stands for its amount, if its parents were. -/
theorem addNode_stands {p : Progress} {v : NodeStore} {i : Nat} {n : Node} {native : NameMap Signature}
    (hn : v.node? i = some n) (hp : LaidOut (linearContext source dimensionMap) p.store)
    (hparents : ∀ q ∈ n.parents, ∀ x, NodeAmount source element v q x →
      Stands element p.store (p.renumbered.getD q 0) x)
    (hx : NodeAmount source element v i x)
    (h : addNode (linearContext source dimensionMap) p n = .ok (t, id, native)) : Stands element t id x := by
  unfold addNode at h
  cases hx with
  | @input _ name _ hkey hx =>
    obtain ⟨hkind, -⟩ := node_of_key hn hkey
    obtain ⟨hdescribe, hread, hsymbolic⟩ := hx
    rw [hkind] at h
    dsimp only at h
    rw [show (linearContext source dimensionMap).source.describe _ = _ from hdescribe] at h
    cases h
    have hadded := added_addWithLayout hp (.operand hdescribe)
    refine ⟨_, element name, hadded.yields.operand, rfl, ?_, fun u hu => ?_⟩
    · exact value_of_key hadded.laidOut.parentsBelow (keys_addWithLayout _ _ _ _) rfl
    · cases hread.symm.trans hu
      exact ⟨hsymbolic, rfl⟩
  | unary hkey ha hop =>
    obtain ⟨hkind, hlist⟩ := node_of_key hn hkey
    rw [hlist] at hparents
    rw [hkind, hlist] at h
    obtain ⟨⟨u, j⟩, hu, h⟩ := bind_eq_ok.mp h
    cases h
    exact addCall_one hp (hparents _ (List.mem_singleton_self _) _ ha) hop hu
  | binary hkey ha hb hop =>
    obtain ⟨hkind, hlist⟩ := node_of_key hn hkey
    rw [hlist] at hparents
    rw [hkind, hlist] at h
    obtain ⟨⟨u, j⟩, hu, h⟩ := bind_eq_ok.mp h
    cases h
    exact addCall_two hp (hparents _ List.mem_cons_self _ ha)
      (hparents _ (List.mem_cons_of_mem _ (List.mem_singleton_self _)) _ hb) hop hu

/-- When all nodes of a graph are resolved, they stand for the amounts that they stood for. -/
structure Amounting (source : Source) (dimensionMap : NameMap String) (element : String → ℚ) (v : NodeStore)
    (n : Nat) (p : Progress) : Prop where
  laidOut : LaidOut (linearContext source dimensionMap) p.store
  stands : ∀ i, i < n → ∀ x, NodeAmount source element v i x → Stands element p.store (p.renumbered.getD i 0) x

theorem steps_amounting {v : NodeStore} {p : Progress} (hv : Lowered (fun _ _ => True) v)
    (h : v.nodes.foldlM (step (linearContext source dimensionMap)) start = .ok p) :
    Amounting source dimensionMap element v v.count p := by
  suffices LaidOut (linearContext source dimensionMap) p.store ∧ ∀ i < v.count, ∀ x, NodeAmount source element v i x →
      Stands element p.store (p.renumbered.getD i 0) x from ⟨this.1, this.2⟩
  refine steps_related (R := fun i s id => ∀ x, NodeAmount source element v i x → Stands element s id x) hv ?_ ?_ h
  · intro i s t id hs ht hgrows hstands x hx
    obtain ⟨o, y, hhas⟩ := hstands x hx
    exact ⟨o, y, hhas.grows hs ht hgrows⟩
  · intro i n p t id native hn _ hlaid hparents ht x hx
    exact addNode_stands hn hlaid hparents hx ht

theorem conformRoot_has {target : Target} (hs : LaidOut (linearContext source dimensionMap) s)
    (hid : Has element s id o y x) (htarget : ∀ v, read target.units = .ok v → Symbolic v)
    (h : conformRoot (linearContext source dimensionMap) s id target = .ok r) :
    ∃ o' y', Has element r.1 r.2 o' y' x ∧ sameUnit o'.unit target.units = true := by
  obtain ⟨⟨t, i⟩, ht, h⟩ := bind_eq_ok.mp h
  obtain ⟨a, ha, ht⟩ := bind_eq_ok.mp ht
  replace ha := layoutOf_iff.mp ha
  dsimp only at ht
  split at ht
  · cases ht
    exact convertNode_has hs hid htarget h
  · split at ht
    · cases ht
    · rename_i order horder
      cases ht
      have hadded := added_addWithLayout hs (.transpose ha horder)
      have hyield := hid.grows hs hadded.laidOut hadded.grows
      cases hid.operand.symm.trans (operandOf_of_layout ha)
      refine convertNode_has hadded.laidOut ⟨hadded.yields.operand, rfl, ?_, hid.amount⟩ htarget h
      rw [value_of_key hadded.laidOut.parentsBelow (keys_addWithLayout _ _ _ _) (mapM_value hyield.value)]
      rfl

/-! ### Resolved variables -/

theorem value_selected {w : Points ℚ} {ids : List Nat} (hs : LaidOut (linearContext source dimensionMap) s)
    (h : Closed s ids) (hid : id ∈ ids) : w.value (selected s ids) (ids.idxOf id) = w.value s id :=
  pointAt_renumber (P := (· ∈ ids)) hs.parentsBelow (laidOut_selected hs h).parentsBelow
    (fun i hi => ⟨h.parents i hi, parents_selected h hi⟩) (fun _ hi => (alike_selected h hi).kind) id hid

/-- In exact arithmetic an element of a resolved variable, times the base units of the target, is the amount that the
    definition stands for. -/
theorem resolve_exact {definitions : Definitions} {name : String} {v : CompiledVariable} {e : Expr} {target : Target}
    {u : Measure Double} {r : ResolvedVariable}
    (hv : (Compilation.compile .builtins source definitions).compiled.get? name = some v)
    (he : Compilation.Means definitions name e) (hx : Amount source definitions element e x)
    (hu : read target.units = .ok u) (hsymbolic : Symbolic u)
    (h : resolve (linearContext source dimensionMap) v target = .ok r) :
    ∃ y, (exactly element).value r.store r.root = some y ∧ y * siScale u.terms = x := by
  have hlowered : Lowered (fun _ _ => True) v.store := Compilation.compile_lowered (fun _ _ _ _ _ => trivial) hv
  have hroot := Compilation.compile_amount hv he hx
  obtain ⟨p, s, root, hst⟩ := resolve_stages hlowered h
  have hamounting : Amounting source dimensionMap element v.store v.store.count p := steps_amounting hlowered hst.steps
  obtain ⟨o, y, hhas⟩ := hamounting.stands _ hroot.lt_count x hroot
  have htarget : ∀ v, read target.units = .ok v → Symbolic v := fun v hv => by
    cases hu.symm.trans hv
    exact hsymbolic
  obtain ⟨o', y', hhas', hsame⟩ := conformRoot_has hamounting.laidOut hhas htarget hst.conformed
  obtain ⟨_, hyields, -, -⟩ := conformRoot_yields hamounting.laidOut hst.conformed
  refine ⟨y', ?_, (hhas'.amount u (read_of_sameUnit hsame hu)).2⟩
  rw [hst.store, hst.root, value_selected hyields.laidOut hst.closed hst.mem]
  exact hhas'.value

/-- Two ways, and the time that they took together. -/
def trip : Dataset :=
  let dims := [⟨"leg", some 2⟩]
  .ofList [("run", ⟨⟨dims, "km", .empty⟩, ⟨[2], #[3, 1], rfl⟩⟩),
    ("walk", ⟨⟨dims, "m", .empty⟩, ⟨[2], #[500, 0], rfl⟩⟩),
    ("span", ⟨⟨dims, "h", .empty⟩, ⟨[2], #[2, 1], rfl⟩⟩)]

def tripDefinitions : Definitions := .ofList [("way", "walk + run"), ("speed", "convert(way, units='cm') / span")]

def tripTarget : Target := ⟨["leg"], "km/h", .empty⟩

def tripVariable : CompiledVariable :=
  ((Compilation.compile .builtins trip.source tripDefinitions).compiled.get? "speed").get (by decide +kernel)

def tripResolved : ResolvedVariable :=
  (resolve (linearContext trip.source .empty) tripVariable tripTarget).toOption.get (by decide +kernel)

/-- The elements of the first leg. -/
def tripElement (name : String) : ℚ := if name = "run" then 3 else if name = "walk" then 500 else 2

/-- 3.5 km in 2 h, added up in metres, converted to centimetres and given in km/h. -/
theorem resolve_exact_trip :
    ∃ y, (exactly tripElement).value tripResolved.store tripResolved.root = some y ∧
      y * siScale (.ofList [("km", 1), ("h", -1)]) = (500 + 3 * 1000) / (2 * 3600) := by
  have hr : resolve (linearContext trip.source .empty) tripVariable tripTarget = .ok tripResolved :=
    toOption_eq_some.mp (Option.some_get _).symm
  have hway : Compilation.Means tripDefinitions "way" (.call "+" [.operand "walk", .operand "run"] []) :=
    ⟨"walk + run", by decide +kernel, by cbv⟩
  have hspeed : Compilation.Means tripDefinitions "speed"
      (.call "/" [.call "convert" [.operand "way"] [("units", .text "cm")], .operand "span"] []) :=
    ⟨"convert(way, units='cm') / span", by decide +kernel, by cbv⟩
  have hread : ∀ symbol, (read symbol).toOption = some ⟨.ofList [(symbol, 1)], 1⟩ → read symbol = .ok ⟨_, _⟩ :=
    fun _ => toOption_eq_some.mp
  have hwalk : InputAmount trip.source tripElement "walk" _ :=
    .intro rfl (hread "m" (by decide +kernel)) (by decide +kernel)
  have hrun : InputAmount trip.source tripElement "run" _ :=
    .intro rfl (hread "km" (by decide +kernel)) (by decide +kernel)
  have hspan : InputAmount trip.source tripElement "span" _ :=
    .intro rfl (hread "h" (by decide +kernel)) (by decide +kernel)
  have hsum : Amount trip.source tripDefinitions tripElement (.call "+" [.operand "walk", .operand "run"] []) _ :=
    .binary rfl rfl (.input hwalk) (.input hrun) .add
  have hconverted : Amount trip.source tripDefinitions tripElement
      (.call "convert" [.operand "way"] [("units", .text "cm")]) _ :=
    .unary rfl rfl (.definition rfl hway hsum) (.convert rfl (hread "cm" (by decide +kernel)) (by decide +kernel))
  have hquotient : Amount trip.source tripDefinitions tripElement
      (.call "/" [.call "convert" [.operand "way"] [("units", .text "cm")], .operand "span"] []) _ :=
    .binary rfl rfl hconverted (.input hspan) .divide
  have hu : read tripTarget.units = .ok ⟨.ofList [("km", 1), ("h", -1)], 1⟩ := toOption_eq_some.mp (by decide +kernel)
  obtain ⟨y, hy, hamount⟩ := resolve_exact (Option.some_get _).symm hspeed hquotient hu (by decide +kernel) hr
  exact ⟨y, hy, hamount.trans (by decide +kernel)⟩

end Concord.Resolution
