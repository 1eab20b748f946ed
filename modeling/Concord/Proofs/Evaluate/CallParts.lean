import Concord.Proofs.Evaluate.NodeParts

/-! What the calls of a prepared variable make of parts of arrays. -/

namespace Concord

open Grid Whole Signature Window NodeStore

/-! ### Single elements -/

namespace Elementwise

variable {e : Elementwise} {options : CallOptions}

theorem apply_single {f : Double → Double} (hb : e.binary? = none) (hf : e.single? options = some f)
    (g : Grid Double) : e.apply options [g] = .ok (g.map f) := by
  cases e with
  | add | sub | mul | div => cases hb
  | power =>
    obtain ⟨y, hy, rfl⟩ := Option.map_eq_some_iff.mp hf
    simp only [apply, binary?, hy, applyUnary]
  | keep | negate | sqrt | abs | exp | log =>
    cases hf
    rfl

theorem single_isSome (hpower : e = .power → (options.number? "exponent").isSome = true) :
    ∃ f, e.single? options = some f := by
  cases e with
  | power =>
    obtain ⟨y, hy⟩ := Option.isSome_iff_exists.mp (hpower rfl)
    exact ⟨_, by rw [single?, hy, Option.map_some]⟩
  | _ => exact ⟨_, rfl⟩

theorem apply_binary {op : Double → Double → Double} (hb : e.binary? = some op) (a b : Grid Double) :
    e.apply options [a, b] = a.zip? op b := by
  cases e <;> cases hb <;> rfl

end Elementwise

namespace Prepared

variable {c : Resolution.Context} {d : Dataset} {v : ResolvedVariable} {plan : Plan} {i p q : Nat}
  {key : Option Nat} {x function : String} {options : CallOptions} {n : Node} {f : FunctionSpec}

/-! ### What a call does -/

theorem layouts_eq (h : Prepared c d v plan) : ∀ {l : List Nat}, (∀ p ∈ l, p < v.store.count) →
    l.mapM (fun p => ((engine c v plan).layout p).map (·.dims)) = .ok (l.map v.store.dims)
  | [], _ => rfl
  | p :: l, hl => by
    obtain ⟨a, ha, hdims⟩ := h.layout_eq (hl p List.mem_cons_self)
    rw [List.mapM_cons, ha, h.layouts_eq fun q hq => hl q (List.mem_cons_of_mem _ hq), List.map_cons, ← hdims]
    rfl

theorem parents_lt (h : Prepared c d v plan) (hn : v.store.node? i = some n) :
    ∀ p ∈ v.store.parents i, p < v.store.count := fun p hp => Nat.lt_trans (h.below i p hp) (lt_count hn)

theorem aligned_eq (h : Prepared c d v plan) (hn : v.store.node? i = some n) (inputs : List (Grid Double)) :
    (engine c v plan).aligned i inputs =
      Align.alignAll (((v.store.parents i).map v.store.dims).zip inputs) (v.store.dims i) := by
  obtain ⟨a, ha, hdims⟩ := h.layout_eq (lt_count hn)
  have hlayouts := h.layouts_eq (h.parents_lt hn)
  unfold Engine.aligned
  rw [ha, show (engine c v plan).store.parents i = v.store.parents i from rfl, ← hdims]
  show (do
    let dims ← (v.store.parents i).mapM fun p => ((engine c v plan).layout p).map Layout.dims
    Align.alignAll (dims.zip inputs) a.dims) = _
  rw [hlayouts]
  rfl

theorem along_eq (h : Prepared c d v plan) (hn : v.store.node? i = some n) (hp : v.store.parents i = [p])
    (hd : options.text? "dim" = some x) (hx : x ∈ (v.store.dims p).names) (g : Grid Double) :
    (engine c v plan).along i [g] options = .ok (g, (v.store.dims p).names.idxOf x) := by
  obtain ⟨a, ha, hdims⟩ := h.layout_eq (h.parents_lt hn p (hp ▸ List.mem_singleton_self p))
  have hfirst : (engine c v plan).firstParent i = .ok p := by
    unfold Engine.firstParent
    rw [show (engine c v plan).store.parents i = [p] from hp]
  have haxis : a.dims.position x = some ((v.store.dims p).names.idxOf x) := by rw [hdims, position_of_mem hx]
  unfold Engine.along
  simp only [hd, hfirst, ha, haxis, Engine.firstInput, Bind.bind, Except.bind]

/-- A call of a builtin function and its role. -/
structure Calls (c : Resolution.Context) (v : ResolvedVariable) (plan : Plan) (i : Nat) (function : String)
    (options : CallOptions) (f : FunctionSpec) : Prop where
  role : Plan.Planned.CallRole c.functions v plan i function options f
  regular : Functions.Regular f
  shape : CallShape options v.store.dims (v.store.dims i) f.kernel (v.store.parents i)

theorem calls (h : Prepared c d v plan) (hn : v.store.node? i = some n) (hk : n.kind = .call function options) :
    ∃ f, Calls c v plan i function options f := by
  obtain ⟨f, hf⟩ := h.planned.call hn hk
  have haxes := h.resolved.typed.axes hn
  rw [hk, ← parents_of_node hn] at haxes
  obtain ⟨-, f', hf', hshape⟩ := haxes.call_shape h.builtin fun p _ => h.known p
  have hfound := hf.found
  rw [h.builtin] at hfound
  cases hfound.symm.trans hf'
  exact ⟨f, hf, Functions.builtins_regular f (Functions.get?_eq_some hf').1, hshape⟩

/-- The axis along which a call carries state. -/
theorem carried_eq (h : Prepared c d v plan) (hc : Calls c v plan i function options f)
    (hshape : f.shape = .reduce ∨ f.shape = .scan) (hp : v.store.parents i = [p])
    (hd : options.text? "dim" = some x) (hx : x ∈ (v.store.dims p).names) :
    (plan.role i).carried = if plan.dimension = some x then some ((v.store.dims p).names.idxOf x) else none := by
  rw [hc.role.carried, hp]
  unfold Plan.carriedAxis
  rw [hd]
  dsimp only
  rw [Plan.Planned.any_streamed, position_of_mem hx]
  by_cases hdim : plan.dimension = some x
  · rw [if_pos hdim, if_pos ⟨hshape, hdim, (h.planned.streamed_along hdim).mpr hx⟩]
  · rw [if_neg hdim, if_neg fun hand => hdim hand.2.1]

/-- A call that carries no state works along another axis than that of the window. -/
theorem axis_ne (h : Prepared c d v plan) (hc : Calls c v plan i function options f)
    (hshape : f.shape = .reduce ∨ f.shape = .scan) (hp : v.store.parents i = [p])
    (hd : options.text? "dim" = some x) (hx : x ∈ (v.store.dims p).names)
    (hkey : key = none ∨ (plan.role i).carried = none) : ∀ u ∈ plan.windowFor key, u.axis ≠ x := by
  rintro u hu rfl
  rcases hkey with rfl | hkey
  · cases hu
  · rw [h.carried_eq hc hshape hp hd hx, if_pos (windowFor_axis hu)] at hkey
    cases hkey

/-! ### Parts -/

/-- The part of the value of a node for a chunk, or the whole. -/
def partOf (v : ResolvedVariable) (plan : Plan) (key : Option Nat) (p : Nat) (u : Field) : Grid Double :=
  part (plan.windowFor key) (v.store.dims p) u

theorem map_call_part (h : Prepared c d v plan) (hn : v.store.node? i = some n)
    (hc : Calls c v plan i function options f) {e : Elementwise} (he : f.kernel = .map e)
    (hkey : ∀ n, key = some n → n < plan.chunks.length) {us : List Field}
    (hus : List.Forall₂ (fun p u => Supported (v.store.dims p).names u) (v.store.parents i) us) :
    ((engine c v plan).call i function options (List.zipWith (partOf v plan key) (v.store.parents i) us)).toOption =
      (pointwise e options us).map (partOf v plan key i) := by
  have hinside := h.inside hkey i
  have hsmall := h.small i (lt_count hn)
  have hknown := h.known i
  have hcall : ∀ gs, (engine c v plan).call i function options gs =
      (do (e.apply options (← (engine c v plan).aligned i gs)).mapError EvaluationFault.kernel) := by
    intro gs
    unfold Engine.call
    rw [show ((engine c v plan).plan.role i).kernel = some (.map e) from he ▸ hc.role.kernel]
  rw [hcall, h.aligned_eq hn]
  have hshape := hc.shape
  rw [he] at hshape
  generalize hps : v.store.parents i = ps at hus hshape
  cases hshape with
  | @unary _ p hb hpower hout =>
    obtain ⟨a, _, ha, ⟨⟩, rfl⟩ := List.forall₂_cons_left_iff.mp hus
    obtain ⟨g, hg⟩ := Elementwise.single_isSome hpower
    have halign := alignAll_parts (w := plan.windowFor key) [(v.store.dims p, a)] hknown
      (fun y hy => ⟨_, List.mem_singleton_self _, hout ▸ hy⟩)
      (fun j hj => by
        rw [List.mem_singleton.mp hj]
        exact ⟨h.known p, hout ▸ ⟨List.Subset.refl _, fun _ _ => rfl⟩, ha⟩) hinside hsmall
    rw [show (([p].map v.store.dims).zip (List.zipWith (partOf v plan key) [p] [a])) =
      [(v.store.dims p, a)].map (fun j => (j.1, part (plan.windowFor key) j.1 j.2)) from rfl, halign]
    show ((e.apply options [part _ (v.store.dims i) a]).mapError EvaluationFault.kernel).toOption = _
    rw [Elementwise.apply_single hb hg, map_part, pointwise, hg]
    rfl
  | @binary _ op p q hb hp hq hnames =>
    obtain ⟨a, _, ha, hus', rfl⟩ := List.forall₂_cons_left_iff.mp hus
    obtain ⟨b, _, hb', ⟨⟩, rfl⟩ := List.forall₂_cons_left_iff.mp hus'
    have halign := alignAll_parts (w := plan.windowFor key) [(v.store.dims p, a), (v.store.dims q, b)] hknown
      (fun y hy => (hnames y hy).elim (fun hy => ⟨_, List.mem_cons_self, hy⟩)
        fun hy => ⟨_, List.mem_cons_of_mem _ (List.mem_singleton_self _), hy⟩)
      (fun j hj => by
        rcases List.mem_cons.mp hj with rfl | hj
        · exact ⟨h.known p, hp, ha⟩
        · rw [List.mem_singleton.mp hj]
          exact ⟨h.known q, hq, hb'⟩) hinside hsmall
    rw [show (([p, q].map v.store.dims).zip (List.zipWith (partOf v plan key) [p, q] [a, b])) =
      [(v.store.dims p, a), (v.store.dims q, b)].map (fun j => (j.1, part (plan.windowFor key) j.1 j.2)) from rfl,
      halign]
    show ((e.apply options [part _ (v.store.dims i) a, part _ (v.store.dims i) b]).mapError
      EvaluationFault.kernel).toOption = _
    rw [Elementwise.apply_binary hb, zip_parts, pointwise, hb]
    rfl

theorem reduce_call_part (h : Prepared c d v plan) (hn : v.store.node? i = some n)
    (hc : Calls c v plan i function options f) {r : Reduction} (hr : f.kernel = .reduce r)
    (hp : v.store.parents i = [p]) (hd : options.text? "dim" = some x) (hx : x ∈ (v.store.dims p).names)
    (hout : v.store.dims i = (v.store.dims p).without x) {u : Field} (hu : Supported (v.store.dims p).names u)
    (hkey : key = none ∨ (plan.role i).carried = none) :
    ((engine c v plan).call i function options [partOf v plan key p u]).toOption =
      (reduced r x ((v.store.dims p).lens x) u).map (partOf v plan key i) := by
  have hshape : f.shape = .reduce ∨ f.shape = .scan := by
    have hreg := hc.regular
    unfold Functions.Regular at hreg
    rw [hr] at hreg
    exact .inl hreg.2
  have hne := h.axis_ne hc hshape hp hd hx hkey
  unfold Engine.call
  rw [show ((engine c v plan).plan.role i).kernel = some (.reduce r) from hr ▸ hc.role.kernel]
  dsimp only
  rw [h.along_eq hn hp hd hx]
  show (((Accumulator.start r).feed (part _ (v.store.dims p) u) _).finish.mapError EvaluationFault.kernel).toOption = _
  rw [reduce_part r (h.known p) hx hu hne]
  cases reduced r x ((v.store.dims p).lens x) u with
  | none => rfl
  | some u' =>
    rw [← hout]
    rfl

theorem scan_call_part (h : Prepared c d v plan) (hn : v.store.node? i = some n)
    (hc : Calls c v plan i function options f) {s : Scan} (hs : f.kernel = .scan s)
    (hp : v.store.parents i = [p]) (hd : options.text? "dim" = some x) (hx : x ∈ (v.store.dims p).names)
    (hout : v.store.dims i = v.store.dims p) {u : Field} (hu : Supported (v.store.dims p).names u)
    (hkey : key = none ∨ (plan.role i).carried = none) :
    ((engine c v plan).call i function options [partOf v plan key p u]).toOption =
      some (partOf v plan key i (scanned s x u)) := by
  have hshape : f.shape = .reduce ∨ f.shape = .scan := by
    have hreg := hc.regular
    unfold Functions.Regular at hreg
    rw [hs] at hreg
    exact .inr hreg.2
  have hne := h.axis_ne hc hshape hp hd hx hkey
  unfold Engine.call
  rw [show ((engine c v plan).plan.role i).kernel = some (.scan s) from hs ▸ hc.role.kernel]
  dsimp only
  rw [h.along_eq hn hp hd hx]
  show some ((ScanState.start s).step (part _ (v.store.dims p) u) _).1 = _
  rw [scan_part s (h.known p) hx hu hne, ← hout]
  rfl

end Prepared
end Concord
