import Concord.Proofs.Evaluate.Carried
import Concord.Proofs.Evaluate.Runs

/-! The values of a run are the parts of the values of whole arrays, so a run gives out the whole value of
    the root piece by piece, and fails exactly if whole arrays have no value somewhere. -/

namespace Concord

open Grid Whole Signature Window NodeStore

namespace Prepared

variable {c : Resolution.Context} {d : Dataset} {v : ResolvedVariable} {plan : Plan} {i p : Nat}
  {key : Option Nat} {x : String} {n : Node} {us : List Field} {u : Field}

/-! ### Single nodes -/

theorem value_eq (h : Prepared c d v plan) (i : Nat) :
    (whole c v).value i = ((v.store.parents i).mapM (whole c v).value).bind ((whole c v).node i) := by
  have hmap : ((v.store.parents i).map (whole c v).value).mapM (fun w => w) =
      (v.store.parents i).mapM (whole c v).value := by
    rw [List.mapM_map]
    rfl
  rw [← hmap]
  exact NodeStore.valueAt_eq h.below i

/-- The function of a call is found by the number of its arrays. -/
theorem found_whole {function : String} {options : CallOptions} {f : FunctionSpec}
    (hc : Calls c v plan i function options f) {P : Nat → Field → Prop} (hus : List.Forall₂ P (v.store.parents i) us) :
    (whole c v).functions.get? function us.length = some f :=
  hus.length_eq ▸ hc.role.found

theorem call_part (h : Prepared c d v plan) (hn : v.store.node? i = some n) {function : String}
    {options : CallOptions} {f : FunctionSpec} (hc : Calls c v plan i function options f)
    (hus : List.Forall₂ (fun p u => Supported (v.store.dims p).names u) (v.store.parents i) us)
    (hkey : ∀ n, key = some n → n < plan.chunks.length) (hcarried : key = none ∨ (plan.role i).carried = none) :
    ((engine c v plan).call i function options (List.zipWith (partOf v plan key) (v.store.parents i) us)).toOption =
      (call f.kernel options (v.store.dims ((v.store.parents i).headD 0)) us).map (partOf v plan key i) := by
  have hmap : ∀ e : Elementwise, f.kernel = .map e → _ := fun e he => h.map_call_part hn hc he hkey hus
  have hshape := hc.shape
  generalize hkf : f.kernel = kernel at hshape
  generalize hps : v.store.parents i = ps at hus hshape hmap
  cases hshape with
  | unary => exact hmap _ hkf
  | binary => exact hmap _ hkf
  | reduce hd hx hout =>
    obtain ⟨a, _, ha, ⟨⟩, rfl⟩ := List.forall₂_cons_left_iff.mp hus
    unfold call
    rw [hd]
    exact h.reduce_call_part hn hc hkf hps hd hx hout ha hcarried
  | scan hd hx hout =>
    obtain ⟨a, _, ha, ⟨⟩, rfl⟩ := List.forall₂_cons_left_iff.mp hus
    unfold call
    rw [hd]
    exact h.scan_call_part hn hc hkf hps hd hx hout ha hcarried

theorem evaluate_part (h : Prepared c d v plan) (hn : v.store.node? i = some n)
    (hus : List.Forall₂ (fun p u => Supported (v.store.dims p).names u) (v.store.parents i) us)
    (hkey : ∀ n, key = some n → n < plan.chunks.length) (hs : key = none ∨ plan.streamed i = true)
    (hcarried : key = none ∨ (plan.role i).carried = none) :
    ((engine c v plan).evaluate i (List.zipWith (partOf v plan key) (v.store.parents i) us) key).outcome.toOption =
      ((whole c v).node i us).map (partOf v plan key i) := by
  have hkind := kind_of_node hn
  have haxes := h.resolved.typed.axes hn
  rw [← parents_of_node hn] at haxes
  generalize hps : v.store.parents i = ps at hus haxes
  generalize hout : v.store.dims i = out at haxes
  generalize hk : n.kind = kind at haxes
  rw [hk] at hkind
  unfold Engine.evaluate Evaluator.node
  rw [show (engine c v plan).store.kind? i = some kind from hkind,
    show (whole c v).store.kind? i = some kind from hkind]
  cases haxes with
  | literal =>
    cases hus
    show some (Grid.scalar _) = some (part _ (v.store.dims i) _)
    rw [hout, part_literal]
  | @operand name m hm =>
    obtain ⟨y, hy⟩ := h.held hkind
    dsimp only
    rw [h.readInput_part hkind hy hkey hs]
    rw [h.fetch_whole hy]
    rfl
  | @convert source target p haccepts =>
    obtain ⟨a, _, ha, ⟨⟩, rfl⟩ := List.forall₂_cons_left_iff.mp hus
    dsimp only
    show ((engine c v plan).convert source target [partOf v plan key p a]).toOption = _
    have hconv : (whole c v).converter.conversion source target =
      (engine c v plan).converter.conversion source target := rfl
    unfold Engine.convert
    rw [hconv]
    cases (engine c v plan).converter.conversion source target with
    | none => rfl
    | some f =>
      show some ((part _ (v.store.dims p) a).map f) = some (part _ (v.store.dims i) _)
      rw [map_part, hout]
  | @transpose p order target horder =>
    obtain ⟨a, _, ha, ⟨⟩, rfl⟩ := List.forall₂_cons_left_iff.mp hus
    show some ((part _ (v.store.dims p) a).permute order.axes) = some (part _ (v.store.dims i) a)
    rw [permute_part (h.known p) horder ha, hout]
  | @call function options parents f out hf hkernel hfit hdims' =>
    obtain ⟨f', hc⟩ := h.calls hn hk
    subst hps
    dsimp only
    rw [found_whole hc hus, Option.bind_some]
    exact h.call_part hn hc hus hkey hcarried

theorem supported_column {names : List String} (hn : names.Nodup) (hu : Supported names u) {m : Nat} {p q : Place}
    (hpq : ∀ y ∈ names.erase x, p y = q y) : column u p x m = column u q x m :=
  List.map_congr_left fun k _ => supported_laneAt hn hu k p q hpq

/-- The value of a call looks at its own axes only. -/
theorem supported_call (h : Prepared c d v plan) {function : String} {options : CallOptions} {f : FunctionSpec}
    (hc : Calls c v plan i function options f)
    (hus : List.Forall₂ (fun p u => Supported (v.store.dims p).names u) (v.store.parents i) us)
    (hu : call f.kernel options (v.store.dims ((v.store.parents i).headD 0)) us = some u) :
    Supported (v.store.dims i).names u := by
  have hshape := hc.shape
  generalize f.kernel = kernel at hshape hu
  generalize v.store.parents i = ps at hus hshape hu
  cases hshape with
  | unary he hpower hout =>
    obtain ⟨a, _, ha, ⟨⟩, rfl⟩ := List.forall₂_cons_left_iff.mp hus
    obtain ⟨g, -, rfl⟩ := Option.map_eq_some_iff.mp hu
    rw [hout]
    exact fun q r hqr => congrArg g (ha q r hqr)
  | binary he hp hq hnames =>
    obtain ⟨a, _, ha, hus', rfl⟩ := List.forall₂_cons_left_iff.mp hus
    obtain ⟨b, _, hb, ⟨⟩, rfl⟩ := List.forall₂_cons_left_iff.mp hus'
    obtain ⟨g, -, rfl⟩ := Option.map_eq_some_iff.mp hu
    exact fun r s hrs => congrArg₂ g (ha.mono hp.names r s hrs) (hb.mono hq.names r s hrs)
  | @reduce r p x hd hx hout =>
    obtain ⟨a, _, ha, ⟨⟩, rfl⟩ := List.forall₂_cons_left_iff.mp hus
    unfold call reduced at hu
    rw [hd] at hu
    dsimp only at hu
    split at hu
    · cases hu
    · cases hu
      rw [hout, names_without (h.known p)]
      exact fun q s hqs => congrArg r.ofColumn (supported_column (h.known p).nodup ha hqs)
  | @scan s p x hd hx hout =>
    obtain ⟨a, _, ha, ⟨⟩, rfl⟩ := List.forall₂_cons_left_iff.mp hus
    unfold call at hu
    rw [hd] at hu
    cases hu
    rw [hout]
    intro q r hqr
    unfold scanned
    rw [hqr x hx]
    exact congrArg s.ofColumn (supported_column (h.known p).nodup ha fun y hy => hqr y (List.mem_of_mem_erase hy))

/-- The value of a node looks at its own axes only. -/
theorem supported_node (h : Prepared c d v plan) (hn : v.store.node? i = some n)
    (hus : List.Forall₂ (fun p u => Supported (v.store.dims p).names u) (v.store.parents i) us)
    (hu : (whole c v).node i us = some u) : Supported (v.store.dims i).names u := by
  have hkind := kind_of_node hn
  have haxes := h.resolved.typed.axes hn
  rw [← parents_of_node hn] at haxes
  generalize hps : v.store.parents i = ps at hus haxes
  generalize hout : v.store.dims i = out at haxes
  generalize hk : n.kind = kind at haxes
  rw [hk] at hkind
  unfold Evaluator.node at hu
  rw [show (whole c v).store.kind? i = some kind from hkind] at hu
  cases haxes with
  | literal =>
    cases hu
    exact fun _ _ _ => rfl
  | @operand name m hm =>
    obtain ⟨g, -, rfl⟩ := Option.map_eq_some_iff.mp hu
    rw [show (whole c v).store.dims i = v.store.dims i from rfl, hout]
    exact read_supported _ _
  | @convert source target p haccepts =>
    obtain ⟨a, _, ha, ⟨⟩, rfl⟩ := List.forall₂_cons_left_iff.mp hus
    obtain ⟨f, -, rfl⟩ := Option.map_eq_some_iff.mp hu
    exact fun q r hqr => congrArg f (ha q r hqr)
  | @transpose p order target horder =>
    obtain ⟨a, _, ha, ⟨⟩, rfl⟩ := List.forall₂_cons_left_iff.mp hus
    cases hu
    refine ha.mono fun y hy => ?_
    rw [(perm_apply horder).1]
    exact (permutationTo_eq_some horder).2.symm.subset hy
  | @call function options parents f out hf hkernel hfit hdims' =>
    obtain ⟨f', hc⟩ := h.calls hn hk
    subst hps hout
    dsimp only at hu
    rw [found_whole hc hus, Option.bind_some] at hu
    exact h.supported_call hc hus hu

theorem supported (h : Prepared c d v plan) (i : Nat) : ∀ u, (whole c v).value i = some u →
    Supported (v.store.dims i).names u := by
  induction i using Nat.strongRecOn with
  | _ i ih =>
    intro u hu
    rw [h.value_eq] at hu
    obtain ⟨us, hus, hu⟩ := Option.bind_eq_some_iff.mp hu
    cases hn : v.store.node? i with
    | none =>
      unfold Evaluator.node at hu
      rw [show (whole c v).store.kind? i = none by simp [whole, kind?, hn]] at hu
      cases hu
    | some n =>
      refine h.supported_node hn ?_ hu
      have hall := mapM_eq_some.mp hus
      refine (List.forall₂_iff_zip.mpr ⟨hall.length_eq, fun {p u} hpu => ?_⟩)
      exact ih p (h.below i p (List.of_mem_zip hpu).1) u ((List.forall₂_iff_zip.mp hall).2 hpu)

theorem supported_all (h : Prepared c d v plan) {ps : List Nat} {us : List Field}
    (hus : ps.mapM (whole c v).value = some us) :
    List.Forall₂ (fun p u => Supported (v.store.dims p).names u) ps us :=
  (mapM_eq_some.mp hus).imp fun p u hu => h.supported p u hu

/-! ### All nodes -/

theorem ordered (h : Prepared c d v plan) : (engine c v plan).Ordered :=
  Engine.ordered h.resolved h.planned (h.builtin ▸ Functions.builtins_single) c.source c.converter

theorem node_of_le (hi : v.store.node? i = none) (us : List Field) : (whole c v).node i us = none := by
  have hkind : (whole c v).store.kind? i = none := by simp [whole, kind?, hi]
  simp only [Evaluator.node, hkind]

/-- The values of a node are parts of its value as a whole. -/
def Agrees (c : Resolution.Context) (v : ResolvedVariable) (plan : Plan) (i : Nat) : Prop :=
  ∀ key, (∀ n, key = some n → n < plan.chunks.length) → (key = none ∨ plan.streamed i = true) →
    (engine c v plan).value i key = ((whole c v).value i).map (partOf v plan key i)

/-- A parent that is not streamed has one value, which is also its part for each chunk. -/
theorem parent_part (h : Prepared c d v plan) (hp : Agrees c v plan p)
    (hkey : ∀ n, key = some n → n < plan.chunks.length) :
    (engine c v plan).value p ((engine c v plan).keyFor key p) =
      ((whole c v).value p).map (partOf v plan key p) := by
  have hkeyFor : (engine c v plan).keyFor key p = if plan.streamed p then key else none := rfl
  rw [hkeyFor]
  cases hsp : plan.streamed p with
  | true => exact hp key hkey (.inr hsp)
  | false =>
    rw [if_neg Bool.false_ne_true, hp none (fun n hn => by cases hn) (.inl rfl)]
    cases hu : (whole c v).value p with
    | none => rfl
    | some u => exact congrArg some (part_eq_whole (h.supported p u hu) (h.axis_not_mem hsp)).symm

theorem inputs_part (h : Prepared c d v plan) (hparents : ∀ p ∈ v.store.parents i, Agrees c v plan p)
    (hkey : ∀ n, key = some n → n < plan.chunks.length) :
    (engine c v plan).inputs i key =
      ((v.store.parents i).mapM (whole c v).value).map (List.zipWith (partOf v plan key) (v.store.parents i)) := by
  rw [← mapM_map_eq]
  exact mapM_congr fun p hp => h.parent_part (hparents p hp) hkey

/-- What the engine makes of the parents of a node, if it keeps nothing between chunks. -/
theorem plain_part (h : Prepared c d v plan) (hparents : ∀ p ∈ v.store.parents i, Agrees c v plan p)
    (hkey : ∀ n, key = some n → n < plan.chunks.length) (hs : key = none ∨ plan.streamed i = true)
    (hcarried : key = none ∨ (plan.role i).carried = none) :
    (((engine c v plan).inputs i key).bind fun gs => ((engine c v plan).evaluate i gs key).outcome.toOption) =
      ((whole c v).value i).map (partOf v plan key i) := by
  rw [h.inputs_part hparents hkey, h.value_eq]
  cases hus : (v.store.parents i).mapM (whole c v).value with
  | none => rfl
  | some us =>
    rw [Option.map_some, Option.bind_some, Option.bind_some]
    cases hn : v.store.node? i with
    | none =>
      have hkind : (engine c v plan).store.kind? i = none := by simp [engine, Engine.ofVariable, kind?, hn]
      simp only [node_of_le hn, Engine.evaluate, hkind]
      rfl
    | some n => exact h.evaluate_part hn (h.supported_all hus) hkey hs hcarried

theorem accumulates_eq (c : Resolution.Context) (v : ResolvedVariable) (plan : Plan) (i : Nat) :
    (engine c v plan).plan.accumulates i = ((plan.role i).carried.isSome && !plan.streamed i) := rfl

/-- The value of the only array that a node has. -/
theorem value_single (h : Prepared c d v plan) (hp : v.store.parents i = [p]) :
    (whole c v).value i = ((whole c v).value p).bind fun u => (whole c v).node i [u] := by
  rw [h.value_eq, hp, List.mapM_cons, List.mapM_nil]
  cases (whole c v).value p <;> rfl

theorem scanParts_single (hp : v.store.parents i = [p]) (hs : plan.streamed p = true) (k : Nat) :
    (engine c v plan).scanParts i k = (engine c v plan).value p (some k) := by
  have hparents : (engine c v plan).store.parents i = [p] := hp
  have hkey : (engine c v plan).keyFor (some k) p = some k := if_pos hs
  simp only [Engine.scanParts, Engine.inputs, hparents, List.mapM_cons, List.mapM_nil, hkey]
  cases (engine c v plan).value p (some k) <;> rfl

theorem agrees_of_carries (h : Prepared c d v plan) {p : Nat} (hp : v.store.parents i = [p])
    (hx : plan.dimension = some x) (hmem : x ∈ (v.store.dims p).names)
    (hc : (plan.role i).carried = some ((v.store.dims p).names.idxOf x)) (hcarries : Carries c v plan i p x)
    (hparent : Agrees c v plan p) : Agrees c v plan i := by
  intro key hkey hs
  have hb : (engine c v plan).store.ParentsBelow := h.below
  have hsp : plan.streamed p = true := (h.planned.streamed_along hx).mpr hmem
  have hchunk : ∀ k < plan.chunks.length, (engine c v plan).value p (some k) =
      ((whole c v).value p).map (partOf v plan (some k) p) := fun k hk =>
    hparent (some k) (fun n hn => Option.some.inj hn ▸ hk) (.inr hsp)
  cases hcarries with
  | reduce r hkernel hsi hdims hnode =>
    cases hs.resolve_right fun hs => by rw [hsi] at hs; cases hs
    have ha : (engine c v plan).plan.accumulates i = true := by simp [accumulates_eq, hc, hsi]
    have hc' : ((engine c v plan).plan.role i).carried = some _ := hc
    have hkernel' : ((engine c v plan).plan.role i).kernel = some (.reduce r) := hkernel
    rw [Engine.value_reduced hb ha hp, h.value_single hp, funext hnode,
      ← h.reduced_parts r hx hmem hdims (h.supported p) hchunk]
    simp only [Engine.reducedValue, hc', hkernel']
    rfl
  | scan s hkernel hsi hdims hnode =>
    cases key with
    | none =>
      have ha : (engine c v plan).plan.accumulates i = false := by simp [accumulates_eq, hsi]
      have hparents : ∀ q ∈ v.store.parents i, Agrees c v plan q := by
        intro q hq
        rw [hp, List.mem_singleton] at hq
        exact hq ▸ hparent
      rw [← h.plain_part hparents hkey hs (.inl rfl)]
      exact Engine.value_whole hb ha
    | some k =>
      have hparts : ∀ m < plan.chunks.length, (engine c v plan).scanParts i m =
          ((whole c v).value p).map (partOf v plan (some m) p) := fun m hm =>
        (scanParts_single hp hsp m).trans (hchunk m hm)
      rw [Engine.value_scan hb hc hkernel, h.value_single hp, funext hnode,
        ← h.scanned_parts s hx hmem hdims (h.supported p) hparts (hkey k rfl)]

/-- The values of a run are parts of the values of whole arrays. -/
theorem agreement (h : Prepared c d v plan) (i : Nat) : Agrees c v plan i := by
  induction i using Nat.strongRecOn with
  | _ i ih =>
    have hparents : ∀ p ∈ v.store.parents i, Agrees c v plan p := fun p hp => ih p (h.below i p hp)
    have hb : (engine c v plan).store.ParentsBelow := h.below
    cases hc : (plan.role i).carried with
    | none =>
      intro key hkey hs
      rw [← h.plain_part hparents hkey hs (.inr hc)]
      cases key with
      | none => exact Engine.value_whole hb (by simp [accumulates_eq, hc])
      | some k => exact Engine.value_plain hb hc k
    | some axis =>
      cases hn : v.store.node? i with
      | none =>
        rw [h.planned.role_of_le (List.getElem?_eq_none_iff.mp hn)] at hc
        cases hc
      | some n =>
        obtain ⟨p, x, hp, hx, hmem, rfl, hcarries⟩ := h.carries hn hc
        exact h.agrees_of_carries hp hx hmem hc hcarries (hparents p (hp ▸ List.mem_singleton_self p))

end Prepared
end Concord
