import Concord.Proofs.Evaluate.CallParts
import Concord.Proofs.Evaluate.Values

/-! Nodes that carry state along the dimension that is cut. After some chunks a reduction has seen, and a
    scan has gone over, the whole array up to the edge between the chunks. -/

namespace Concord

open Grid Whole Signature Window NodeStore

namespace Prepared

variable {c : Resolution.Context} {d : Dataset} {v : ResolvedVariable} {plan : Plan} {i p axis : Nat}
  {x : String} {n : Node} {u : Field} {edge : Nat → Nat}

/-! ### What such nodes are -/

/-- What a node that carries state does with the array of its parent. -/
inductive Carries (c : Resolution.Context) (v : ResolvedVariable) (plan : Plan) (i p : Nat) (x : String) : Prop
  | reduce (r : Reduction) (kernel : (plan.role i).kernel = some (.reduce r))
      (streamed : plan.streamed i = false) (dims : v.store.dims i = (v.store.dims p).without x)
      (node : ∀ u, (whole c v).node i [u] = reduced r x ((v.store.dims p).lens x) u)
  | scan (s : Scan) (kernel : (plan.role i).kernel = some (.scan s))
      (streamed : plan.streamed i = true) (dims : v.store.dims i = v.store.dims p)
      (node : ∀ u, (whole c v).node i [u] = some (scanned s x u))

theorem node_call {function : String} {options : CallOptions} {f : FunctionSpec}
    (hn : v.store.node? i = some n) (hk : n.kind = .call function options)
    (hf : c.functions.get? function (v.store.parents i).length = some f) (hp : v.store.parents i = [p]) (u : Field) :
    (whole c v).node i [u] = Whole.call f.kernel options (v.store.dims p) [u] := by
  have hkind : (whole c v).store.kind? i = some (.call function options) := hk ▸ kind_of_node hn
  have hparents : (whole c v).store.parents i = [p] := hp
  rw [hp] at hf
  simp only [Evaluator.node, hkind, hparents, List.headD_cons]
  rw [show (whole c v).functions.get? function [u].length = some f from hf]
  rfl

/-- A node that carries state is a reduction or a scan of one array along the dimension that is cut. -/
theorem carries (h : Prepared c d v plan) (hn : v.store.node? i = some n)
    (hc : (plan.role i).carried = some axis) :
    ∃ p x, v.store.parents i = [p] ∧ plan.dimension = some x ∧ x ∈ (v.store.dims p).names ∧
      axis = (v.store.dims p).names.idxOf x ∧ Carries c v plan i p x := by
  by_cases hk : ∀ function options, n.kind ≠ .call function options
  · rw [(h.planned.other hn hk).2.1] at hc
    cases hc
  simp only [not_forall, not_not] at hk
  obtain ⟨function, options, hk⟩ := hk
  obtain ⟨f, hf⟩ := h.calls hn hk
  obtain ⟨x, p, rest, hd, hp, hshape, hdim, hs, hpos⟩ :=
    Plan.carriedAxis_eq_some (hf.role.carried.symm.trans hc)
  rw [Plan.Planned.any_streamed] at hs
  have hx := (h.planned.streamed_along hdim).mp hs
  rw [position_of_mem hx, Option.some.injEq] at hpos
  have hregular := hf.regular
  have hkernel := hf.role.kernel
  have hcall := hf.shape
  have hnode := node_call (p := p) hn hk hf.role.found
  unfold Functions.Regular at hregular
  generalize f.kernel = kernel at hregular hkernel hcall hnode
  rw [hp] at hcall
  cases hcall with
  | unary he =>
    simp only [he, Option.isSome_none, Bool.false_eq_true, if_false] at hregular
    simp [hregular.2.1] at hshape
  | binary he =>
    simp only [he, Option.isSome_some, if_true] at hregular
    simp [hregular.2] at hshape
  | @reduce r _ y hy hmem hout =>
    cases hd.symm.trans hy
    refine ⟨p, x, hp, hdim, hx, hpos.symm, .reduce r hkernel ?_ hout fun u => ?_⟩
    · rw [Bool.eq_false_iff]
      intro hsi
      have hin := (h.planned.streamed_along hdim).mp hsi
      rw [hout, names_without (h.known p)] at hin
      exact (h.known p).nodup.not_mem_erase hin
    · simp only [hnode hp, Whole.call, hd]
  | @scan s _ y hy hmem hout =>
    cases hd.symm.trans hy
    refine ⟨p, x, hp, hdim, hx, hpos.symm, .scan s hkernel ?_ hout fun u => ?_⟩
    · rw [h.planned.streamed_along hdim, hout]
      exact hx
    · simp only [hnode hp, Whole.call, hd]

/-! ### What they know after some chunks -/

/-- The part of an array up to the next edge continues the part up to this one. -/
theorem edge_succ (he : Plan.Consecutive plan.chunks plan.domain edge) (n : Nat) :
    edge n + (edge (n + 1) - edge n) = edge (n + 1) := by
  have := he.mono n
  omega

variable {parts : Nat → Option (Grid Double)}

/-- What takes in the parts of an array one after the other knows as much as it knows of the array up to the edge. -/
theorem foldlM_parts (hx : plan.dimension = some x) (he : Plan.Consecutive plan.chunks plan.domain edge)
    (hparts : ∀ n < plan.chunks.length, parts n = some (partOf v plan (some n) p u)) {σ : Type} {f : σ → Grid Double → σ}
    {known : Nat → σ}
    (hstep : ∀ start count, f (known start) (part (some ⟨x, start, count⟩) (v.store.dims p) u) = known (start + count)) :
    ∀ n ≤ plan.chunks.length, (List.range n).foldlM (fun s k => (parts k).map (f s)) (known 0) = some (known (edge n)) := by
  intro n
  induction n with
  | zero =>
    intro _
    rw [he.start]
    rfl
  | succ n ih =>
    intro hn
    rw [Engine.foldlM_range_succ, ih (Nat.le_of_succ_le hn), hparts n hn, Option.bind_some, Option.map_some]
    unfold partOf
    rw [windowFor_chunk hx he hn, hstep, edge_succ he]

theorem fedTo_parts (h : Prepared c d v plan) (r : Reduction) (hx : plan.dimension = some x)
    (hp : x ∈ (v.store.dims p).names) (hu : Supported (v.store.dims p).names u)
    (he : Plan.Consecutive plan.chunks plan.domain edge)
    (hparts : ∀ n < plan.chunks.length, parts n = some (partOf v plan (some n) p u)) :
    ∀ n ≤ plan.chunks.length, Engine.fedTo r ((v.store.dims p).names.idxOf x) parts n =
      some (seenTo r (v.store.dims p) u x (edge n)) := by
  unfold Engine.fedTo
  rw [← seenTo_zero]
  exact foldlM_parts hx he hparts fun _ _ => feed_part r (h.known p) hp hu

theorem scannedTo_parts (h : Prepared c d v plan) (hx : plan.dimension = some x)
    (hp : x ∈ (v.store.dims p).names) (hu : Supported (v.store.dims p).names u)
    (he : Plan.Consecutive plan.chunks plan.domain edge) (s : Scan)
    (hparts : ∀ n < plan.chunks.length, parts n = some (partOf v plan (some n) p u)) :
    ∀ n ≤ plan.chunks.length, Engine.scannedTo ((v.store.dims p).names.idxOf x) parts n =
      some (Window.scannedTo (v.store.dims p) u x (edge n)) := by
  unfold Engine.scannedTo
  rw [← scannedTo_zero]
  exact foldlM_parts hx he hparts fun _ _ => congrArg Prod.snd (step_part s (h.known p) hp hu)

theorem fedTo_eq_none {r : Reduction} {k : Nat} (hk : 0 < k) (hparts : parts 0 = none) :
    Engine.fedTo r axis parts k = none := by
  induction k with
  | zero => cases hk
  | succ k ih =>
    rw [Engine.fedTo_succ]
    rcases Nat.eq_zero_or_pos k with rfl | hk
    · rw [hparts]
      rfl
    · rw [ih hk]
      rfl

/-! ### Their values -/

/-- A reduction that was fed with all parts of an array gives what it gives for the whole. -/
theorem reduced_parts (h : Prepared c d v plan) (r : Reduction) (hx : plan.dimension = some x)
    (hp : x ∈ (v.store.dims p).names) (hdims : v.store.dims i = (v.store.dims p).without x) {w : Option Field}
    (hw : ∀ u, w = some u → Supported (v.store.dims p).names u)
    (hparts : ∀ n < plan.chunks.length, parts n = w.map (partOf v plan (some n) p)) :
    ((Engine.fedTo r ((v.store.dims p).names.idxOf x) parts plan.chunks.length).bind fun a => a.finish.toOption) =
      (w.bind (reduced r x ((v.store.dims p).lens x))).map (partOf v plan none i) := by
  obtain ⟨edge, he⟩ := h.consecutive
  cases w with
  | none =>
    obtain ⟨length, hpos, hchunks⟩ := h.planned.chunks
    have hlen : 0 < plan.chunks.length := hchunks ▸ Plan.cut_pos _ hpos
    rw [fedTo_eq_none hlen (hparts 0 hlen)]
    rfl
  | some u =>
    have hu := hw u rfl
    rw [h.fedTo_parts r hx hp hu he hparts _ (Nat.le_refl _), he.stop, Option.bind_some, Option.bind_some,
      finish_seenTo r (h.known p) hu, h.lens_along hx hp]
    unfold partOf
    rw [hdims]
    cases reduced r x plan.domain u <;> rfl

/-- A scan gives for each chunk the part of what it gives for the whole. -/
theorem scanned_parts (h : Prepared c d v plan) (s : Scan) (hx : plan.dimension = some x)
    (hp : x ∈ (v.store.dims p).names) (hdims : v.store.dims i = v.store.dims p) {w : Option Field}
    (hw : ∀ u, w = some u → Supported (v.store.dims p).names u)
    (hparts : ∀ n < plan.chunks.length, parts n = w.map (partOf v plan (some n) p)) {n : Nat}
    (hn : n < plan.chunks.length) :
    ((Engine.scannedTo ((v.store.dims p).names.idxOf x) parts n).bind fun state =>
      (parts n).map fun g => (state.step g ((v.store.dims p).names.idxOf x)).1) =
      (w.bind fun u => some (scanned s x u)).map (partOf v plan (some n) i) := by
  obtain ⟨edge, he⟩ := h.consecutive
  cases w with
  | none =>
    rw [hparts n hn]
    cases Engine.scannedTo _ parts n <;> rfl
  | some u =>
    have hu := hw u rfl
    rw [h.scannedTo_parts hx hp hu he s hparts n (Nat.le_of_lt hn), hparts n hn, Option.bind_some,
      Option.bind_some, Option.map_some, Option.map_some, Option.map_some]
    unfold partOf
    rw [windowFor_chunk hx he hn, step_part s (h.known p) hp hu, hdims]

end Prepared
end Concord
