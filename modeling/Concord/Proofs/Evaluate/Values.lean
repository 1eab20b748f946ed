import Concord.Evaluate.Engine
import Concord.Proofs.Graph.Reachable
import Concord.Proofs.Outcome

/-! The value that each node has for each chunk, and as a whole where that does not depend on the chunk,
    told without the order of evaluation: no passes, no ledger, nothing that is kept between chunks. -/

namespace Concord

/-- The values of a node: as a whole, and for each chunk. -/
abbrev Keyed := Option Nat → Option (Grid Double)

namespace Engine

/-- Which value of a parent counts for a value of a node. -/
def keyFor (e : Engine) (key : Option Nat) (p : Nat) : Option Nat := if e.plan.streamed p then key else none

/-- The state of a reduction after some chunks. -/
def fedTo (r : Reduction) (axis : Nat) (parts : Nat → Option (Grid Double)) (n : Nat) : Option Accumulator :=
  (List.range n).foldlM (fun a c => (parts c).map fun g => a.feed g axis) (.start r)

/-- The state of a scan after some chunks. -/
def scannedTo (axis : Nat) (parts : Nat → Option (Grid Double)) (n : Nat) : Option ScanState :=
  (List.range n).foldlM (fun s c => (parts c).map fun g => (s.step g axis).2) none

/-- The values of a reduction along the dimension that is cut: it needs all chunks. -/
def reducedValue (e : Engine) (id : Nat) (parent : Keyed) : Option (Grid Double) :=
  match (e.plan.role id).carried, (e.plan.role id).kernel with
  | some axis, some (.reduce r) =>
    (fedTo r axis (fun c => parent (some c)) e.plan.chunks.length).bind fun a => a.finish.toOption
  | _, _ => none

/-- The value of a node for a chunk, whose parents have some values for each chunk. -/
def chunkValue (e : Engine) (id : Nat) (inputs : Nat → Option (List (Grid Double))) (c : Nat) :
    Option (Grid Double) :=
  match (e.plan.role id).carried, (e.plan.role id).kernel with
  | some axis, some (.scan _) => do
    let parts c := (inputs c).bind List.head?
    let state ← scannedTo axis parts c
    let g ← parts c
    some (state.step g axis).1
  | some _, _ => none
  | none, _ => (inputs c).bind fun gs => (e.evaluate id gs (some c)).outcome.toOption

/-- The values of a node, given those of its parents. -/
def nodeValues (e : Engine) (id : Nat) (parents : List Keyed) : Keyed := fun key =>
  let inputs key := ((e.store.parents id).zip parents).mapM fun p => p.2 (e.keyFor key p.1)
  match key with
  | some c => e.chunkValue id (fun c => inputs (some c)) c
  | none =>
    if e.plan.accumulates id then (parents.head?).bind (e.reducedValue id)
    else (inputs none).bind fun gs => (e.evaluate id gs none).outcome.toOption

/-- The value of a node. -/
def value (e : Engine) (id : Nat) : Keyed := e.store.valueAt e.nodeValues id

/-- The values that the parents of a node have for it. -/
def inputs (e : Engine) (id : Nat) (key : Option Nat) : Option (List (Grid Double)) :=
  (e.store.parents id).mapM fun p => e.value p (e.keyFor key p)

variable {e : Engine} {id : Nat}

theorem value_eq (hb : e.store.ParentsBelow) (id : Nat) (key : Option Nat) :
    e.value id key = match key with
      | some c => e.chunkValue id (fun c => e.inputs id (some c)) c
      | none =>
        if e.plan.accumulates id then ((e.store.parents id).head?).bind fun p => e.reducedValue id (e.value p)
        else (e.inputs id none).bind fun gs => (e.evaluate id gs none).outcome.toOption := by
  have hinputs : ∀ key, (((e.store.parents id).zip ((e.store.parents id).map e.value)).mapM fun p =>
      p.2 (e.keyFor key p.1)) = e.inputs id key := by
    intro key
    unfold inputs
    rw [← List.map_prod_left_eq_zip, List.mapM_map]
    rfl
  have hvalue : e.value id key = e.nodeValues id ((e.store.parents id).map e.value) key :=
    congrFun (NodeStore.valueAt_eq hb id) key
  rw [hvalue]
  unfold nodeValues
  cases key with
  | some c => exact congrArg (e.chunkValue id · c) (funext fun c => hinputs (some c))
  | none =>
    dsimp only
    rw [List.head?_map, Option.bind_map, hinputs none]
    rfl

/-! ### By the role of the node -/

theorem value_whole (hb : e.store.ParentsBelow) (ha : e.plan.accumulates id = false) :
    e.value id none = (e.inputs id none).bind fun gs => (e.evaluate id gs none).outcome.toOption := by
  rw [value_eq hb]
  dsimp only
  rw [ha, if_neg Bool.false_ne_true]

theorem value_reduced (hb : e.store.ParentsBelow) (ha : e.plan.accumulates id = true) {p : Nat} {rest : List Nat}
    (hp : e.store.parents id = p :: rest) : e.value id none = e.reducedValue id (e.value p) := by
  rw [value_eq hb]
  dsimp only
  rw [ha, if_pos rfl, hp]
  rfl

theorem value_chunk (hb : e.store.ParentsBelow) (c : Nat) :
    e.value id (some c) = e.chunkValue id (fun c => e.inputs id (some c)) c := value_eq hb id (some c)

theorem value_plain (hb : e.store.ParentsBelow) (hc : (e.plan.role id).carried = none) (c : Nat) :
    e.value id (some c) = (e.inputs id (some c)).bind fun gs => (e.evaluate id gs (some c)).outcome.toOption := by
  rw [value_chunk hb]
  unfold chunkValue
  rw [hc]

/-- What a scan is given for each chunk. -/
def scanParts (e : Engine) (id c : Nat) : Option (Grid Double) := (e.inputs id (some c)).bind List.head?

theorem value_scan (hb : e.store.ParentsBelow) {axis : Nat} {s : Scan} (hc : (e.plan.role id).carried = some axis)
    (hk : (e.plan.role id).kernel = some (.scan s)) (c : Nat) :
    e.value id (some c) = (scannedTo axis (e.scanParts id) c).bind fun state =>
      (e.scanParts id c).map fun g => (state.step g axis).1 := by
  rw [value_chunk hb]
  unfold chunkValue
  rw [hc, hk]
  show (scannedTo axis (e.scanParts id) c).bind _ = _
  congr 1
  funext state
  show (e.scanParts id c).bind _ = _
  cases e.scanParts id c <;> rfl

theorem value_carried (hb : e.store.ParentsBelow) {axis : Nat} (hc : (e.plan.role id).carried = some axis)
    (hk : ∀ s, (e.plan.role id).kernel ≠ some (.scan s)) (c : Nat) : e.value id (some c) = none := by
  rw [value_chunk hb]
  unfold chunkValue
  rw [hc]
  split
  · rename_i hk'
    exact absurd hk' (hk _)
  · rfl
  · rename_i h
    cases h

theorem foldlM_range_succ {σ : Type} (f : σ → Nat → Option σ) (s : σ) (n : Nat) :
    (List.range (n + 1)).foldlM f s = ((List.range n).foldlM f s).bind fun t => f t n := by
  rw [List.range_succ, List.foldlM_append]
  refine bind_congr fun t => ?_
  rw [List.foldlM_cons]
  exact bind_pure _

theorem fedTo_succ {r : Reduction} {axis : Nat} {parts : Nat → Option (Grid Double)} (n : Nat) :
    fedTo r axis parts (n + 1) = (fedTo r axis parts n).bind fun a => (parts n).map fun g => a.feed g axis :=
  foldlM_range_succ _ _ n

theorem scannedTo_succ {axis : Nat} {parts : Nat → Option (Grid Double)} (n : Nat) :
    scannedTo axis parts (n + 1) =
      (scannedTo axis parts n).bind fun s => (parts n).map fun g => (s.step g axis).2 :=
  foldlM_range_succ _ _ n

/-- Without a value of a parent there is none. -/
theorem inputs_eq_none {key : Option Nat} {p : Nat} (hp : p ∈ e.store.parents id)
    (h : e.value p (e.keyFor key p) = none) : e.inputs id key = none := mapM_eq_none hp h

theorem chunkValue_eq_none {inputs : Nat → Option (List (Grid Double))} {c : Nat} (h : inputs c = none) :
    e.chunkValue id inputs c = none := by
  unfold chunkValue
  split
  · dsimp only
    rw [h]
    cases scannedTo _ (fun c => (inputs c).bind List.head?) c <;> rfl
  · rfl
  · rw [h, Option.bind_none]

end Engine
end Concord
