import Concord.Evaluate.Engine
import Concord.Proofs.Graph.Reachable
import Concord.Proofs.Grid.Place
import Concord.Proofs.Resolve.Shapes

/-! What a resolved variable stands for: each node is evaluated once, as a function of the places of
    named axes. Inputs are read as a whole, functions of single elements work place by place, reductions
    are left folds along their axis, and scans are folds up to the place. -/

namespace Concord

/-- The left fold of a column from its first element on; of no column 0, which no caller asks for. -/
def fold₁ (f : Double → Double → Double) : List Double → Double
  | [] => 0
  | x :: xs => xs.foldl f x

/-- The result of a reduction for a column. -/
def Reduction.ofColumn (r : Reduction) (column : List Double) : Double :=
  match r with
  | .sum => fold₁ (· + ·) column
  | .mean => fold₁ (· + ·) column / Double.ofNat column.length
  | .min => fold₁ minNaN column
  | .max => fold₁ maxNaN column
  | .median => medianOf column

/-- The results of a scan for a column that ends with the place asked for. -/
def Scan.ofColumn (s : Scan) (column : List Double) : Double :=
  match s with
  | .cumulativeSum => fold₁ (· + ·) column

/-- The function of one element that an elementwise function is under some options. -/
def Elementwise.single? (e : Elementwise) (options : CallOptions) : Option (Double → Double) :=
  match e with
  | .power => (options.number? "exponent").map fun y x => x.pow y
  | e => some e.unary

namespace Whole

/-- An element for each place. -/
abbrev Field := Place → Double

/-- The elements along an axis at a place. -/
def column (v : Field) (p : Place) (d : String) (n : Nat) : List Double :=
  (List.range n).map fun i => v (p.at d i)

/-- The value of an elementwise function. -/
def pointwise (e : Elementwise) (options : CallOptions) : List Field → Option Field
  | [a] => (e.single? options).map fun f p => f (a p)
  | [a, b] => e.binary?.map fun f p => f (a p) (b p)
  | _ => none

/-- The value of a reduction along an axis of some length; none for an empty axis. -/
def reduced (r : Reduction) (d : String) (length : Nat) (v : Field) : Option Field :=
  if length = 0 then none else some fun p => r.ofColumn (column v p d length)

def scanned (s : Scan) (d : String) (v : Field) : Field := fun p => s.ofColumn (column v p d (p d + 1))

/-- The value of a call, whose first array has some axes. -/
def call (kernel : Kernel) (options : CallOptions) (first : Signature) (inputs : List Field) :
    Option Field :=
  match kernel, inputs, options.text? "dim" with
  | .map e, inputs, _ => pointwise e options inputs
  | .reduce r, [v], some d => reduced r d (first.lens d) v
  | .scan s, [v], some d => some (scanned s d v)
  | _, _, _ => none

/-- What evaluates a graph as a whole. -/
structure Evaluator where
  store : NodeStore
  functions : Functions
  source : Source
  converter : Measure.Converter

namespace Evaluator

/-- The value of a node, given those of its parents. -/
def node (w : Evaluator) (id : Nat) (inputs : List Field) : Option Field :=
  match w.store.kind? id, inputs with
  | some (.literal x), _ => some fun _ => x
  | some (.operand name), _ => (w.source.fetch name none).toOption.map (Grid.read (w.store.dims id).names)
  | some (.convert source target), [v] => (w.converter.conversion source target).map fun f p => f (v p)
  | some (.transpose _), [v] => some v
  | some (.call function options), inputs =>
    (w.functions.get? function inputs.length).bind fun f =>
      call f.kernel options (w.store.dims ((w.store.parents id).headD 0)) inputs
  | _, _ => none

/-- The value of a node; none if it or a node that it depends on has none. -/
def value (w : Evaluator) (id : Nat) : Option Field :=
  w.store.valueAt (fun id inputs => (inputs.mapM fun v => v).bind (w.node id)) id

/-- The values of all nodes, if each of them has one. -/
def values? (w : Evaluator) : Option (List Field) := (List.range w.store.count).mapM w.value

/-- The value of a node as an array. -/
def array (w : Evaluator) (id : Nat) (v : Field) : Grid Double :=
  Grid.tabulate (w.store.dims id).lens (w.store.dims id).names v

end Evaluator
end Whole
end Concord

/-! Reductions and scans lane by lane. What either knows after some lanes is the fold of these lanes at
    each place, however the lanes came in parts. -/

namespace Concord

open Grid Whole

variable {names : List String} {lens : String → Nat} {f : Double → Double → Double} {fs gs : List Field}
  {g : Field}

/-! ### Folds of lanes -/

theorem zipInto_tabulate (f : Double → Double → Double) (a b : Field) :
    zipInto f (tabulate lens names a) (tabulate lens names b) = tabulate lens names fun p => f (a p) (b p) := by
  have hshape : (tabulate lens names a).shape = (tabulate lens names b).shape := rfl
  unfold zipInto
  rw [dif_pos hshape]
  exact zipWith_tabulate f hshape

theorem fold₁_concat (x : Double) : ∀ {xs : List Double}, xs ≠ [] → fold₁ f (xs ++ [x]) = f (fold₁ f xs) x
  | [], h => absurd rfl h
  | _ :: _, _ => by rw [fold₁, List.cons_append, fold₁, List.foldl_append, List.foldl_cons, List.foldl_nil]

/-- The lanes seen so far, folded at each place. -/
def folded (f : Double → Double → Double) (lens : String → Nat) (names : List String) :
    List Field → Option (Grid Double)
  | [] => none
  | fs => some (tabulate lens names fun p => fold₁ f (fs.map fun v => v p))

theorem folded_of_ne (h : fs ≠ []) :
    folded f lens names fs = some (tabulate lens names fun p => fold₁ f (fs.map fun v => v p)) := by
  cases fs with
  | nil => exact absurd rfl h
  | cons v fs => rfl

theorem foldLane_folded :
    foldLane f (folded f lens names fs) (tabulate lens names g) = folded f lens names (fs ++ [g]) := by
  rw [folded_of_ne (List.concat_ne_nil g fs)]
  cases fs with
  | nil => rfl
  | cons v fs =>
    have hne : ∀ p, (v :: fs).map (fun v => v p) ≠ [] := fun p h => by cases h
    rw [folded_of_ne (List.cons_ne_nil v fs), foldLane, zipInto_tabulate]
    refine congrArg some (congrArg (tabulate lens names) (funext fun p => ?_))
    rw [List.map_append, List.map_singleton, fold₁_concat _ (hne p)]

/-! ### Reductions -/

namespace Accumulator

/-- A reduction that has seen some lanes. -/
def seen (r : Reduction) (lens : String → Nat) (names : List String) (fs : List Field) : Accumulator :=
  match r with
  | .sum => folding (· + ·) (folded (· + ·) lens names fs)
  | .mean => averaging (folded (· + ·) lens names fs) fs.length
  | .min => folding minNaN (folded minNaN lens names fs)
  | .max => folding maxNaN (folded maxNaN lens names fs)
  | .median => collecting (fs.map (tabulate lens names))

theorem seen_nil (r : Reduction) : seen r lens names [] = start r := by cases r <;> rfl

theorem push_seen (r : Reduction) :
    push (seen r lens names fs) (tabulate lens names g) = seen r lens names (fs ++ [g]) := by
  cases r <;> simp only [seen, push, foldLane_folded, List.length_append, List.length_singleton,
    List.map_append, List.map_singleton]

theorem foldl_push_seen (r : Reduction) : ∀ fs gs : List Field,
    (gs.map (tabulate lens names)).foldl push (seen r lens names fs) = seen r lens names (fs ++ gs)
  | fs, [] => by rw [List.append_nil]; rfl
  | fs, g :: gs => by
    rw [List.map_cons, List.foldl_cons, push_seen, foldl_push_seen r _ gs, List.append_assoc]
    rfl

theorem medians_tabulate (hn : names.Nodup) (hfs : ∀ v ∈ fs, Supported names v) (hne : fs ≠ []) :
    medians (fs.map (tabulate lens names)) =
      some (tabulate lens names fun p => medianOf (fs.map fun v => v p)) := by
  obtain ⟨v, fs, rfl⟩ := List.exists_cons_of_ne_nil hne
  unfold medians
  rw [List.map_cons, List.head?_cons, Option.map_some, ← List.map_cons (f := tabulate lens names)]
  refine congrArg some (ofFn_eq_tabulate hn rfl fun p hp => ?_)
  rw [List.map_map]
  refine congrArg medianOf (List.map_congr_left fun w hw => ?_)
  exact get_tabulate (hfs w hw) hp

/-- The result for some lanes is that for the column at each place. -/
theorem finish_seen (r : Reduction) (hn : names.Nodup) (hfs : ∀ v ∈ fs, Supported names v) :
    (seen r lens names fs).finish =
      if fs = [] then .error emptyMessage
      else .ok (tabulate lens names fun p => r.ofColumn (fs.map fun v => v p)) := by
  unfold finish
  by_cases h : fs = []
  · rw [if_pos h, h, seen_nil]
    cases r <;> rfl
  · rw [if_neg h]
    cases r with
    | sum | min | max =>
      rw [seen, result?, folded_of_ne h]
      rfl
    | mean =>
      rw [seen, result?, folded_of_ne h, Option.map_some]
      dsimp only
      rw [map_tabulate]
      simp only [Reduction.ofColumn, List.length_map]
    | median =>
      rw [seen, result?, medians_tabulate hn hfs h]
      rfl

end Accumulator

/-! ### Scans -/

namespace ScanState

theorem overLanes_cons {s : ScanState} {lane next : Grid Double} {lanes : List (Grid Double)}
    (h : foldLane (· + ·) s lane = some next) :
    overLanes s (lane :: lanes) =
      (next :: (overLanes (some next) lanes).1, (overLanes (some next) lanes).2) := by
  cases s <;> cases h <;> rfl

/-- A scan gives the folds of the lanes so far. -/
theorem overLanes_folded : ∀ fs gs : List Field,
    overLanes (folded (· + ·) lens names fs) (gs.map (tabulate lens names)) =
      ((List.range gs.length).map fun i => tabulate lens names fun p =>
        fold₁ (· + ·) ((fs ++ gs.take (i + 1)).map fun v => v p), folded (· + ·) lens names (fs ++ gs))
  | fs, [] => by
    rw [List.append_nil]
    rfl
  | fs, g :: gs => by
    have hnext : foldLane (· + ·) (folded (· + ·) lens names fs) (tabulate lens names g) =
        some (tabulate lens names fun p => fold₁ (· + ·) ((fs ++ [g]).map fun v => v p)) :=
      foldLane_folded.trans (folded_of_ne (List.concat_ne_nil g fs))
    rw [List.map_cons, overLanes_cons hnext, ← folded_of_ne (List.concat_ne_nil g fs),
      overLanes_folded (fs ++ [g]) gs, List.length_cons, List.range_succ_eq_map, List.map_cons, List.map_map,
      List.append_assoc]
    dsimp only
    congr 2
    refine List.map_congr_left fun i _ => ?_
    rw [Function.comp_apply, List.take_succ_cons, List.append_assoc]
    rfl

end ScanState
end Concord
