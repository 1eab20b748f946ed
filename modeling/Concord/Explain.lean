import Concord.Evaluate.Plan

/-! A resolved variable as an indented tree, the output first. A node that is used more than once is
    shown in full where it is met first; later uses refer to the level at which that was. With a
    plan, nodes are marked with the part they take in it. -/

namespace Concord.Explain

/-- A node in words. -/
def describe (v : ResolvedVariable) (id : Nat) : String :=
  match v.store.kind? id with
  | some (.literal x) => Decimal.plain x
  | some (.operand name) =>
    let renamed := (v.store.layout? id).map (·.dims)
    match v.native.get? name with
    | some native =>
      if some native = renamed then "input " ++ name
      else "input " ++ name ++ " read as " ++ Signature.text native
    | none => "input " ++ name
  | some (.call function options) =>
    if options.isEmpty then function
    else
      function ++ "(" ++ ", ".intercalate (options.map fun p => p.1 ++ "=" ++ p.2.display) ++ ")"
  | some (.convert source target) => "convert " ++ source ++ " -> " ++ target
  | some (.transpose p) => "transpose " ++ Text.numbers p.axes
  | none => ""

/-- The axes and unit of a node. -/
def layoutText (v : ResolvedVariable) (id : Nat) : String :=
  match v.store.layout? id with
  | some a => " " ++ Signature.text a.dims ++ " [" ++ a.unit ++ "]"
  | none => ""

/-- The part that a node takes in a plan. -/
def roleText (plan : Option Plan) (id : Nat) : String :=
  match plan with
  | none => ""
  | some p =>
    let tags := (if p.streamed id then ["streamed"] else []) ++
      if p.accumulates id then ["accumulates in pass " ++ toString ((p.role id).level - 1)] else []
    if tags.isEmpty then "" else " <" ++ ", ".intercalate tags ++ ">"

/-- The lines so far, and the level of each node that is shown in full. -/
structure Tree where
  lines : List String
  levels : List (Nat × Nat)

/-- What stands in front of a node, and of the nodes below it. -/
structure Margin where
  own : String
  below : String

/-- The margins of the nodes below a node: the last one ends its line. -/
def childMargins (m : Margin) (count : Nat) : List Margin :=
  (List.range count).map fun i =>
    if i + 1 = count then ⟨m.below ++ "\x60--", m.below ++ "   "⟩
    else ⟨m.below ++ "|--", m.below ++ "|  "⟩

/-- The line of a node that is shown in full. -/
def fullLine (v : ResolvedVariable) (plan : Option Plan) (level : Nat) (m : Margin) (id : Nat) :
    String :=
  m.own ++ "[L" ++ toString level ++ "] " ++ describe v id ++ layoutText v id ++ roleText plan id

/-- The line of a node that is shown in full at an earlier level. -/
def referenceLine (m : Margin) (first : Nat) : String :=
  m.own ++ "-> (Ref to L" ++ toString first ++ ")"

/-- Shows a node and what it depends on. Parents have smaller numbers, so the number of nodes bounds
    the depth. -/
def node (v : ResolvedVariable) (plan : Option Plan) : Nat → Nat → Margin → Tree → Nat → Tree
  | 0, _, _, t, _ => t
  | fuel + 1, level, m, t, id =>
    match t.levels.lookup id with
    | some first => { t with lines := t.lines ++ [referenceLine m first] }
    | none =>
      let parents := v.store.parents id
      (parents.zip (childMargins m parents.length)).foldl
        (fun t p => node v plan fuel (level + 1) p.2 t p.1)
        ⟨t.lines ++ [fullLine v plan level m id], (id, level) :: t.levels⟩

/-- How a plan cuts the variable. -/
def planLine (p : Plan) : String :=
  match p.dimension with
  | some d =>
    "chunked along '" ++ d ++ "': " ++ toString p.chunks.length ++ " chunk(s) of " ++
      toString p.chunkLength ++ ", " ++ toString p.passes ++ " pass(es)"
  | none => "not chunked"

def rule : String := "--------------------------------------------------"

/-- The lines above the tree. -/
def header (v : ResolvedVariable) (plan : Option Plan) : List String :=
  ["EXPLAIN '" ++ v.name ++ "' = " ++ v.expression.canonical] ++
    (plan.map planLine).toList ++ [rule]

/-- The tree of a variable. -/
def tree (v : ResolvedVariable) (plan : Option Plan) : Tree :=
  node v plan (v.store.count + 1) 1 ⟨"", ""⟩ ⟨[], []⟩ v.root

/-- The lines below the header: the tree, if there is a root. -/
def body (v : ResolvedVariable) (plan : Option Plan) : List String :=
  if v.root < v.store.count then (tree v plan).lines
  else ["Error: Invalid Node ID NodeId(" ++ toString v.root ++ ")"]

/-- The variable in lines. -/
def text (v : ResolvedVariable) (plan : Option Plan) : String :=
  String.join ((header v plan ++ body v plan).map (· ++ "\n"))

end Concord.Explain
