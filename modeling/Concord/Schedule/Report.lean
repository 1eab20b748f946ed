import Concord.Failure
import Concord.Json.Decode

/-! What has become of the variables of a run. -/

namespace Concord

inductive Status where
  | succeeded (chunks : Nat)
  | failed (kind message : String)
  | skipped (reason : String)
  deriving DecidableEq

def Status.isFailure : Status → Bool
  | failed _ _ => true
  | _ => false

/-- A failure as a status. -/
def Status.ofFailure (f : Failure) : Status := .failed f.kind f.message

/-- The status of each variable. The first one that is recorded stays. -/
abbrev Report := NameMap Status

namespace Report

/-- Records a status, unless the variable has one. -/
def record (r : Report) (name : String) (s : Status) : Report := r.insertNew name s

def hasFailures (r : Report) : Bool := r.values.any Status.isFailure

/-- One if a variable failed. -/
def exitCode (r : Report) : Nat := if r.hasFailures then 1 else 0

/-- How many variables succeeded, failed and were skipped. -/
def counts (r : Report) : Nat × Nat × Nat :=
  r.values.foldl (fun (s, f, k) status =>
    match status with
    | .succeeded _ => (s + 1, f, k)
    | .failed _ _ => (s, f + 1, k)
    | .skipped _ => (s, f, k + 1)) (0, 0, 0)

/-- The kind of failure of a variable. -/
def failureKind (r : Report) (name : String) : Option String :=
  match r.get? name with
  | some (.failed kind _) => some kind
  | _ => none

/-! ### Documents -/

def statusJson : Status → Json
  | .succeeded chunks => .object [("status", .text "succeeded"), ("chunks", .nat chunks)]
  | .failed kind message =>
    .object [("status", .text "failed"), ("kind", .text kind), ("message", .text message)]
  | .skipped reason => .object [("status", .text "skipped"), ("reason", .text reason)]

def toJson (r : Report) : Json := .object [("variables", Json.ofMap (r.map fun _ => statusJson))]

open Json.Tree

/-- The status of a given name, from its further fields. -/
def statusOf (name : String) (fields : Json.Tree) : Option Status := do
  match name with
  | "succeeded" =>
    match ← record? ["chunks"] fields with
    | [chunks] => some (.succeeded (← required word? chunks))
    | _ => none
  | "failed" =>
    match ← record? ["kind", "message"] fields with
    | [kind, message] => some (.failed (← required text? kind) (← required text? message))
    | _ => none
  | "skipped" =>
    match ← record? ["reason"] fields with
    | [reason] => some (.skipped (← required text? reason))
    | _ => none
  | _ => none

/-- The status that a tree is: an object whose member `status` has its name, or a list that starts
    with the name. All of the tree has to be sound. -/
def status? (t : Json.Tree) : Option Status := do
  discard (Json.ofTree (Json.depthLimit - 2) t)
  match t with
  | .object members =>
    match named "status" members with
    | [.text (some name)] => statusOf name (.object (members.filter fun m => m.1 ≠ some "status"))
    | _ => none
  | .list (.text (some name) :: fields) => statusOf name (.list fields)
  | _ => none

/-- The report of a document. -/
def read (s : String) : Option Report := do
  match ← record? ["variables"] (← Json.Tree.read? s) with
  | [inner] => required (map? status?) inner
  | _ => none

end Report
end Concord
