import Concord.Failure
import Concord.Grid
import Concord.Json.Decode
import Concord.Signature

/-! Inputs: named arrays with named axes and a unit. A reader sees a source, which tells what an
    input is and hands out arrays, whole or cut along one axis. -/

namespace Concord

abbrev Attributes := NameMap Json

/-- What is known of an input without reading it. -/
structure InputMetadata where
  dims : Signature
  unit : String
  attributes : Attributes

/-- The places from `start` up to `stop` along an axis. -/
structure Bounds where
  dimension : String
  start : Nat
  stop : Nat
  deriving DecidableEq

/-- Where inputs come from. Reading twice gives the same twice. -/
structure Source where
  describe : String → Option InputMetadata
  fetch : String → Option Bounds → Except SourceError (Grid Double)

/-- An input that is held as an array. -/
structure InputVariable where
  metadata : InputMetadata
  data : Grid Double

/-- The inputs held as arrays. -/
abbrev Dataset := NameMap InputVariable

namespace Dataset

/-- The part of an array within bounds. Bounds along an axis that it does not have leave it
    whole. -/
def cut (name : String) (v : InputVariable) (b : Bounds) : Except SourceError (Grid Double) :=
  match v.metadata.dims.position b.dimension with
  | none => .ok v.data
  | some axis =>
    let length := v.data.length axis
    if b.stop < b.start ∨ length < b.stop then
      .error ⟨name, "slice " ++ toString b.start ++ ".." ++ toString b.stop ++
        " out of range for '" ++ b.dimension ++ "' of length " ++ toString length⟩
    else .ok (v.data.slice axis b.start (b.stop - b.start))

def fetch (d : Dataset) (name : String) (bounds : Option Bounds) :
    Except SourceError (Grid Double) :=
  match d.get? name, bounds with
  | none, _ => .error ⟨name, "no such variable"⟩
  | some v, none => .ok v.data
  | some v, some b => cut name v b

def source (d : Dataset) : Source where
  describe name := (d.get? name).map (·.metadata)
  fetch := d.fetch

/-! ### From documents -/

/-- An input as a document gives it. -/
structure Entry where
  dimensions : List String
  units : String
  values : List Double
  shape : Option (List Nat)
  attributes : Attributes

open Json.Tree in
def entry? (t : Json.Tree) : Option Entry := do
  match ← record? ["dimensions", "units", "values", "shape", "attributes"] t with
  | [dimensions, units, values, shape, attributes] =>
    some
      { dimensions := ← required (list? text?) dimensions
        units := ← required text? units
        values := ← required (list? double?) values
        shape := ← defaulted (option? (list? word?)) none shape
        attributes := ← defaulted (attributes? 4) .empty attributes }
  | _ => none

/-- The input that an entry stands for. Without a shape it has one axis. -/
def ofEntry (name : String) (e : Entry) : Except SourceError InputVariable :=
  let shape := e.shape.getD [e.values.length]
  if shape.length ≠ e.dimensions.length then
    .error ⟨name, toString e.dimensions.length ++ " dimensions but shape " ++ Text.numbers shape⟩
  else
    match Grid.ofList shape e.values with
    | .error f => .error ⟨name, f.message⟩
    | .ok data =>
      .ok ⟨⟨e.dimensions.zipWith (fun n l => ⟨n, some l⟩) shape, e.units, e.attributes⟩, data⟩

/-- Why a document is no dataset. -/
inductive Fault where
  /-- It has not the form of one. -/
  | form
  /-- The array of an input does not fit its axes. -/
  | source (e : SourceError)

def ofEntries (d : Dataset) : List (String × Entry) → Except SourceError Dataset
  | [] => .ok d
  | (name, e) :: rest => do ofEntries (d.insert name (← ofEntry name e)) rest

/-- The dataset of a document: an object whose member `variables` has the inputs under their
    names. -/
def read (s : String) : Except Fault Dataset :=
  let entries := do
    match ← Json.Tree.record? ["variables"] (← Json.Tree.read? s) with
    | [inner] => Json.Tree.required (Json.Tree.map? entry?) inner
    | _ => none
  match entries with
  | none => .error .form
  | some m =>
    match ofEntries .empty m.entries with
    | .ok d => .ok d
    | .error e => .error (.source e)

end Dataset
end Concord
