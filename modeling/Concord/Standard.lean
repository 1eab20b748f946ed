import Concord.Dataset

/-! The standard: the layout that each output variable has to have. -/

namespace Concord

/-- The layout of an output variable: its dimensions in order, its unit, and attributes. -/
structure Target where
  dimensions : List String
  units : String
  attributes : Attributes

/-- The number of an attribute. -/
def Target.number? (t : Target) (key : String) : Option Double :=
  match t.attributes.get? key with
  | some (.number n) => some n.toDouble
  | _ => none

/-- The dimensions as axes of unknown length. -/
def Target.signature (t : Target) : Signature := t.dimensions.map fun n => ⟨n, none⟩

/-- The layouts of the output variables. -/
abbrev Standard := NameMap Target

namespace Standard

open Json.Tree

def target? (t : Json.Tree) : Option Target := do
  match ← record? ["dimensions", "units", "attributes"] t with
  | [dimensions, units, attributes] =>
    some
      { dimensions := ← required (list? text?) dimensions
        units := ← required text? units
        attributes := ← defaulted (attributes? 0) .empty attributes }
  | _ => none

/-- The standard that a value is: an object of layouts, bare or as the member `variables`. -/
def ofJson (v : Json) : Option Standard :=
  match v.get? "variables" with
  | some _ => do
    match ← record? ["variables"] v.toTree with
    | [inner] => required (map? target?) inner
    | _ => none
  | none => map? target? v.toTree

/-- The standard of a document. Of members of one name the last counts. -/
def read (s : String) : Option Standard := (Json.read? s).bind ofJson

end Standard
end Concord
