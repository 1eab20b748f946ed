import Concord.Json.Value

/-! Taking typed data from documents. What is asked for has to be there in the right form; what is
    not asked for is skipped. `none` stands for a document that does not fit. -/

namespace Concord.Json.Tree

def bool? : Tree → Option Bool
  | .bool b => some b
  | _ => none

def text? : Tree → Option String
  | .text s => s
  | _ => none

/-- A whole number up to a limit. -/
def nat? (limit : Nat) : Tree → Option Nat
  | .number (some (.natural n)) => if n ≤ limit then some n else none
  | _ => none

/-- A whole number that fits a 64-bit word. -/
def word? : Tree → Option Nat := nat? (2 ^ 64 - 1)

def double? : Tree → Option Double
  | .number (some n) => some n.toDouble
  | _ => none

/-- A value that may be `null`. -/
def option? (f : Tree → Option α) : Tree → Option (Option α)
  | .null => some none
  | t => (f t).map some

def list? (f : Tree → Option α) : Tree → Option (List α)
  | .list items => items.mapM f
  | _ => none

def member? (f : Tree → Option α) (m : Option String × Tree) : Option (String × α) := do
  some (← m.1, ← f m.2)

/-- An object as a map; of members of one name the last stays. -/
def map? (f : Tree → Option α) : Tree → Option (NameMap α)
  | .object members => (members.mapM (member? f)).map NameMap.ofList
  | _ => none

/-- The members of a given name. -/
def named (name : String) (members : List (Option String × Tree)) : List Tree :=
  members.filterMap fun m => if m.1 = some name then some m.2 else none

/-- The field of a name: absent, present, or (`none`) repeated. -/
def single? (l : List Tree) : Option (Option Tree) :=
  match l with
  | [] => some none
  | [t] => some (some t)
  | _ => none

/-- The fields of a record: an object, whose other members are skipped, or a list of the fields in
    their order, the last ones of which may be missing. -/
def record? (names : List String) : Tree → Option (List (Option Tree))
  | .object members =>
    if members.all (·.1.isSome) then names.mapM fun n => single? (named n members) else none
  | .list items =>
    if items.length ≤ names.length then
      some (items.map some ++ List.replicate (names.length - items.length) none)
    else none
  | _ => none

/-- A field that has to be there. -/
def required (f : Tree → Option α) (t : Option Tree) : Option α := t.bind f

/-- A field with a default. -/
def defaulted (f : Tree → Option α) (d : α) : Option Tree → Option α
  | none => some d
  | some t => f t

/-- A map of values inside `levels` further lists or objects. -/
def attributes? (levels : Nat) : Tree → Option (NameMap Json) :=
  map? (Json.ofTree (depthLimit - levels))

end Concord.Json.Tree
