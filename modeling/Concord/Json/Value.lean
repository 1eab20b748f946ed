import Concord.Json.Tree
import Concord.NameMap

/-! Values of documents, and their text. -/

namespace Concord

/-- A value: members of an object are kept in the order in which they are to be written. -/
inductive Json where
  | null
  | bool (b : Bool)
  | number (n : Json.Number)
  | text (s : String)
  | list (items : List Json)
  | object (members : List (String × Json))

namespace Json

def nat (n : Nat) : Json := .number (.natural n)

def option (f : α → Json) : Option α → Json
  | none => .null
  | some a => f a

/-- An object with the members in the order of their names. -/
def ofMap (m : NameMap Json) : Json := .object m.entries

def texts (l : List String) : Json := .list (l.map .text)

/-! ### From trees -/

/-- How deep lists and objects may be nested in a document whose values are taken. -/
def depthLimit : Nat := 127

mutual

/-- The value of a tree, its lists and objects nested at most `room` deep. Of members of one name
    the last stays, and members are sorted. -/
def ofTree : Nat → Tree → Option Json
  | _, .null => some .null
  | _, .bool b => some (.bool b)
  | _, .number n => n.map .number
  | _, .text s => s.map .text
  | 0, .list _ => none
  | 0, .object _ => none
  | room + 1, .list items => (ofTrees room items).map .list
  | room + 1, .object members => (ofMembers room members).map fun l => ofMap (NameMap.ofList l)

def ofTrees : Nat → List Tree → Option (List Json)
  | _, [] => some []
  | room, t :: ts => do some ((← ofTree room t) :: (← ofTrees room ts))

def ofMembers : Nat → List (Option String × Tree) → Option (List (String × Json))
  | _, [] => some []
  | room, (k, t) :: rest => do some ((← k, ← ofTree room t) :: (← ofMembers room rest))

end

/-- The value that a whole text is. -/
def read? (s : String) : Option Json := (Tree.read? s).bind (ofTree depthLimit)

mutual

/-- A value as a tree. -/
def toTree : Json → Tree
  | .null => .null
  | .bool b => .bool b
  | .number n => .number (some n)
  | .text s => .text (some s)
  | .list items => .list (toTrees items)
  | .object members => .object (memberTrees members)

def toTrees : List Json → List Tree
  | [] => []
  | v :: vs => toTree v :: toTrees vs

def memberTrees : List (String × Json) → List (Option String × Tree)
  | [] => []
  | (k, v) :: rest => (some k, toTree v) :: memberTrees rest

end

/-- The value of a member of an object. -/
def get? (v : Json) (name : String) : Option Json :=
  match v with
  | .object members => NameMap.find name members
  | _ => none

/-! ### Printing -/

/-- A character inside the quotes of a text. -/
def escapeChar (c : Char) : List Char :=
  if c = '"' then ['\\', '"']
  else if c = '\\' then ['\\', '\\']
  else if c = '\x08' then ['\\', 'b']
  else if c = '\x0c' then ['\\', 'f']
  else if c = '\n' then ['\\', 'n']
  else if c = '\r' then ['\\', 'r']
  else if c = '\t' then ['\\', 't']
  else if c.toNat < 32 then
    ['\\', 'u', '0', '0', if c.toNat < 16 then '0' else '1', Nat.digitChar (c.toNat % 16)]
  else [c]

/-- A text in quotes. -/
def quoted (s : String) : String :=
  String.ofList ('"' :: s.toList.flatMap escapeChar ++ ['"'])

mutual

/-- The value on one line, without blanks. -/
def compact : Json → String
  | .null => "null"
  | .bool b => if b then "true" else "false"
  | .number n => n.text
  | .text s => quoted s
  | .list items => "[" ++ ",".intercalate (compactItems items) ++ "]"
  | .object members => "\x7b" ++ ",".intercalate (compactMembers members) ++ "\x7d"

def compactItems : List Json → List String
  | [] => []
  | v :: vs => compact v :: compactItems vs

def compactMembers : List (String × Json) → List String
  | [] => []
  | (k, v) :: rest => (quoted k ++ ":" ++ compact v) :: compactMembers rest

end

/-- Items between two brackets, each on a line of its own below the margin. -/
def onLines (margin : String) (opening closing : String) (items : List String) : String :=
  if items.isEmpty then opening ++ closing
  else
    opening ++ "\n" ++ ",\n".intercalate (items.map fun i => margin ++ "  " ++ i) ++ "\n" ++
      margin ++ closing

mutual

/-- The value over several lines, each level two blanks further in. -/
def pretty (margin : String) : Json → String
  | .null => "null"
  | .bool b => if b then "true" else "false"
  | .number n => n.text
  | .text s => quoted s
  | .list items => onLines margin "[" "]" (prettyItems (margin ++ "  ") items)
  | .object members => onLines margin "\x7b" "\x7d" (prettyMembers (margin ++ "  ") members)

def prettyItems (margin : String) : List Json → List String
  | [] => []
  | v :: vs => pretty margin v :: prettyItems margin vs

def prettyMembers (margin : String) : List (String × Json) → List String
  | [] => []
  | (k, v) :: rest => (quoted k ++ ": " ++ pretty margin v) :: prettyMembers margin rest

end

end Json
end Concord
