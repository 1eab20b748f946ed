import Concord.Json.Decode
import Concord.Text.Class

/-! The definitions of output variables: names and the texts of their expressions, one `name =
    expression` a line. Blank lines and comments are skipped; the text of an expression is kept as
    it stands. -/

namespace Concord

/-- Expression texts under the names of the variables they define. -/
abbrev Definitions := NameMap String

namespace Definitions

/-- What can be wrong with a text of definitions. Lines count from one. -/
inductive Fault where
  | missingAssignment (line : Nat)
  | invalidName (line : Nat) (name : String)
  | duplicate (line : Nat) (name : String) (first : Nat)
  deriving DecidableEq

/-- The fault in words. -/
def Fault.message : Fault → String
  | missingAssignment line => "line " ++ toString line ++ ": expected 'name = expression'"
  | invalidName line name => "line " ++ toString line ++ ": invalid variable name '" ++ name ++ "'"
  | duplicate line name first =>
    "line " ++ toString line ++ ": '" ++ name ++ "' is already defined on line " ++ toString first

/-- A name that can be defined. -/
def isName : List Char → Bool
  | [] => false
  | c :: cs => Text.startsName c && cs.all Text.continuesName

/-! ### Comments -/

/-- Where a reader of a line is: outside quotes, inside them, or behind a backslash inside them. -/
inductive Scan where
  | outside
  | inside (quote : Char)
  | escaped (quote : Char)
  deriving DecidableEq

/-- Where the reader is after a character. -/
def Scan.step (s : Scan) (c : Char) : Scan :=
  match s with
  | outside => if c = '\'' ∨ c = '"' then inside c else outside
  | inside q => if c = '\\' then escaped q else if c = q then outside else inside q
  | escaped q => inside q

/-- The line up to a hash sign outside quotes. -/
def withoutComment (s : Scan) : List Char → List Char
  | [] => []
  | c :: cs => if s = .outside ∧ c = '#' then [] else c :: withoutComment (s.step c) cs

/-! ### Lines -/

/-- What a line says: nothing, or a definition. -/
def readLine (line : Nat) (cs : List Char) : Except Fault (Option (String × String)) :=
  let content := Text.trim (withoutComment .outside cs)
  if content.isEmpty then .ok none
  else
    match Text.splitFirst '=' content with
    | none => .error (.missingAssignment line)
    | some (left, right) =>
      let name := Text.trim left
      if isName name then .ok (some (String.ofList name, String.ofList (Text.trim right)))
      else .error (.invalidName line (String.ofList name))

/-- What is read so far: the definitions, and the line of each. -/
structure Progress where
  definitions : Definitions
  lines : NameMap Nat

/-- Reads the lines from number `line` on. -/
def readLines (p : Progress) (line : Nat) : List (List Char) → Except Fault Definitions
  | [] => .ok p.definitions
  | cs :: rest => do
    match ← readLine line cs with
    | none => readLines p (line + 1) rest
    | some (name, text) =>
      match p.lines.get? name with
      | some first => .error (.duplicate line name first)
      | none =>
        readLines ⟨p.definitions.insert name text, p.lines.insert name line⟩ (line + 1) rest

/-- The definitions of a text. -/
def readText (s : String) : Except Fault Definitions :=
  readLines ⟨.empty, .empty⟩ 1 (Text.split (· == '\n') s.toList)

/-- The definitions of an object of texts. -/
def readObject (s : String) : Option Definitions :=
  (Json.Tree.read? s).bind (Json.Tree.map? Json.Tree.text?)

end Definitions
end Concord
