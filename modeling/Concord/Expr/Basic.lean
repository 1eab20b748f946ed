import Concord.Decimal.Shortest

/-! Expressions of definitions, and their canonical text. -/

namespace Concord

/-- An expression. Operators are calls of functions named by their sign. -/
inductive Expr where
  | number (x : Double)
  | text (s : String)
  | operand (name : String)
  | call (name : String) (args : List Expr) (kwargs : List (String × Expr))

namespace Expr

/-- A call with positional arguments only. -/
def apply (name : String) (args : List Expr) : Expr := .call name args []

/-! ### Names -/

/-- Puts a name at the end of a list that does not hold it yet. -/
def note (names : List String) (name : String) : List String :=
  if name ∈ names then names else names ++ [name]

mutual

/-- The operand names of an expression after those already noted. -/
def notedIn (names : List String) : Expr → List String
  | .number _ => names
  | .text _ => names
  | .operand name => note names name
  | .call _ args kwargs => notedInKeywords (notedInArguments names args) kwargs

def notedInArguments (names : List String) : List Expr → List String
  | [] => names
  | e :: es => notedInArguments (notedIn names e) es

def notedInKeywords (names : List String) : List (String × Expr) → List String
  | [] => names
  | (_, e) :: rest => notedInKeywords (notedIn names e) rest

end

/-- The names that an expression refers to, each once, in the order of their first use. -/
def operandNames (e : Expr) : List String := notedIn [] e

mutual

/-- The number of levels of an expression. -/
def height : Expr → Nat
  | .call _ args kwargs => max (heightOfArguments args) (heightOfKeywords kwargs) + 1
  | _ => 1

def heightOfArguments : List Expr → Nat
  | [] => 0
  | e :: es => max (height e) (heightOfArguments es)

def heightOfKeywords : List (String × Expr) → Nat
  | [] => 0
  | (_, e) :: rest => max (height e) (heightOfKeywords rest)

end

/-! ### Canonical text -/

/-- The names that are written between or in front of their operands. -/
def isOperator (name : String) : Bool := ["+", "-", "*", "/", "^"].contains name

/-- The characters of a text between quotes, with a backslash before quotes and backslashes. -/
def escapeQuote (c : Char) : List Char :=
  if c = '\\' then ['\\', '\\'] else if c = '\'' then ['\\', '\''] else [c]

def quoted (s : String) : String := String.ofList ('\'' :: s.toList.flatMap escapeQuote ++ ['\''])

/-- A call of a function in its canonical form, given the texts of its arguments. -/
def callText (name : String) (args kwargs : List String) : String :=
  match isOperator name && kwargs.isEmpty, args with
  | true, [only] => "(" ++ name ++ only ++ ")"
  | true, [left, right] => "(" ++ left ++ " " ++ name ++ " " ++ right ++ ")"
  | _, _ => name ++ "(" ++ ", ".intercalate (args ++ kwargs) ++ ")"

mutual

/-- The canonical text of an expression: every operation in parentheses, texts in single quotes. -/
def canonical : Expr → String
  | .number x => Decimal.plain x
  | .text s => quoted s
  | .operand name => name
  | .call name args kwargs => callText name (canonicalArguments args) (canonicalKeywords kwargs)

def canonicalArguments : List Expr → List String
  | [] => []
  | e :: es => canonical e :: canonicalArguments es

def canonicalKeywords : List (String × Expr) → List String
  | [] => []
  | (k, e) :: rest => (k ++ "=" ++ canonical e) :: canonicalKeywords rest

end

end Expr
end Concord
