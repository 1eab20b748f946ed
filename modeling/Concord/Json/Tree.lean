import Concord.Json.Number

/-! Documents as they are written. A tree keeps the order and the repetitions of members, and marks
    the numbers and texts that have the right form but no value, so that a reader who skips a part
    of a document does not stumble over what is in it. -/

namespace Concord.Json

/-- A document as written. A number without a value is too large; a text without one has an escape
    that is half of a surrogate pair. -/
inductive Tree where
  | null
  | bool (b : Bool)
  | number (n : Option Number)
  | text (s : Option String)
  | list (items : List Tree)
  | object (members : List (Option String × Tree))

/-! ### Texts -/

/-- One element of a text between quotes: a character, or a code unit given by number. -/
inductive Mark where
  | char (c : Char)
  | unit (n : Nat)

def hexValue (c : Char) : Option Nat :=
  if c.isDigit then some (c.toNat - 48)
  else if 'a' ≤ c ∧ c ≤ 'f' then some (c.toNat - 87)
  else if 'A' ≤ c ∧ c ≤ 'F' then some (c.toNat - 55)
  else none

def hexUnit (a b c d : Char) : Option Nat := do
  some (((← hexValue a) * 16 + (← hexValue b)) * 256 + ((← hexValue c) * 16 + (← hexValue d)))

/-- The character that an escape of one letter stands for. -/
def escapeLetter (c : Char) : Option Char :=
  match c with
  | '"' => some '"'
  | '\\' => some '\\'
  | '/' => some '/'
  | 'b' => some '\x08'
  | 'f' => some '\x0c'
  | 'n' => some '\n'
  | 'r' => some '\r'
  | 't' => some '\t'
  | _ => none

/-- The marks up to the closing quote, latest first, and what follows it. -/
def readMarks : List Mark → List Char → Option (List Mark × List Char)
  | _, [] => none
  | acc, '"' :: rest => some (acc, rest)
  | acc, '\\' :: 'u' :: a :: b :: c :: d :: rest =>
    match hexUnit a b c d with
    | some n => readMarks (.unit n :: acc) rest
    | none => none
  | acc, '\\' :: c :: rest =>
    match escapeLetter c with
    | some e => readMarks (.char e :: acc) rest
    | none => none
  | acc, c :: rest => if c.toNat < 32 then none else readMarks (.char c :: acc) rest

/-- The text of marks; `none` if a surrogate stands alone. -/
def textOfMarks : List Mark → Option (List Char)
  | [] => some []
  | .char c :: rest => (textOfMarks rest).map (c :: ·)
  | .unit n :: rest =>
    if n < 0xd800 ∨ 0xdfff < n then (textOfMarks rest).map (Char.ofNat n :: ·)
    else match rest with
      | .unit m :: rest =>
        if n < 0xdc00 ∧ 0xdc00 ≤ m ∧ m ≤ 0xdfff then
          (textOfMarks rest).map (Char.ofNat (0x10000 + (n - 0xd800) * 0x400 + (m - 0xdc00)) :: ·)
        else none
      | _ => none

/-- The text behind an opening quote, and what follows its closing quote. -/
def readText (cs : List Char) : Option (Option String × List Char) :=
  (readMarks [] cs).map fun (marks, rest) => ((textOfMarks marks.reverse).map String.ofList, rest)

/-! ### Documents -/

def skipBlanks (cs : List Char) : List Char :=
  cs.dropWhile fun c => c = ' ' ∨ c = '\n' ∨ c = '\t' ∨ c = '\r'

/-- A fixed word at the front of a text. -/
def readWord (word : List Char) (t : Tree) (cs : List Char) : Option (Tree × List Char) :=
  if word.isPrefixOf cs then some (t, cs.drop word.length) else none

mutual

/-- The document at the front of a text, blanks before it allowed, and what follows it. `fuel`
    bounds the number of steps; the length of the text is enough. -/
def readTree : Nat → List Char → Option (Tree × List Char)
  | 0, _ => none
  | fuel + 1, cs =>
    match skipBlanks cs with
    | '"' :: rest => (readText rest).map fun (s, rest) => (.text s, rest)
    | '[' :: rest =>
      match skipBlanks rest with
      | ']' :: rest => some (.list [], rest)
      | rest => (readItems fuel [] rest).map fun (items, rest) => (.list items, rest)
    | '\x7b' :: rest =>
      match skipBlanks rest with
      | '\x7d' :: rest => some (.object [], rest)
      | rest => (readMembers fuel [] rest).map fun (members, rest) => (.object members, rest)
    | 'n' :: rest => readWord ['u', 'l', 'l'] .null rest
    | 't' :: rest => readWord ['r', 'u', 'e'] (.bool true) rest
    | 'f' :: rest => readWord ['a', 'l', 's', 'e'] (.bool false) rest
    | cs => (Number.readParts cs).map fun (p, rest) => (.number (Number.ofParts p), rest)

/-- The items of a list up to its closing bracket, after those already read. -/
def readItems : Nat → List Tree → List Char → Option (List Tree × List Char)
  | 0, _, _ => none
  | fuel + 1, acc, cs =>
    match readTree fuel cs with
    | none => none
    | some (t, rest) =>
      match skipBlanks rest with
      | ',' :: rest => readItems fuel (t :: acc) rest
      | ']' :: rest => some ((t :: acc).reverse, rest)
      | _ => none

/-- The members of an object up to its closing brace, after those already read. -/
def readMembers : Nat → List (Option String × Tree) → List Char →
    Option (List (Option String × Tree) × List Char)
  | 0, _, _ => none
  | fuel + 1, acc, cs =>
    match skipBlanks cs with
    | '"' :: rest =>
      match readText rest with
      | none => none
      | some (key, rest) =>
        match skipBlanks rest with
        | ':' :: rest =>
          match readTree fuel rest with
          | none => none
          | some (t, rest) =>
            match skipBlanks rest with
            | ',' :: rest => readMembers fuel ((key, t) :: acc) rest
            | '\x7d' :: rest => some (((key, t) :: acc).reverse, rest)
            | _ => none
        | _ => none
    | _ => none

end

/-- The document that a whole text is. -/
def Tree.read? (s : String) : Option Tree :=
  let cs := s.toList
  match readTree (cs.length + 1) cs with
  | some (t, rest) => if (skipBlanks rest).isEmpty then some t else none
  | none => none

end Concord.Json
