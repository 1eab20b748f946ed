import Concord.Expr.Token

/-! Cutting the text of a definition into tokens. Blanks separate tokens and are otherwise skipped;
    two stars are one caret; a text runs to its closing quote, a backslash taking the next character
    as it is, or as a line feed or a tab. -/

namespace Concord.Lexer

/-- A token and the characters that spell it. -/
structure Lexeme where
  token : Token
  spelling : List Char

/-- The lexeme at the front of a text, and what follows it. -/
abbrev Taken := Except SyntaxError (Lexeme × List Char)

/-! ### Texts -/

/-- What stands in front of the closing quote, as it is spelled, and what follows the quote. -/
def splitText (quote : Char) : List Char → Option (List Char × List Char)
  | [] => none
  | c :: rest =>
    if c = quote then some ([], rest)
    else if c = '\\' then
      match rest with
      | [] => none
      | e :: rest => (splitText quote rest).map fun p => (c :: e :: p.1, p.2)
    else (splitText quote rest).map fun p => (c :: p.1, p.2)

/-- The characters that a spelling between quotes stands for. -/
def unescape : List Char → List Char
  | '\\' :: 'n' :: cs => '\n' :: unescape cs
  | '\\' :: 't' :: cs => '\t' :: unescape cs
  | '\\' :: c :: cs => c :: unescape cs
  | c :: cs => c :: unescape cs
  | [] => []

/-- The text behind an opening quote at `position`. -/
def takeText (position : Nat) (quote : Char) (cs : List Char) : Taken :=
  match splitText quote cs with
  | some (body, rest) =>
    .ok (⟨.text (String.ofList (unescape body)), quote :: body ++ [quote]⟩, rest)
  | none => .error (SyntaxFault.unterminatedText.at (String.ofList (quote :: cs)) position)

/-! ### Numbers -/

/-- Characters of the digits and points of a number. -/
def inNumber (c : Char) : Bool := c.isDigit || c == '.'

/-- The exponent part at the front of a text, and what follows it. An exponent mark belongs to the
    number whether digits follow or not. -/
def spanExponent : List Char → List Char × List Char
  | c :: rest =>
    if c = 'e' ∨ c = 'E' then
      match rest with
      | s :: rest' =>
        if s = '+' ∨ s = '-' then
          (c :: s :: rest'.takeWhile Char.isDigit, rest'.dropWhile Char.isDigit)
        else (c :: rest.takeWhile Char.isDigit, rest.dropWhile Char.isDigit)
      | [] => ([c], [])
    else ([], c :: rest)
  | [] => ([], [])

/-- The text of the number at the front of a text, and what follows it. -/
def spanNumber (cs : List Char) : List Char × List Char :=
  let (e, rest) := spanExponent (cs.dropWhile inNumber)
  (cs.takeWhile inNumber ++ e, rest)

/-- The number at the front of a text that starts with a digit or a point at `position`. -/
def takeNumber (position : Nat) (cs : List Char) : Taken :=
  let (number, rest) := spanNumber cs
  match Decimal.read number with
  | some x => .ok (⟨.number x, number⟩, rest)
  | none => .error (SyntaxFault.invalidNumber.at (String.ofList number) position)

/-! ### Tokens -/

/-- The token of a single character that stands for itself. -/
def symbol (c : Char) : Option Token :=
  match c with
  | '+' => some .plus
  | '-' => some .minus
  | '/' => some .slash
  | '^' => some .caret
  | '=' => some .assign
  | ',' => some .comma
  | '(' => some .leftParen
  | ')' => some .rightParen
  | _ => none

/-- The name at the front of a text that starts with a character of one. -/
def takeName (c : Char) (cs : List Char) : Lexeme × List Char :=
  let name := c :: cs.takeWhile Text.continuesName
  (⟨.identifier (String.ofList name), name⟩, cs.dropWhile Text.continuesName)

/-- The token that starts with a character other than a blank, at `position`. -/
def takeToken (position : Nat) (c : Char) (rest : List Char) : Taken :=
  if let some t := symbol c then .ok (⟨t, [c]⟩, rest)
  else if c = '*' then
    match rest with
    | '*' :: rest => .ok (⟨.caret, ['*', '*']⟩, rest)
    | rest => .ok (⟨.star, ['*']⟩, rest)
  else if c = '\'' ∨ c = '"' then takeText position c rest
  else if inNumber c then takeNumber position (c :: rest)
  else if Text.startsName c then .ok (takeName c rest)
  else .error (SyntaxFault.unexpectedCharacter.at (String.singleton c) position)

/-- The tokens of what is left of a text from a byte position on. Every step takes at least one
    character, so the number of characters bounds the steps. -/
def tokensFrom : Nat → Nat → List Char → Except SyntaxError (List Spanned)
  | 0, position, _ => .ok [⟨.stop, position⟩]
  | fuel + 1, position, cs =>
    let start := position + Text.byteLength (cs.takeWhile Text.isBlank)
    match cs.dropWhile Text.isBlank with
    | [] => .ok [⟨.stop, start⟩]
    | c :: rest => do
      let (l, rest) ← takeToken start c rest
      .ok (⟨l.token, start⟩ :: (← tokensFrom fuel (start + Text.byteLength l.spelling) rest))

/-- The tokens of a text, the last of which marks its end. -/
def tokens (s : String) : Except SyntaxError (List Spanned) :=
  tokensFrom (s.toList.length + 1) 0 s.toList

end Concord.Lexer
