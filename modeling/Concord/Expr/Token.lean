import Concord.Decimal.Shortest
import Concord.Failure

/-! The tokens of definitions. -/

namespace Concord

inductive Token where
  | number (x : Double)
  | text (s : String)
  | identifier (name : String)
  | plus
  | minus
  | star
  | slash
  | caret
  | assign
  | comma
  | leftParen
  | rightParen
  /-- The end of the text. -/
  | stop
  deriving DecidableEq

/-- A token and the byte offset at which it starts. -/
structure Spanned where
  token : Token
  position : Nat
  deriving DecidableEq

/-- A token as messages show it. -/
def Token.display : Token → String
  | number x => Decimal.plain x
  | text s => "'" ++ s ++ "'"
  | identifier name => name
  | plus => "+"
  | minus => "-"
  | star => "*"
  | slash => "/"
  | caret => "^"
  | assign => "="
  | comma => ","
  | leftParen => "("
  | rightParen => ")"
  | stop => "end of input"

/-- What can be wrong with the text of a definition. -/
inductive SyntaxFault where
  | unexpectedCharacter
  | unterminatedText
  | invalidNumber
  | emptyExpression
  | trailingToken
  | missingParen
  | unexpectedToken
  | nestedTooDeeply
  | repeatedKeyword
  | positionalAfterKeyword
  | missingSeparator
  deriving DecidableEq

def SyntaxFault.message : SyntaxFault → String
  | unexpectedCharacter => "unexpected character"
  | unterminatedText => "unterminated string literal"
  | invalidNumber => "invalid numeric literal"
  | emptyExpression => "empty expression"
  | trailingToken => "unexpected token after expression"
  | missingParen => "expected ')'"
  | unexpectedToken => "unexpected token"
  | nestedTooDeeply => "expression nested too deeply"
  | repeatedKeyword => "duplicate keyword argument"
  | positionalAfterKeyword => "positional argument after keyword argument"
  | missingSeparator => "expected ',' or ')' in argument list"

/-- The error that a fault is, at a token. -/
def SyntaxFault.at (f : SyntaxFault) (token : String) (position : Nat) : SyntaxError :=
  ⟨f.message, token, position⟩

end Concord
