import Concord.Expr.Basic
import Concord.Expr.Token

/-! The grammar of expressions. A derivation is a tree with one kind of node for each rule of the grammar; it has the
    tokens that it derives, the expression that it stands for, and a depth of nested operands. No two derivations have
    the same tokens. -/

namespace Concord.Grammar

/-! ### Derivations -/

/-- What stands between two terms, or in front of an operand. -/
inductive Sign where
  | plus
  | minus

/-- What stands between two factors. -/
inductive Scale where
  | times
  | divided

mutual

/-- A product, and any number of further ones with signs between them. -/
inductive Sum : Type where
  | mk (first : Product) (rest : Terms)

inductive Terms : Type where
  | nil
  | cons (sign : Sign) (term : Product) (rest : Terms)

/-- An operand, and any number of further ones to multiply by or to divide by. -/
inductive Product : Type where
  | mk (first : Operand) (rest : Factors)

inductive Factors : Type where
  | nil
  | cons (scale : Scale) (factor : Operand) (rest : Factors)

/-- A power with any number of signs in front. -/
inductive Operand : Type where
  | signed (sign : Sign) (operand : Operand)
  | power (p : Power)

/-- An atom, with or without an exponent. -/
inductive Power : Type where
  | atom (base : Atom)
  | raised (base : Atom) (exponent : Operand)

inductive Atom : Type where
  | number (x : Double)
  | text (s : String)
  | name (name : String)
  | call (name : String) (args : Arguments)
  | parens (s : Sum)

/-- Positional arguments, and behind them those under keywords. -/
inductive Arguments : Type where
  | positional (value : Sum) (rest : Arguments)
  | keywords {keys : List String} (rest : Keywords keys)

/-- Arguments under some keywords, each of which is given once. -/
inductive Keywords : List String → Type where
  | nil : Keywords []
  | cons {keys : List String} (key : String) (value : Sum) (rest : Keywords keys) (new : key ∉ keys) :
      Keywords (key :: keys)

end

/-! ### Their tokens -/

def Sign.token : Sign → Token
  | plus => .plus
  | minus => .minus

def Scale.token : Scale → Token
  | times => .star
  | divided => .slash

mutual

/-- The tokens that a sum derives. -/
def Sum.tokens : Sum → List Token
  | .mk first rest => first.tokens ++ rest.tokens

def Terms.tokens : Terms → List Token
  | .nil => []
  | .cons sign term rest => sign.token :: (term.tokens ++ rest.tokens)

def Product.tokens : Product → List Token
  | .mk first rest => first.tokens ++ rest.tokens

def Factors.tokens : Factors → List Token
  | .nil => []
  | .cons scale factor rest => scale.token :: (factor.tokens ++ rest.tokens)

def Operand.tokens : Operand → List Token
  | .signed sign operand => sign.token :: operand.tokens
  | .power p => p.tokens

def Power.tokens : Power → List Token
  | .atom base => base.tokens
  | .raised base exponent => base.tokens ++ .caret :: exponent.tokens

def Atom.tokens : Atom → List Token
  | .number x => [.number x]
  | .text s => [.text s]
  | .name name => [.identifier name]
  | .call name args => .identifier name :: .leftParen :: ([Token.comma].intercalate args.parts ++ [.rightParen])
  | .parens s => .leftParen :: (s.tokens ++ [.rightParen])

/-- The tokens of each argument. -/
def Arguments.parts : Arguments → List (List Token)
  | .positional value rest => value.tokens :: rest.parts
  | .keywords rest => rest.parts

def Keywords.parts {keys : List String} : Keywords keys → List (List Token)
  | .nil => []
  | .cons key value rest _ => (.identifier key :: .assign :: value.tokens) :: rest.parts

end

/-! ### Their expressions -/

/-- The operator between two terms. -/
def Sign.symbol : Sign → String
  | plus => "+"
  | minus => "-"

/-- The operator between two factors. -/
def Scale.symbol : Scale → String
  | times => "*"
  | divided => "/"

/-- An expression with a sign in front: a plus says nothing, and a minus becomes part of a number. -/
def Sign.before : Sign → Expr → Expr
  | plus, e => e
  | minus, .number x => .number (-x)
  | minus, e => .apply "-" [e]

mutual

/-- The expression that a sum stands for: its terms are taken from left to right. -/
def Sum.expr : Sum → Expr
  | .mk first rest => rest.after first.expr

def Terms.after : Terms → Expr → Expr
  | .nil, left => left
  | .cons sign term rest, left => rest.after (.apply sign.symbol [left, term.expr])

def Product.expr : Product → Expr
  | .mk first rest => rest.after first.expr

def Factors.after : Factors → Expr → Expr
  | .nil, left => left
  | .cons scale factor rest, left => rest.after (.apply scale.symbol [left, factor.expr])

def Operand.expr : Operand → Expr
  | .signed sign operand => sign.before operand.expr
  | .power p => p.expr

def Power.expr : Power → Expr
  | .atom base => base.expr
  | .raised base exponent => .apply "^" [base.expr, exponent.expr]

def Atom.expr : Atom → Expr
  | .number x => .number x
  | .text s => .text s
  | .name name => .operand name
  | .call name args => .call name args.args args.kwargs
  | .parens s => s.expr

def Arguments.args : Arguments → List Expr
  | .positional value rest => value.expr :: rest.args
  | .keywords _ => []

def Arguments.kwargs : Arguments → List (String × Expr)
  | .positional _ rest => rest.kwargs
  | .keywords rest => rest.kwargs

def Keywords.kwargs {keys : List String} : Keywords keys → List (String × Expr)
  | .nil => []
  | .cons key value rest _ => (key, value.expr) :: rest.kwargs

end

/-! ### Their nesting -/

mutual

/-- How many operands lie within each other at most. -/
def Sum.nesting : Sum → Nat
  | .mk first rest => max first.nesting rest.nesting

def Terms.nesting : Terms → Nat
  | .nil => 0
  | .cons _ term rest => max term.nesting rest.nesting

def Product.nesting : Product → Nat
  | .mk first rest => max first.nesting rest.nesting

def Factors.nesting : Factors → Nat
  | .nil => 0
  | .cons _ factor rest => max factor.nesting rest.nesting

def Operand.nesting : Operand → Nat
  | .signed _ operand => operand.nesting + 1
  | .power p => p.nesting + 1

def Power.nesting : Power → Nat
  | .atom base => base.nesting
  | .raised base exponent => max base.nesting exponent.nesting

def Atom.nesting : Atom → Nat
  | .number _ => 0
  | .text _ => 0
  | .name _ => 0
  | .call _ args => args.nesting
  | .parens s => s.nesting

def Arguments.nesting : Arguments → Nat
  | .positional value rest => max value.nesting rest.nesting
  | .keywords rest => rest.nesting

def Keywords.nesting {keys : List String} : Keywords keys → Nat
  | .nil => 0
  | .cons _ value rest _ => max value.nesting rest.nesting

end

end Concord.Grammar
