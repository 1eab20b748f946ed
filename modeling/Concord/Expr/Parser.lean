import Concord.Expr.Basic
import Concord.Expr.Lexer

/-! Reading expressions. From loose to tight: sums and differences, products and quotients (both to
    the left), signs, powers (to the right, the exponent may carry a sign), and atoms. A sign in
    front of a number becomes part of it. -/

namespace Concord.Parser

/-- How deep signed operands may be nested. -/
def depthLimit : Nat := 128

/-- What is read from the front of some tokens, and the tokens behind it. -/
abbrev Front (α : Type) := α × List Spanned

/-- The error of a fault at the first token of what is left; where nothing is left it is found at
    the end, which is reported at the position `last`. -/
def fail (last : Nat) (ts : List Spanned) (f : SyntaxFault) : SyntaxError :=
  match ts with
  | t :: _ => f.at t.token.display t.position
  | [] => f.at Token.stop.display last

/-- The first token; what lies behind the last one counts as the end. -/
def peek (ts : List Spanned) : Token :=
  match ts with
  | t :: _ => t.token
  | [] => .stop

/-- The additive operator that a token is. -/
def additiveOperator : Token → Option String
  | .plus => some "+"
  | .minus => some "-"
  | _ => none

/-- The multiplicative operator that a token is. -/
def multiplicativeOperator : Token → Option String
  | .star => some "*"
  | .slash => some "/"
  | _ => none

/-- An expression with a minus in front. -/
def negated : Expr → Expr
  | .number x => .number (-x)
  | e => Expr.apply "-" [e]

/-- The arguments of a call as far as they are read: positional ones and keywords. -/
structure Arguments where
  args : List Expr
  kwargs : List (String × Expr)

mutual

/-- A sum: `last` is the position reported at the end of the tokens, `depth` the number of signed
    operands around it, and the first number bounds the steps. -/
def additive (last : Nat) : Nat → Nat → List Spanned → Except SyntaxError (Front Expr)
  | 0, _, ts => .error (fail last ts .nestedTooDeeply)
  | fuel + 1, depth, ts => do
    let (left, ts) ← multiplicative last fuel depth ts
    additiveRest last fuel depth left ts

/-- The further terms of a sum. -/
def additiveRest (last : Nat) : Nat → Nat → Expr → List Spanned → Except SyntaxError (Front Expr)
  | 0, _, _, ts => .error (fail last ts .nestedTooDeeply)
  | fuel + 1, depth, left, ts =>
    match additiveOperator (peek ts) with
    | some op => do
      let (right, ts) ← multiplicative last fuel depth ts.tail
      additiveRest last fuel depth (Expr.apply op [left, right]) ts
    | none => .ok (left, ts)

/-- A product. -/
def multiplicative (last : Nat) : Nat → Nat → List Spanned → Except SyntaxError (Front Expr)
  | 0, _, ts => .error (fail last ts .nestedTooDeeply)
  | fuel + 1, depth, ts => do
    let (left, ts) ← unary last fuel depth ts
    multiplicativeRest last fuel depth left ts

/-- The further factors of a product. -/
def multiplicativeRest (last : Nat) : Nat → Nat → Expr → List Spanned → Except SyntaxError (Front Expr)
  | 0, _, _, ts => .error (fail last ts .nestedTooDeeply)
  | fuel + 1, depth, left, ts =>
    match multiplicativeOperator (peek ts) with
    | some op => do
      let (right, ts) ← unary last fuel depth ts.tail
      multiplicativeRest last fuel depth (Expr.apply op [left, right]) ts
    | none => .ok (left, ts)

/-- An operand with any signs in front. Every nested expression passes through here, so this is
    where the depth is bounded. -/
def unary (last : Nat) : Nat → Nat → List Spanned → Except SyntaxError (Front Expr)
  | 0, _, ts => .error (fail last ts .nestedTooDeeply)
  | fuel + 1, depth, ts =>
    if depth = depthLimit then .error (fail last ts .nestedTooDeeply)
    else
      match peek ts with
      | .minus => do
        let (e, ts) ← unary last fuel (depth + 1) ts.tail
        .ok (negated e, ts)
      | .plus => unary last fuel (depth + 1) ts.tail
      | _ => power last fuel (depth + 1) ts

/-- An atom, or a power of one. -/
def power (last : Nat) : Nat → Nat → List Spanned → Except SyntaxError (Front Expr)
  | 0, _, ts => .error (fail last ts .nestedTooDeeply)
  | fuel + 1, depth, ts => do
    let (base, ts) ← primary last fuel depth ts
    match peek ts with
    | .caret =>
      let (e, ts) ← unary last fuel depth ts.tail
      .ok (Expr.apply "^" [base, e], ts)
    | _ => .ok (base, ts)

/-- A literal, a name, a call or an expression in parentheses. -/
def primary (last : Nat) : Nat → Nat → List Spanned → Except SyntaxError (Front Expr)
  | 0, _, ts => .error (fail last ts .nestedTooDeeply)
  | fuel + 1, depth, ts =>
    match peek ts with
    | .number x => .ok (.number x, ts.tail)
    | .text s => .ok (.text s, ts.tail)
    | .identifier name =>
      match peek ts.tail with
      | .leftParen =>
        match peek ts.tail.tail with
        | .rightParen => .ok (.call name [] [], ts.tail.tail.tail)
        | _ => do
          let (a, ts) ← arguments last fuel depth ⟨[], []⟩ ts.tail.tail
          .ok (.call name a.args a.kwargs, ts)
      | _ => .ok (.operand name, ts.tail)
    | .leftParen => do
      let (e, ts) ← additive last fuel depth ts.tail
      match peek ts with
      | .rightParen => .ok (e, ts.tail)
      | _ => .error (fail last ts .missingParen)
    | _ => .error (fail last ts .unexpectedToken)

/-- The arguments up to the closing parenthesis, after those already read. -/
def arguments (last : Nat) : Nat → Nat → Arguments → List Spanned → Except SyntaxError (Front Arguments)
  | 0, _, _, ts => .error (fail last ts .nestedTooDeeply)
  | fuel + 1, depth, a, ts => do
    let (a, ts) ← argument last fuel depth a ts
    match peek ts with
    | .comma => arguments last fuel depth a ts.tail
    | .rightParen => .ok (a, ts.tail)
    | _ => .error (fail last ts .missingSeparator)

/-- One argument, put behind those already read. -/
def argument (last : Nat) : Nat → Nat → Arguments → List Spanned → Except SyntaxError (Front Arguments)
  | 0, _, _, ts => .error (fail last ts .nestedTooDeeply)
  | fuel + 1, depth, a, ts =>
    match peek ts, peek ts.tail with
    | .identifier key, .assign =>
      if a.kwargs.any fun k => k.1 == key then .error (fail last ts .repeatedKeyword)
      else do
        let (e, ts) ← additive last fuel depth ts.tail.tail
        .ok (⟨a.args, a.kwargs ++ [(key, e)]⟩, ts)
    | _, _ =>
      if a.kwargs.isEmpty then do
        let (e, ts) ← additive last fuel depth ts
        .ok (⟨a.args ++ [e], a.kwargs⟩, ts)
      else .error (fail last ts .positionalAfterKeyword)

end

/-- The expression that a whole list of tokens is. Between two tokens there are at most eight
    steps. -/
def parseTokens (ts : List Spanned) : Except SyntaxError Expr := do
  let last := (ts.getLast?.map (·.position)).getD 0
  match peek ts with
  | .stop => .error (fail last ts .emptyExpression)
  | _ =>
    let (e, rest) ← additive last (8 * ts.length + 8) 0 ts
    match peek rest with
    | .stop => .ok e
    | _ => .error (fail last rest .trailingToken)

/-- The expression that a text is. -/
def parse (s : String) : Except SyntaxError Expr := do parseTokens (← Lexer.tokens s)

end Concord.Parser
