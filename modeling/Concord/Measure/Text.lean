import Concord.Decimal.Shortest
import Concord.Measure.Basic
import Concord.Text.Class

/-! Units in text: factors separated by blanks, points or stars, after at most one slash those of
    the denominator. A factor is a symbol with an exponent behind it, or a number. -/

namespace Concord.Measure

/-- What can be wrong with the text of a unit. -/
inductive Fault where
  | empty
  | manySlashes (text : String)
  | badFactor (factor : String)
  | badScale (factor : String)
  | badExponent (factor : String)
  deriving DecidableEq

/-- The fault in words. -/
def Fault.message : Fault → String
  | empty => "empty unit"
  | manySlashes text => "more than one '/' in '" ++ text ++ "'"
  | badFactor factor => "invalid unit factor '" ++ factor ++ "'"
  | badScale factor => "invalid scale factor '" ++ factor ++ "'"
  | badExponent factor => "invalid exponent in '" ++ factor ++ "'"

/-! ### Factors -/

/-- Two stars stand for a caret. -/
def caretForStars : List Char → List Char
  | '*' :: '*' :: rest => '^' :: caretForStars rest
  | c :: rest => c :: caretForStars rest
  | [] => []

/-- A point between two digits belongs to a number. -/
def isDecimalPoint (previous c : Char) (rest : List Char) : Bool :=
  c == '.' && previous.isDigit && (rest.head?.any Char.isDigit)

/-- The character, with the one before it and those behind it, separates factors. -/
def separates (previous c : Char) (rest : List Char) : Bool :=
  Text.isBlank c || c == '*' || (c == '.' && !isDecimalPoint previous c rest)

/-- The factors of a product, some of which may be empty. -/
def factors (previous : Char) : List Char → List (List Char)
  | [] => [[]]
  | c :: rest =>
    if separates previous c rest then [] :: factors c rest
    else Text.pushFront c (factors c rest)

/-- A character that starts the exponent of a symbol. -/
def startsExponent (c : Char) : Bool := c.isDigit || c == '-' || c == '+'

/-- A symbol and the text of its exponent: what stands around the first caret, or else the parts
    before and from the first digit or sign that does not start the factor. -/
def splitSymbol (factor : List Char) : List Char × List Char :=
  match Text.splitFirst '^' factor with
  | some parts => parts
  | none =>
    match factor with
    | [] => ([], ['1'])
    | c :: rest =>
      let e := rest.dropWhile fun c => !startsExponent c
      (c :: rest.takeWhile fun c => !startsExponent c, if e.isEmpty then ['1'] else e)

/-- Exponents are whole numbers of 32 bits. -/
def readExponent (cs : List Char) : Option Int :=
  (Decimal.readInt cs).filter fun n => -2 ^ 31 ≤ n && n < 2 ^ 31

/-- The symbol and the exponent that a factor is. -/
def readSymbol (factor : List Char) : Except Fault (String × Int) :=
  let (base, e) := splitSymbol factor
  if base.isEmpty || base.head?.any Char.isDigit then .error (.badFactor (String.ofList factor))
  else
    match readExponent e with
    | some n => .ok (String.ofList base, n)
    | none => .error (.badExponent (String.ofList factor))

/-- The number that a factor is. It can be divided by. -/
def readScale (factor : List Char) : Except Fault Double :=
  match Decimal.read factor with
  | none => .error (.badFactor (String.ofList factor))
  | some x => if x = 0 || !x.isFinite then .error (.badScale (String.ofList factor)) else .ok x

/-- The factor is a number. -/
def isNumeric (factor : List Char) : Bool := factor.head?.any fun c => c.isDigit || c == '.'

/-- Multiplies a unit by a factor to the power `sign`. -/
def applyFactor (sign : Int) (u : Measure Double) (factor : List Char) :
    Except Fault (Measure Double) :=
  if factor = [] ∨ factor = ['1'] then .ok u
  else if isNumeric factor then
    (readScale factor).map fun x => ⟨u.terms, u.scale * Scalar.power x sign⟩
  else (readSymbol factor).map fun p => ⟨raise u.terms p.1 (p.2 * sign), u.scale⟩

/-- Multiplies a unit by a product to the power `sign`. -/
def applyProduct (sign : Int) (u : Measure Double) (cs : List Char) :
    Except Fault (Measure Double) :=
  (factors ' ' (caretForStars cs)).foldlM (applyFactor sign) u

/-- Multiplies a unit by what stands around at most one slash. -/
def applyParts (s : String) (u : Measure Double) : List (List Char) → Except Fault (Measure Double)
  | [] => .ok u
  | [numerator] => applyProduct 1 u numerator
  | numerator :: denominator :: rest => do
    let u ← applyProduct (-1) (← applyProduct 1 u numerator) denominator
    if rest.isEmpty then .ok u else .error (.manySlashes s)

/-- The unit that a text is. -/
def read (s : String) : Except Fault (Measure Double) :=
  if (Text.trim s.toList).isEmpty then .error .empty
  else
    (applyParts s unity (Text.split (· == '/') s.toList)).map fun u =>
      ⟨normalize u.terms, u.scale⟩

/-! ### Printing -/

/-- A symbol with its exponent, unless that is one. -/
def termText (symbol : String) (e : Int) : String :=
  if e = 1 then symbol else symbol ++ toString e

/-- The unit as text: its factor unless that is one, and its symbols in order. -/
def text (u : Measure Double) : String :=
  let scale := if u.scale = 1 then [] else [Decimal.plain u.scale]
  let parts := scale ++ u.terms.entries.map fun p => termText p.1 p.2
  if parts.isEmpty then "1" else " ".intercalate parts

/-- Two units are the same; texts that are no units are compared as they stand. -/
def sameUnit (a b : String) : Bool :=
  match read a, read b with
  | .ok u, .ok v => u = v
  | _, _ => a == b

end Concord.Measure
