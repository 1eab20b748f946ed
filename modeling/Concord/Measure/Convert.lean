import Concord.Measure.Text

/-! Conversion between units. A symbol of the table stands for a product of base symbols and a
    factor; a temperature also has an offset, which counts only where it stands alone. A symbol that
    is not in the table is a base symbol of its own. -/

namespace Concord.Measure

/-- What a symbol stands for: `value in base units = scale · value + offset`. -/
structure SymbolEntry (α : Type) where
  symbol : String
  base : List (String × Int)
  scale : α
  offset : α

section
variable {α : Type} [Scalar α]

def decimal (m : Nat) (e : Int) : α := Scalar.ofDecimal m e

def pressure : List (String × Int) := [("kg", 1), ("m", -1), ("s", -2)]

/-- The known symbols. -/
def symbols : List (SymbolEntry α) :=
  let nothing : α := Scalar.zero
  let one : α := Scalar.one
  [ ⟨"K", [("K", 1)], one, nothing⟩,
    ⟨"degK", [("K", 1)], one, nothing⟩,
    ⟨"degC", [("K", 1)], one, decimal 27315 (-2)⟩,
    ⟨"celsius", [("K", 1)], one, decimal 27315 (-2)⟩,
    ⟨"degF", [("K", 1)], decimal 5 0 / decimal 9 0,
      decimal 45967 (-2) * decimal 5 0 / decimal 9 0⟩,
    ⟨"m", [("m", 1)], one, nothing⟩,
    ⟨"km", [("m", 1)], decimal 1 3, nothing⟩,
    ⟨"cm", [("m", 1)], decimal 1 (-2), nothing⟩,
    ⟨"mm", [("m", 1)], decimal 1 (-3), nothing⟩,
    ⟨"s", [("s", 1)], one, nothing⟩,
    ⟨"min", [("s", 1)], decimal 60 0, nothing⟩,
    ⟨"h", [("s", 1)], decimal 3600 0, nothing⟩,
    ⟨"hr", [("s", 1)], decimal 3600 0, nothing⟩,
    ⟨"day", [("s", 1)], decimal 86400 0, nothing⟩,
    ⟨"d", [("s", 1)], decimal 86400 0, nothing⟩,
    ⟨"kg", [("kg", 1)], one, nothing⟩,
    ⟨"g", [("kg", 1)], decimal 1 (-3), nothing⟩,
    ⟨"Pa", pressure, one, nothing⟩,
    ⟨"hPa", pressure, decimal 1 2, nothing⟩,
    ⟨"kPa", pressure, decimal 1 3, nothing⟩,
    ⟨"mbar", pressure, decimal 1 2, nothing⟩,
    ⟨"bar", pressure, decimal 1 5, nothing⟩,
    ⟨"N", [("kg", 1), ("m", 1), ("s", -2)], one, nothing⟩,
    ⟨"J", [("kg", 1), ("m", 2), ("s", -2)], one, nothing⟩,
    ⟨"W", [("kg", 1), ("m", 2), ("s", -3)], one, nothing⟩,
    ⟨"percent", [], decimal 1 (-2), nothing⟩,
    ⟨"%", [], decimal 1 (-2), nothing⟩ ]

/-- What a symbol stands for. -/
def entryOf (symbol : String) : Option (SymbolEntry α) :=
  (symbols (α := α)).find? fun e => e.symbol == symbol

/-- An affine map. -/
structure Affine (α : Type) where
  scale : α
  offset : α

def Affine.apply (f : Affine α) (x : α) : α := x * f.scale + f.offset

/-- A unit in base symbols, and the map of its values into it. -/
structure Reduced (α : Type) where
  base : NameMap Int
  toBase : Affine α

/-- Multiplies base symbols and a factor by a symbol to a power. -/
def reduceTerm (acc : NameMap Int × α) (term : String × Int) : NameMap Int × α :=
  match entryOf (α := α) term.1 with
  | some e =>
    (combine 1 acc.1 (multiplied term.2 (NameMap.ofList e.base)),
      acc.2 * Scalar.power e.scale term.2)
  | none => (combine 1 acc.1 (NameMap.ofList [term]), acc.2)

/-- The offset of a unit that is a single symbol. -/
def offsetOf (plain : α → Bool) (u : Measure α) : α :=
  match u.terms.entries with
  | [(symbol, 1)] =>
    if plain u.scale then ((entryOf symbol).map (·.offset)).getD Scalar.zero else Scalar.zero
  | _ => Scalar.zero

/-- A unit in base symbols; `plain` tells whether a factor is one. -/
def reduce (plain : α → Bool) (u : Measure α) : Reduced α :=
  let (base, scale) := u.terms.entries.foldl reduceTerm (.empty, u.scale)
  ⟨base, ⟨scale, offsetOf plain u⟩⟩

/-- The map from the values of one unit to those of another, if they have the same base. -/
def between (a b : Reduced α) : Option (Affine α) :=
  if a.base = b.base then
    some ⟨a.toBase.scale / b.toBase.scale, (a.toBase.offset - b.toBase.offset) / b.toBase.scale⟩
  else none

end

/-- The base form of a unit in text. -/
def reduceText (s : String) : Option (Reduced Double) :=
  (read s).toOption.map (reduce (· = 1))

/-- The affine map between two units in text. -/
def affineBetween (source target : String) : Option (Affine Double) := do
  between (← reduceText source) (← reduceText target)

/-- What converts values between units: which units it accepts, and the map of single values. -/
structure Converter where
  accepts : String → String → Bool
  conversion : String → String → Option (Double → Double)

/-- The map of single values between two units: none for the same unit, else an affine one. -/
def conversion (source target : String) : Option (Double → Double) :=
  if sameUnit source target then some id else (affineBetween source target).map (·.apply)

/-- Conversion by the table of symbols. -/
def linear : Converter where
  accepts source target := sameUnit source target || (affineBetween source target).isSome
  conversion := conversion

end Concord.Measure
