import Concord.Text.Ranges

/-! Character classes of names, blanks and digits. Below 128 each class is spelled out; above, it is
    a table of ranges. -/

namespace Concord.Text

-- Sums start at the built-in zero, also where the algebra of numbers is known.
attribute [local instance (10000)] Zero.ofOfNat0

/-- The character lies in one of the ranges. -/
def inRanges (table : List (Nat × Nat)) (c : Char) : Bool :=
  table.any fun r => r.1 ≤ c.toNat && c.toNat ≤ r.2

/-- Letters, and the marks and letter numbers that count as letters. -/
def isAlphabetic (c : Char) : Bool :=
  if c.toNat < 128 then c.isAlpha else inRanges alphabeticRanges c

/-- Decimal digits, letter numbers and other numbers. -/
def isNumeric (c : Char) : Bool :=
  if c.toNat < 128 then c.isDigit else inRanges numericRanges c

def isAlphanumeric (c : Char) : Bool := isAlphabetic c || isNumeric c

/-- White space beyond ASCII. -/
def blankRanges : List (Nat × Nat) :=
  [(0x85, 0x85), (0xa0, 0xa0), (0x1680, 0x1680), (0x2000, 0x200a), (0x2028, 0x2029),
    (0x202f, 0x202f), (0x205f, 0x205f), (0x3000, 0x3000)]

/-- White space: tab, line feed, vertical tab, form feed, carriage return, space, and the blanks
    beyond ASCII. -/
def isBlank (c : Char) : Bool :=
  if c.toNat < 128 then c.toNat == 32 || (9 ≤ c.toNat && c.toNat ≤ 13) else inRanges blankRanges c

/-- A name starts with a letter or an underscore. -/
def startsName (c : Char) : Bool := isAlphabetic c || c == '_'

/-- A name goes on with letters, numbers and underscores. -/
def continuesName (c : Char) : Bool := isAlphanumeric c || c == '_'

theorem continuesName_of_startsName {c : Char} (h : startsName c = true) :
    continuesName c = true := by
  simp only [startsName, continuesName, isAlphanumeric, Bool.or_eq_true] at h ⊢
  exact h.elim (fun h => Or.inl (Or.inl h)) Or.inr

/-! ### Trimming -/

/-- The text without the blanks in front of it and behind it. -/
def trim (cs : List Char) : List Char :=
  (cs.dropWhile isBlank |>.reverse.dropWhile isBlank).reverse

/-- The parts before and after the first occurrence of the character, if there is one. -/
def splitFirst (sep : Char) : List Char → Option (List Char × List Char)
  | [] => none
  | c :: cs => if c = sep then some ([], cs) else (splitFirst sep cs).map fun p => (c :: p.1, p.2)

/-- Puts a character at the front of the first part. -/
def pushFront (c : Char) : List (List Char) → List (List Char)
  | [] => [[c]]
  | part :: parts => (c :: part) :: parts

/-- The parts between the characters that pass the test. -/
def split (test : Char → Bool) : List Char → List (List Char)
  | [] => [[]]
  | c :: cs => if test c then [] :: split test cs else pushFront c (split test cs)

/-- The number of bytes of the text in UTF-8. -/
def byteLength (cs : List Char) : Nat := (cs.map Char.utf8Size).sum

end Concord.Text
