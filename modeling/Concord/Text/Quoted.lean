import Concord.Text.Class

/-! Quoted text as messages show it: names in double quotes with escapes, and lists in brackets. -/

namespace Concord.Text

/-- A character inside quotes: a few have escapes of their own, hidden ones go by number. -/
def quoteChar (c : Char) : List Char :=
  if c = '"' then ['\\', '"']
  else if c = '\\' then ['\\', '\\']
  else if c = '\n' then ['\\', 'n']
  else if c = '\r' then ['\\', 'r']
  else if c = '\t' then ['\\', 't']
  else if c.toNat = 0 then ['\\', '0']
  else if c.toNat < 32 || inRanges hiddenRanges c then
    ['\\', 'u', '\x7b'] ++ Nat.toDigits 16 c.toNat ++ ['\x7d']
  else [c]

/-- The text in double quotes. -/
def quote (s : String) : String :=
  String.ofList ('"' :: s.toList.flatMap quoteChar ++ ['"'])

/-- The items between brackets, a comma and a space between two. -/
def bracketed (items : List String) : String := "[" ++ ", ".intercalate items ++ "]"

/-- A list of names in a message: `["a", "b"]`. -/
def quotedNames (names : List String) : String := bracketed (names.map quote)

/-- A list of numbers in a message: `[2, 3]`. -/
def numbers (ns : List Nat) : String := bracketed (ns.map toString)

end Concord.Text
