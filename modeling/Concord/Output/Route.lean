import Concord.Text.Class

/-! Paths as they are written, and what can be wrong with one, or with what it leads to. -/

namespace Concord

/-- Why an operation on files fails. -/
inductive FileError where
  | notFound
  | alreadyThere
  | notDirectory
  | isDirectory
  | invalidArgument
  | nameTooLong
  | notEmpty
  /-- No path has the character of code zero in it. -/
  | zeroCharacter
  deriving DecidableEq

def FileError.message : FileError → String
  | notFound => "No such file or directory (os error 2)"
  | alreadyThere => "File exists (os error 17)"
  | notDirectory => "Not a directory (os error 20)"
  | isDirectory => "Is a directory (os error 21)"
  | invalidArgument => "Invalid argument (os error 22)"
  | nameTooLong => "File name too long (os error 36)"
  | notEmpty => "Directory not empty (os error 39)"
  | zeroCharacter => "file name contained an unexpected NUL byte"

/-- A path as it is written: where it starts, and the steps that it takes from there. -/
structure Route where
  /-- It starts at the root, not in the working directory. -/
  absolute : Bool
  /-- Each step is the name of an entry, a point, which stays where it is, or two points, which go to
      the directory above. -/
  steps : List String
  /-- There is a slash at its end, so it leads to a directory, if anywhere. -/
  slash : Bool
  deriving DecidableEq

namespace Route

/-- The length of the longest path, in bytes. -/
def longest : Nat := 4095

/-- The length of the longest name, in bytes. -/
def longestName : Nat := 255

/-- The route that a text is. Between two steps there may be several slashes. -/
def ofText (text : String) : Route where
  absolute := text.startsWith "/"
  steps := ((Text.split (· == '/') text.toList).map String.ofList).filter (· ≠ "")
  slash := text.endsWith "/"

/-- The route that a text is, if it can be one. -/
def read (text : String) : Except FileError Route :=
  if text.toList.contains '\x00' then .error .zeroCharacter
  else if text.isEmpty then .error .notFound
  else if longest < text.utf8ByteSize then .error .nameTooLong
  else .ok (ofText text)

def text (r : Route) : String :=
  (if r.absolute then "/" else "") ++ "/".intercalate r.steps ++ if r.slash then "/" else ""

/-- The text of a path below a directory. -/
def join (dir name : String) : String :=
  if name.startsWith "/" then name else if dir.endsWith "/" then dir ++ name else dir ++ "/" ++ name

/-- The steps to the directories above, the nearest one first, all backwards. Points at the end of a
    path do not count as steps. -/
def stepsAbove : List String → List (List String)
  | [] => []
  | name :: rest =>
    if name = "." then stepsAbove rest else rest.dropWhile (· = ".") :: stepsAbove rest

/-- The routes to the directories above, the nearest one first. -/
def above (r : Route) : List Route :=
  (stepsAbove r.steps.reverse).map fun steps => ⟨r.absolute, steps.reverse, false⟩

end Route
end Concord
