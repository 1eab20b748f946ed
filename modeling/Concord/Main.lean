import Concord.CommandLine.Commands

/-! The command: it looks at the files that its arguments name, lets the command work on them, and
    writes back what has changed. -/

open Concord CommandLine

namespace Concord.Main

/-- The text of a file, if there is one that can be read. -/
def readFile? (path : String) : IO (Option String) := do
  try
    return some (← IO.FS.readFile path)
  catch _ => return none

/-- Takes what is at a route into a file system. -/
def observe (fs : FileSystem) (r : Route) : IO FileSystem := do
  if ← ((← IO.currentDir) / r.text).isDir then
    return (fs.makeDirectory r).toOption.getD fs
  match ← readFile? r.text with
  | some text => return fs.addFile r.text text
  | none => return fs

/-- Takes what is at some paths into a file system, and all that is on the way there. -/
def observeAll (fs : FileSystem) (paths : List String) : IO FileSystem :=
  paths.foldlM (fun fs path => do
    let r := Route.ofText path
    (r.above.reverse ++ [{ r with slash := false }]).foldlM observe fs) fs

/-- Makes the directories that are new, and writes the files that are new or have another text than
    before. -/
def save (before after : FileSystem) : IO Unit := do
  for path in after.paths do
    if path.endsWith "/" && !before.paths.contains path then IO.FS.createDirAll path
  for (path, text) in after.files.entries do
    if before.files.get? path ≠ some text then IO.FS.writeFile path text

end Concord.Main

/-- Runs the command and gives its exit code. -/
def main (args : List String) : IO UInt32 := do
  match readCommand args with
  | none =>
    IO.eprintln usage
    return 2
  | some command =>
    let here := (Route.ofText (← IO.currentDir).toString).steps
    let inputs ← Concord.Main.observeAll (.startingIn here) (inputPaths command)
    let files ← Concord.Main.observeAll inputs (outputPaths inputs command)
    match execute files command with
    | .ok outcome =>
      IO.print outcome.output
      Concord.Main.save files outcome.files
      return outcome.code.toUInt32
    | .error fault =>
      IO.eprintln ("Error: " ++ fault.message)
      return 2
