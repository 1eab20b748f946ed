import Concord.NameMap
import Concord.Output.Route

/-! A tree of directories and files. A file has a number of its own: it may be renamed while it is
    open, and what is open goes on pointing at it. -/

namespace Concord

/-- The names on the way to a place, from the root. -/
abbrev Path := List String

inductive Entry where
  | directory
  | file (number : Nat)
  deriving DecidableEq

structure FileSystem where
  /-- The working directory. -/
  here : Path
  entries : List (Path × Entry)
  /-- The bytes of the files, by number. -/
  contents : List (List UInt8)

/-- Where a route leads: a directory, and the last step from there, which the root has not. -/
structure Spot where
  parent : Path
  last : Option String
  slash : Bool

namespace FileSystem

/-- Without files: the working directory, and those above it. -/
def startingIn (here : Path) : FileSystem :=
  ⟨here, (List.range here.length).map fun i => (here.take (i + 1), .directory), []⟩

/-! ### Following routes -/

/-- What is at a place. The root is a directory. -/
def entry? (fs : FileSystem) (path : Path) : Option Entry :=
  if path.isEmpty then some .directory else fs.entries.lookup path

/-- The place that a step leads to from a directory. -/
def step (base : Path) (name : String) : Path :=
  if name = "." then base else if name = ".." then base.dropLast else base ++ [name]

def checkLength (name : String) : Except FileError Unit :=
  if Route.longestName < name.utf8ByteSize then .error .nameTooLong else .ok ()

/-- The directory that some steps lead to from a directory. -/
def follow (fs : FileSystem) : Path → List String → Except FileError Path
  | base, [] => .ok base
  | base, name :: rest => do
    checkLength name
    match fs.entry? (step base name) with
    | none => .error .notFound
    | some (.file _) => .error .notDirectory
    | some .directory => follow fs (step base name) rest

/-- Where a route leads. All of its steps but the last have to lead to directories. -/
def locate (fs : FileSystem) (r : Route) : Except FileError Spot := do
  let parent ← fs.follow (if r.absolute then [] else fs.here) r.steps.dropLast
  .ok ⟨parent, r.steps.getLast?, r.slash⟩

end FileSystem

namespace Spot

def place (s : Spot) : Path :=
  match s.last with
  | none => s.parent
  | some name => FileSystem.step s.parent name

/-- The last step is the name of an entry, which may yet have to be made. -/
def isNamed (s : Spot) : Bool := s.last.any fun name => name ≠ "." && name ≠ ".."

end Spot

namespace FileSystem

/-- What is at a spot. -/
def entryAt (fs : FileSystem) (s : Spot) : Except FileError (Option Entry) := do
  s.last.forM checkLength
  .ok (fs.entry? s.place)

/-- What a route leads to. -/
def find (fs : FileSystem) (r : Route) : Except FileError Entry := do
  let s ← fs.locate r
  match ← fs.entryAt s with
  | none => .error .notFound
  | some .directory => .ok .directory
  | some (.file n) => if s.slash then .error .notDirectory else .ok (.file n)

/-- There is something at a path. -/
def holds (fs : FileSystem) (path : String) : Bool :=
  match (Route.read path).bind fs.find with
  | .ok _ => true
  | .error _ => false

def isDirectory (fs : FileSystem) (r : Route) : Bool :=
  match fs.find r with
  | .ok .directory => true
  | _ => false

/-! ### Reading -/

/-- The bytes of a file. -/
def bytes (fs : FileSystem) (number : Nat) : List UInt8 := fs.contents.getD number []

/-- Bytes as text. -/
def textOf (bytes : List UInt8) : String :=
  let all := ByteArray.mk bytes.toArray
  if h : all.IsValidUTF8 then String.ofByteArray all h
  else String.ofList (bytes.map fun b => if b < 128 then Char.ofNat b.toNat else '\ufffd')

/-- The text of the file at a path. -/
def readText (fs : FileSystem) (path : String) : Except FileError String := do
  match ← fs.find (← Route.read path) with
  | .directory => .error .isDirectory
  | .file n => .ok (textOf (fs.bytes n))

/-! ### Changing files -/

/-- Puts an entry at a place, in place of what was there. -/
def setEntry (fs : FileSystem) (path : Path) (e : Entry) : FileSystem :=
  { fs with entries := (path, e) :: fs.entries.filter fun p => p.1 ≠ path }

def removeEntry (fs : FileSystem) (path : Path) : FileSystem :=
  { fs with entries := fs.entries.filter fun p => p.1 ≠ path }

/-- Creates a file, or empties the one that is there, and gives its number. -/
def create (fs : FileSystem) (path : String) : Except FileError (FileSystem × Nat) := do
  let s ← fs.locate (← Route.read path)
  if !s.isNamed || s.slash then .error .isDirectory
  else
    match ← fs.entryAt s with
    | some .directory => .error .isDirectory
    | some (.file n) => .ok ({ fs with contents := fs.contents.set n [] }, n)
    | none =>
      let n := fs.contents.length
      .ok ({ fs.setEntry s.place (.file n) with contents := fs.contents ++ [[]] }, n)

/-- Writes bytes into a file from an offset on; a gap is filled with zeros. -/
def write (fs : FileSystem) (number offset : Nat) (data : List UInt8) : FileSystem :=
  let old := fs.bytes number
  let front := old.take offset ++ List.replicate (offset - old.length) 0
  { fs with contents := fs.contents.set number (front ++ data ++ old.drop (offset + data.length)) }

/-- Moves a file to another name, in place of a file that has it. -/
def rename (fs : FileSystem) (source target : String) : Except FileError FileSystem := do
  let s ← fs.locate (← Route.read source)
  let t ← fs.locate (← Route.read target)
  match ← fs.entryAt s, ← fs.entryAt t with
  | none, _ => .error .notFound
  | some .directory, _ => .error .isDirectory
  | _, some .directory => .error .isDirectory
  | some (.file n), _ =>
    if s.slash || t.slash then .error .notDirectory
    else .ok ((fs.removeEntry s.place).setEntry t.place (.file n))

/-! ### Changing directories -/

/-- Creates a directory. -/
def makeDirectory (fs : FileSystem) (r : Route) : Except FileError FileSystem := do
  let s ← fs.locate r
  if !s.isNamed then .error .alreadyThere
  else
    match ← fs.entryAt s with
    | some _ => .error .alreadyThere
    | none => .ok (fs.setEntry s.place .directory)

/-- Removes an empty directory. -/
def removeDirectory (fs : FileSystem) (r : Route) : Except FileError FileSystem := do
  let s ← fs.locate r
  if s.last = some "." then .error .invalidArgument
  else if !s.isNamed then .error .notEmpty
  else
    match ← fs.entryAt s with
    | none => .error .notFound
    | some (.file _) => .error .notDirectory
    | some .directory =>
      if fs.entries.any fun q => q.1 ≠ s.place ∧ s.place.isPrefixOf q.1 then .error .notEmpty
      else .ok (fs.removeEntry s.place)

/-- Creates a directory, unless it is there. -/
def ensureDirectory (fs : FileSystem) (r : Route) : Except FileError FileSystem :=
  match fs.makeDirectory r with
  | .ok fs => .ok fs
  | .error e => if fs.isDirectory r then .ok fs else .error e

/-- Creates a directory, given with those above it. These are created only if it is not found
    without them. -/
def ensureAll (fs : FileSystem) : List Route → Except FileError FileSystem
  | [] => .ok fs
  | r :: above =>
    match fs.ensureDirectory r with
    | .error .notFound => do (← fs.ensureAll above).ensureDirectory r
    | result => result

/-- Creates the directory at a path, and those above it, as far as they are not there. -/
def makeDirectories (fs : FileSystem) (path : String) : Except FileError FileSystem := do
  let r ← Route.read path
  fs.ensureAll (r :: r.above)

/-! ### All at once -/

/-- Adds a file with its text, and the directories above it. -/
def addFile (fs : FileSystem) (path text : String) : FileSystem :=
  let fs := match fs.ensureAll (Route.ofText path).above with
    | .ok fs => fs
    | .error _ => fs
  match fs.create path with
  | .ok (fs, n) => fs.write n 0 text.toUTF8.toList
  | .error _ => fs

/-- Adds files with their texts. -/
def addFiles (fs : FileSystem) (files : List (String × String)) : FileSystem :=
  files.foldl (fun fs p => fs.addFile p.1 p.2) fs

/-- The shortest text of a place: from the working directory if it is below that, else from the
    root. -/
def label (fs : FileSystem) (path : Path) : String :=
  if fs.here.isPrefixOf path then "/".intercalate (path.drop fs.here.length)
  else "/" ++ "/".intercalate path

/-- All files with their texts. -/
def files (fs : FileSystem) : NameMap String :=
  NameMap.ofList (fs.entries.filterMap fun p =>
    match p.2 with
    | .file n => some (fs.label p.1, textOf (fs.bytes n))
    | .directory => none)

/-- The entries below the working directory in order, those of directories with a slash behind
    them. -/
def paths (fs : FileSystem) : List String :=
  let below := fs.entries.filter fun p => fs.here.isPrefixOf p.1 ∧ p.1 ≠ fs.here
  (NameMap.ofList (below.map fun p =>
    (fs.label p.1 ++ if p.2 = .directory then "/" else "", ()))).keys

end FileSystem
end Concord
