import Concord.Output.FileSystem
import Concord.Schedule.Writer

/-! Outputs as files of lines, each line a document: the header, then a record for each chunk. A
    file is written under a name that marks it as partial and gets its own name when it is
    closed. -/

namespace Concord

/-- A file that is open for writing: where the next bytes go, and those that are held back. -/
structure Handle where
  number : Nat
  offset : Nat
  buffer : List UInt8

/-- Outputs below a directory. -/
structure JsonLines where
  files : FileSystem
  directory : String
  handles : NameMap Handle

namespace JsonLines

def finalPath (dir name : String) : String := Route.join dir (name ++ ".jsonl")

def partialPath (dir name : String) : String := Route.join dir (name ++ ".jsonl.partial")

/-! ### Handles -/

/-- How many bytes a handle holds back at most. -/
def capacity : Nat := 8192

/-- Writes what is held back. -/
def flushHandle (fs : FileSystem) (h : Handle) : FileSystem × Handle :=
  if h.buffer.isEmpty then (fs, h)
  else (fs.write h.number h.offset h.buffer, ⟨h.number, h.offset + h.buffer.length, []⟩)

/-- Appends a record. It is held back if there is room, if need be after what was held back before
    is written; one that never fits is written at once. -/
def append (fs : FileSystem) (h : Handle) (record : List UInt8) : FileSystem × Handle :=
  let spare := capacity - h.buffer.length
  if record.length < spare then (fs, { h with buffer := h.buffer ++ record })
  else
    let (fs, h) := if spare < record.length then flushHandle fs h else (fs, h)
    if capacity ≤ record.length then
      (fs.write h.number h.offset record, { h with offset := h.offset + record.length })
    else (fs, { h with buffer := h.buffer ++ record })

/-! ### Records -/

/-- A document as a line. -/
def line (v : Json) : List UInt8 := (v.compact ++ "\n").toUTF8.toList

def floatJson (x : Double) : Json :=
  if x.isFinite then .number (.real x) else .null

def chunkJson (index : Nat) (data : Grid Double) : Json :=
  .object
    [ ("chunk", .nat index),
      ("shape", .list (data.shape.map .nat)),
      ("values", .list (data.data.toList.map floatJson)) ]

def headerJson (h : Header) : Json := .object [("header", h.toJson)]

/-- Appends a record to an output that is open. -/
def appendRecord (name : String) (v : Json) (s : JsonLines) : Written JsonLines :=
  match s.handles.get? name with
  | none => (s, .error ⟨name, "variable is not open"⟩)
  | some h =>
    let (files, h) := append s.files h (line v)
    ({ s with files, handles := s.handles.insert name h }, .ok ())

/-! ### The destination -/

def has (s : JsonLines) (name : String) : Bool := s.files.holds (finalPath s.directory name)

/-- An error of the file system at a path. -/
def fileError (name path : String) (e : FileError) : WriterError :=
  ⟨name, path ++ ": " ++ e.message⟩

/-- Starts the partial file anew. A handle of the name that is still open writes what it holds
    back. -/
def openOutput (h : Header) (s : JsonLines) : Written JsonLines :=
  let path := partialPath s.directory h.name
  match s.files.create path with
  | .error e => (s, .error (fileError h.name path e))
  | .ok (files, number) =>
    let files := match s.handles.get? h.name with
      | some old => (flushHandle files old).1
      | none => files
    appendRecord h.name (headerJson h)
      { s with files, handles := s.handles.insert h.name ⟨number, 0, []⟩ }

def writeChunk (name : String) (index : Nat) (data : Grid Double) (s : JsonLines) :
    Written JsonLines :=
  appendRecord name (chunkJson index data) s

/-- Writes what is held back and gives the file its name. If that fails the output stays open. -/
def close (name : String) (s : JsonLines) : Written JsonLines :=
  match s.handles.get? name with
  | none => (s, .error ⟨name, "variable is not open"⟩)
  | some h =>
    let source := partialPath s.directory name
    let (files, h) := flushHandle s.files h
    let s := { s with files, handles := s.handles.insert name h }
    match files.rename source (finalPath s.directory name) with
    | .error e => (s, .error (fileError name source e))
    | .ok files => ({ s with files, handles := s.handles.erase name }, .ok ())

/-- Leaves the partial file as it is. -/
def abandon (name : String) (s : JsonLines) : Written JsonLines :=
  match s.handles.get? name with
  | none => (s, .ok ())
  | some h =>
    ({ s with files := (flushHandle s.files h).1, handles := s.handles.erase name }, .ok ())

def writer : Writer JsonLines := ⟨has, openOutput, writeChunk, close, abandon⟩

/-- Outputs below a directory, which is created if it is not there. -/
def create (files : FileSystem) (directory : String) : Except WriterError JsonLines :=
  match files.makeDirectories directory with
  | .ok files => .ok ⟨files, directory, .empty⟩
  | .error e => .error ⟨directory, e.message⟩

/-- The files after everything that is held back is written. -/
def release (s : JsonLines) : FileSystem :=
  s.handles.values.foldl (fun fs h => (flushHandle fs h).1) s.files

end JsonLines
end Concord
