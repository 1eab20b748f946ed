import Concord.Schedule.Writer

/-! Outputs kept in memory. Writing can be made to fail a number of times. -/

namespace Concord

/-- An output that was closed. -/
structure WrittenVariable where
  header : Header
  data : Grid Double
  chunks : Nat

/-- An output that is open: its header, and its chunks so far. -/
structure PendingVariable where
  header : Header
  chunks : List (Grid Double)

/-- A successful call. -/
inductive WriterCall where
  | opened (name : String)
  | wrote (name : String) (index : Nat)
  | closed (name : String)
  | abandoned (name : String)
  deriving DecidableEq

def WriterCall.text : WriterCall → String
  | opened name => "open " ++ name
  | wrote name index => "chunk " ++ name ++ " " ++ toString index
  | closed name => "close " ++ name
  | abandoned name => "abandon " ++ name

structure Memory where
  pending : NameMap PendingVariable
  finished : NameMap WrittenVariable
  /-- Names that count as outputs that are there. -/
  existing : List String
  /-- How many writings of a name are still to fail. -/
  failing : NameMap Nat
  calls : List WriterCall

namespace Memory

def empty : Memory := ⟨.empty, .empty, [], .empty, []⟩

/-- Lets a name count as an output that is there. -/
def markExisting (m : Memory) (name : String) : Memory := { m with existing := name :: m.existing }

/-- Lets the next writings of a name fail. -/
def failWrites (m : Memory) (name : String) (times : Nat) : Memory :=
  { m with failing := m.failing.insert name times }

def has (m : Memory) (name : String) : Bool := m.existing.contains name || m.finished.contains name

/-- The names that were abandoned, in order. -/
def abandonedNames (m : Memory) : List String :=
  m.calls.filterMap fun
    | .abandoned name => some name
    | _ => none

def note (m : Memory) (c : WriterCall) : Memory := { m with calls := m.calls ++ [c] }

def openOutput (h : Header) (m : Memory) : Written Memory :=
  ({ m with pending := m.pending.insert h.name ⟨h, []⟩ }.note (.opened h.name), .ok ())

/-- A writing that is to fail. -/
def failsNow (m : Memory) (name : String) : Bool := (m.failing.get? name).any (0 < ·)

def writeChunk (name : String) (index : Nat) (data : Grid Double) (m : Memory) : Written Memory :=
  if m.failsNow name then
    ({ m with failing := m.failing.alter name fun n => n.map (· - 1) },
      .error ⟨name, "injected write failure"⟩)
  else
    match m.pending.get? name with
    | none => (m, .error ⟨name, "variable is not open"⟩)
    | some p =>
      if index ≠ p.chunks.length then
        (m, .error ⟨name, "chunk " ++ toString index ++ " arrived, expected " ++
          toString p.chunks.length⟩)
      else
        ({ m with pending := m.pending.insert name ⟨p.header, p.chunks ++ [data]⟩ }.note
          (.wrote name index), .ok ())

/-- The chunks of an output as one array. -/
def assemble (p : PendingVariable) : Except String (Grid Double) :=
  let axis := p.header.chunkDimension.bind (Signature.position p.header.dims)
  match axis, p.chunks with
  | _, [] => .error "no chunks written"
  | none, [g] => .ok g
  | none, chunks => .error (toString chunks.length ++ " chunks without a chunk dimension")
  | some axis, chunks => (Grid.concat axis chunks).mapError Grid.ShapeFault.message

/-- Ends an output. It is no longer open, whether its chunks fit together or not. -/
def close (name : String) (m : Memory) : Written Memory :=
  match m.pending.get? name with
  | none => (m, .error ⟨name, "variable is not open"⟩)
  | some p =>
    let m := { m with pending := m.pending.erase name }
    match assemble p with
    | .error e => (m, .error ⟨name, e⟩)
    | .ok data =>
      ({ m with finished := m.finished.insert name ⟨p.header, data, p.chunks.length⟩ }.note
        (.closed name), .ok ())

def abandon (name : String) (m : Memory) : Written Memory :=
  ({ m with pending := m.pending.erase name }.note (.abandoned name), .ok ())

/-- The memory as a destination. -/
def writer : Writer Memory := ⟨has, openOutput, writeChunk, close, abandon⟩

end Memory
end Concord
