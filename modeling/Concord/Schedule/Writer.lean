import Concord.Dataset

/-! Where outputs go. A destination is a state and five ways to use it; each call may fail, and may
    have changed the state even then. -/

namespace Concord

/-- What a destination has to know of an output. -/
structure Header where
  name : String
  dims : Signature
  unit : String
  attributes : Attributes
  /-- The axis along which chunks follow each other, if there is more than one. -/
  chunkDimension : Option String

/-- The state behind a call, and whether it succeeded. -/
abbrev Written (σ : Type) := σ × Except WriterError Unit

structure Writer (σ : Type) where
  /-- There is a complete output of the name. -/
  has : σ → String → Bool
  openOutput : Header → σ → Written σ
  writeChunk : String → Nat → Grid Double → σ → Written σ
  close : String → σ → Written σ
  /-- Ends an output that was opened and cannot be completed. -/
  abandon : String → σ → Written σ

/-- Calls until one succeeds, at most `retries` times more than once. -/
def persist {σ : Type} (call : σ → Written σ) : Nat → σ → Written σ
  | 0, s => call s
  | retries + 1, s =>
    match call s with
    | (s, .ok ()) => (s, .ok ())
    | (s, .error _) => persist call retries s

/-! ### Headers as documents -/

def dimensionJson (d : Dimension) : Json :=
  .object [("len", Json.option Json.nat d.length), ("name", .text d.name)]

def signatureJson (s : Signature) : Json := .list (s.map dimensionJson)

def Header.toJson (h : Header) : Json :=
  .object
    [ ("attributes", Json.ofMap h.attributes),
      ("chunk_dimension", Json.option .text h.chunkDimension),
      ("dims", signatureJson h.dims),
      ("name", .text h.name),
      ("unit", .text h.unit) ]

end Concord
