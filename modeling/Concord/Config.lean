import Concord.Json.Decode

/-! The settings of a run. -/

namespace Concord

/-- What to do with a variable whose output is already there. -/
inductive Overwrite where
  | replace
  | skip
  | fail
  deriving DecidableEq

structure Config where
  /-- How many bytes the largest value of a chunk may take. -/
  memoryBudget : Nat
  /-- The length of chunks, whatever the budget. -/
  chunkLength : Option Nat
  /-- Dimensions to cut along; the first one that an input has is taken. -/
  chunkDimensions : List String
  workers : Nat
  /-- From how many independent chunks on a variable is split into work for several workers. -/
  splitThreshold : Option Nat
  /-- The variables to produce, if not all. -/
  selection : Option (List String)
  overwrite : Overwrite
  /-- How often a failed call of the writer is tried again. -/
  writerRetries : Nat
  /-- The names that dimensions of inputs have in the output. -/
  dimensionMap : NameMap String
  /-- Whether outputs carry the text of their definition. -/
  provenance : Bool

namespace Config

def standard : Config where
  memoryBudget := 256 * 1024 * 1024
  chunkLength := none
  chunkDimensions := ["time"]
  workers := 1
  splitThreshold := none
  selection := none
  overwrite := .replace
  writerRetries := 3
  dimensionMap := .empty
  provenance := false

/-- Why settings cannot be used. -/
inductive Fault where
  /-- The document has not the form of settings. -/
  | form
  | noBudget
  | noChunkLength
  | noThreshold
  deriving DecidableEq

/-- The setting that is wrong, in words. -/
def Fault.detail : Fault → String
  | form => ""
  | noBudget => "memory_budget_bytes must be positive"
  | noChunkLength => "chunk_length must be positive"
  | noThreshold => "chunk_granularity_threshold must be positive"

def Fault.message (f : Fault) : String := "invalid config: " ++ f.detail

/-- Settings that must be positive are. -/
def validate (c : Config) : Except Fault Unit :=
  if c.memoryBudget = 0 then .error .noBudget
  else if c.chunkLength = some 0 then .error .noChunkLength
  else if c.splitThreshold = some 0 then .error .noThreshold
  else .ok ()

/-! ### Documents -/

def policyName : Overwrite → String
  | .replace => "replace"
  | .skip => "skip"
  | .fail => "fail"

def overwriteOf (name : String) : Option Overwrite :=
  [Overwrite.replace, .skip, .fail].find? fun o => policyName o == name

/-- A policy by its name, or as an object with the name as its only member, of value `null`. -/
def overwrite? : Json.Tree → Option Overwrite
  | .text (some name) => overwriteOf name
  | .object [(some name, .null)] => overwriteOf name
  | _ => none

def fields : List String :=
  ["memory_budget_bytes", "chunk_length", "chunk_dimensions", "workers",
    "chunk_granularity_threshold", "variables", "overwrite", "writer_retries",
    "dimension_map", "provenance"]

open Json.Tree in
/-- The settings that a tree gives; what it leaves out has its default. -/
def ofTree (t : Json.Tree) : Option Config := do
  match ← record? fields t with
  | [memoryBudget, chunkLength, chunkDimensions, workers, splitThreshold, selection, overwrite,
      writerRetries, dimensionMap, provenance] =>
    some
      { memoryBudget := ← defaulted word? standard.memoryBudget memoryBudget
        chunkLength := ← defaulted (option? word?) none chunkLength
        chunkDimensions := ← defaulted (list? text?) standard.chunkDimensions chunkDimensions
        workers := ← defaulted word? standard.workers workers
        splitThreshold := ← defaulted (option? word?) none splitThreshold
        selection := ← defaulted (option? (list? text?)) none selection
        overwrite := ← defaulted overwrite? standard.overwrite overwrite
        writerRetries := ← defaulted (nat? (2 ^ 32 - 1)) standard.writerRetries writerRetries
        dimensionMap := ← defaulted (map? text?) .empty dimensionMap
        provenance := ← defaulted bool? false provenance }
  | _ => none

/-- The settings of a document. -/
def read (s : String) : Except Fault Config :=
  match (Json.Tree.read? s).bind ofTree with
  | none => .error .form
  | some c => (validate c).map fun _ => c

end Config
end Concord
