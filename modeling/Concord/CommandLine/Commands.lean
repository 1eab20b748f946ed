import Concord.CommandLine.Arguments
import Concord.Conformance
import Concord.Explain
import Concord.Output.JsonLines

/-! What commands do to a file system, what they print, and with which code they end. -/

namespace Concord.CommandLine

/-- Why a command cannot do its work. -/
inductive Fault where
  | standardFile (e : FileError)
  | standardForm
  | definitionsFile (e : FileError)
  | definitionsForm
  | definitions (f : Definitions.Fault)
  | datasetFile (path : String) (e : FileError)
  | datasetForm
  | dataset (e : SourceError)
  | configFile (e : FileError)
  | config (f : Config.Fault)
  | output (e : WriterError)
  | failure (f : Failure)

def unexpected : String := "unexpected form"

/-- The fault in words. -/
def Fault.message : Fault → String
  | standardFile e => "failed to read standard: " ++ e.message
  | standardForm => "invalid standard JSON: " ++ unexpected
  | definitionsFile e => "failed to read definitions: " ++ e.message
  | definitionsForm => "invalid definitions JSON: " ++ unexpected
  | definitions f => f.message
  | datasetFile path e => (SourceError.mk path e.message).text
  | datasetForm => (SourceError.mk "<dataset>" unexpected).text
  | dataset e => e.text
  | configFile e => "failed to read config: " ++ e.message
  | config .form => "invalid config JSON: " ++ unexpected
  | config f => f.message
  | output e => e.text
  | failure f => f.message

/-! ### Reading files -/

def loadStandard (fs : FileSystem) (path : String) : Except Fault Standard := do
  let text ← (fs.readText path).mapError .standardFile
  match Standard.read text with
  | some s => .ok s
  | none => .error .standardForm

/-- The ending of a file name: what stands behind its last point, if that is not its first
    character. -/
def extension (path : String) : Option String :=
  let name := (((Route.ofText path).steps.filter (· ≠ ".")).getLastD "").toList.reverse
  match Text.splitFirst '.' name with
  | some (ending, _ :: _) => some (String.ofList ending.reverse)
  | _ => none

/-- The definitions of a file: an object if the file is named as one, else lines. -/
def loadDefinitions (fs : FileSystem) (path : String) : Except Fault Definitions := do
  let text ← (fs.readText path).mapError .definitionsFile
  if extension path = some "json" then
    match Definitions.readObject text with
    | some d => .ok d
    | none => .error .definitionsForm
  else (Definitions.readText text).mapError .definitions

def loadDataset (fs : FileSystem) (path : String) : Except Fault Dataset := do
  let text ← (fs.readText path).mapError (.datasetFile path)
  match Dataset.read text with
  | .ok d => .ok d
  | .error .form => .error .datasetForm
  | .error (.source e) => .error (.dataset e)

def loadConfig (fs : FileSystem) (path : String) : Except Fault Config := do
  let text ← (fs.readText path).mapError .configFile
  (Config.read text).mapError .config

/-- The task that the input files give. -/
def load (fs : FileSystem) (i : Inputs) : Except Fault Conformance := do
  let standard ← loadStandard fs i.standard
  let definitions ← loadDefinitions fs i.definitions
  let dataset ← loadDataset fs i.dataset
  let config ← match i.config with
    | some path => loadConfig fs path
    | none => .ok Config.standard
  .ok ⟨standard, definitions, dataset.source, config, Functions.builtins, Measure.linear⟩

/-- The settings with others in their place. -/
def Overrides.apply (o : Overrides) (c : Config) : Except Fault Config := do
  let c :=
    { c with
      workers := o.workers.getD c.workers
      chunkLength := o.chunkLength <|> c.chunkLength
      memoryBudget := o.memoryBudget.getD c.memoryBudget
      overwrite := o.overwrite.getD c.overwrite
      selection := if o.selection.isEmpty then c.selection else some o.selection
      provenance := c.provenance || o.provenance }
  (Config.validate c).mapError .config
  .ok c

/-- The task of a command. -/
def prepare (fs : FileSystem) (i : Inputs) (o : Overrides) : Except Fault Conformance := do
  let t ← load fs i
  .ok { t with config := ← o.apply t.config }

/-! ### Commands -/

/-- What a command leaves behind. -/
structure Outcome where
  code : Nat
  output : String
  files : FileSystem

/-- Produces the variables and prints the report. -/
def runCommand (fs : FileSystem) (i : Inputs) (output : String) (o : Overrides) :
    Except Fault Outcome := do
  let t ← prepare fs i o
  let lines ← (JsonLines.create fs output).mapError .output
  let r := t.run JsonLines.writer (fun _ => false) lines
  .ok ⟨r.report.exitCode, r.report.toJson.pretty "" ++ "\n", r.state.release⟩

/-- The line that tells which inputs a variable reads. -/
def dependencyLine (name : String) (inputs : Except Failure (List String)) : String :=
  match inputs with
  | .ok names => name ++ ": " ++ ", ".intercalate names ++ "\n"
  | .error f => name ++ ": error: " ++ f.message ++ "\n"

def isError : Except ε α → Bool
  | .ok _ => false
  | .error _ => true

/-- Prints the inputs of each variable. -/
def dependenciesCommand (fs : FileSystem) (i : Inputs) : Except Fault Outcome := do
  let t ← load fs i
  let d := t.dependencies
  .ok ⟨if d.values.any isError then 1 else 0,
    String.join (d.entries.map fun p => dependencyLine p.1 p.2), fs⟩

/-- Prints the resolved graph of a variable. -/
def explainCommand (fs : FileSystem) (name : String) (i : Inputs) (o : Overrides) :
    Except Fault Outcome := do
  let t ← prepare fs i o
  let v ← (t.resolve name).mapError .failure
  let plan ← (Plan.build v t.functions t.config).mapError .failure
  .ok ⟨0, Explain.text v (some plan), fs⟩

def execute (fs : FileSystem) : Command → Except Fault Outcome
  | .run i output o => runCommand fs i output o
  | .dependencies i => dependenciesCommand fs i
  | .explain name i o => explainCommand fs name i o

/-! ### What a command touches -/

def Command.inputs : Command → Inputs
  | .run i _ _ => i
  | .dependencies i => i
  | .explain _ i _ => i

/-- The files that a command reads. -/
def inputPaths (c : Command) : List String :=
  let i := c.inputs
  [i.standard, i.definitions, i.dataset] ++ i.config.toList

/-- Where a command may find something in the place of its outputs. -/
def outputPaths (fs : FileSystem) : Command → List String
  | .run i output o =>
    match prepare fs i o with
    | .ok t =>
      output :: t.selected.flatMap fun name =>
        [JsonLines.finalPath output name, JsonLines.partialPath output name]
    | .error _ => []
  | _ => []

/-- How the command is used. -/
def usage : String :=
  "usage: run|deps|explain VARIABLE --standard FILE --definitions FILE --dataset FILE " ++
    "[--config FILE] [--output DIRECTORY] [--workers N] [--chunk-length N] [--memory-budget N] " ++
    "[--overwrite replace|skip|fail] [--variable NAME]... [--provenance]"

/-- What comes of some arguments: an outcome, a fault, or, for arguments used wrongly, nothing. -/
def main? (fs : FileSystem) (args : List String) : Option (Except Fault Outcome) :=
  (readCommand args).map (execute fs)

end Concord.CommandLine
