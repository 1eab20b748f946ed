import Concord.Function.Builtin
import Concord.Schedule.Dispatch

/-! The whole way: definitions are compiled, resolved towards the standard, cut into chunks,
    evaluated and written. -/

namespace Concord

/-- A task: which variables to produce, from what, and how. -/
structure Conformance where
  standard : Standard
  definitions : Definitions
  source : Source
  config : Config
  functions : Functions
  converter : Measure.Converter

namespace Conformance

/-- The names of the variables to produce. -/
def selected (t : Conformance) : List String := t.config.selection.getD t.standard.keys

def compile (t : Conformance) : Compilation :=
  Compilation.compile t.functions t.source t.definitions

def resolution (t : Conformance) : Resolution.Context :=
  ⟨t.functions, t.source, t.converter, t.config.dimensionMap⟩

/-- Resolves a compiled variable. -/
def resolveIn (t : Conformance) (c : Compilation) (name : String) (target : Target) :
    Except Failure ResolvedVariable :=
  match c.failures.get? name, c.compiled.get? name with
  | some f, _ => .error f
  | none, none => .error (.unresolvedReference name)
  | none, some v => Resolution.resolve t.resolution v target

/-- Compiles and resolves a single variable. -/
def resolve (t : Conformance) (name : String) : Except Failure ResolvedVariable :=
  match t.standard.get? name with
  | none => .error (.unresolvedReference name)
  | some target => t.resolveIn t.compile name target

/-- The inputs that a variable reads, or why it cannot be compiled. -/
def inputsOf (c : Compilation) (name : String) : Except Failure (List String) :=
  match c.failures.get? name, c.compiled.get? name with
  | some f, _ => .error f
  | none, some v => .ok v.inputs
  | none, none => .error (.unresolvedReference name)

/-- The inputs of each variable to produce that has a definition. -/
def dependencies (t : Conformance) : NameMap (Except Failure (List String)) :=
  let c := t.compile
  NameMap.ofList
    ((t.selected.filter t.definitions.contains).map fun name => (name, inputsOf c name))

/-! ### Runs -/

/-- Resolves and plans a variable. -/
def prepare (t : Conformance) (c : Compilation) (name : String) (target : Target) :
    Except Failure Job := do
  let v ← t.resolveIn c name target
  let plan ← Plan.build v t.functions t.config
  .ok (Job.ofPlan v plan t.config.provenance)

/-- The report and the jobs so far. -/
structure Progress where
  report : Report
  jobs : List Job

def Progress.settle (p : Progress) (name : String) (s : Status) : Progress :=
  { p with report := p.report.record name s }

/-- Prepares a variable, or reports why there is nothing to do for it. -/
def enlist (t : Conformance) (c : Compilation) (has : String → Bool) (p : Progress)
    (name : String) : Progress :=
  match t.standard.get? name with
  | none => p.settle name (.skipped "not in the standard")
  | some target =>
    if !t.definitions.contains name then p.settle name (.skipped "no definition")
    else if has name && t.config.overwrite = .skip then p.settle name (.skipped "output exists")
    else if has name && t.config.overwrite = .fail then
      p.settle name (.ofFailure (.outputExists name))
    else
      match t.prepare c name target with
      | .ok j => { p with jobs := p.jobs ++ [j] }
      | .error f => p.settle name (.ofFailure f)

/-- The destination, the report and the readings after a run. -/
structure Outcome (σ : Type) where
  state : σ
  report : Report
  reads : List Reading

/-- Produces all selected variables. -/
def run {σ : Type} (t : Conformance) (writer : Writer σ) (cancelled : σ → Bool) (state : σ) :
    Outcome σ :=
  let c := t.compile
  let p := t.selected.foldl (t.enlist c (writer.has state)) ⟨.empty, []⟩
  let (k, reads) := Dispatch.run
    ⟨t.source, t.converter, ⟨writer, p.jobs, t.config.writerRetries⟩, t.config.workers, cancelled⟩
    t.config.splitThreshold state p.report
  ⟨k.state, k.report, reads⟩

end Conformance
end Concord
