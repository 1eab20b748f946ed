import Concord.Config
import Concord.Decimal.Reading
import Concord.Text.Class

/-! The arguments of a command: a subcommand, then options by their long or short names, and what
    stands on its own. -/

namespace Concord.CommandLine

/-- An option: whether it takes a value, and whether it may be given more than once. -/
structure OptionSpec where
  long : String
  short : Option Char
  takesValue : Bool
  repeated : Bool

/-- What is given: options with their values (flags have none), and what stands on its own. -/
inductive Given where
  | option (long : String) (value : String)
  | flag (long : String)
  | positional (value : String)

/-- Only what starts with a dash and goes on is an option. -/
def isOption (arg : String) : Bool :=
  match arg.toList with
  | '-' :: _ :: _ => true
  | _ => false

/-- An argument by itself: given as a whole, or an option that waits for its value. -/
inductive Piece where
  | whole (g : Given)
  | waiting (long : String)
  /-- All that follows stands on its own. -/
  | rest

/-- An option by its long name, with or without a value behind an equals sign. -/
def readLong (specs : List OptionSpec) (cs : List Char) : Option Piece := do
  let (name, value) := match Text.splitFirst '=' cs with
    | some (name, value) => (name, some (String.ofList value))
    | none => (cs, none)
  let spec ← specs.find? fun s => s.long == String.ofList name
  match spec.takesValue, value with
  | true, some v => some (.whole (.option spec.long v))
  | true, none => some (.waiting spec.long)
  | false, none => some (.whole (.flag spec.long))
  | false, some _ => none

/-- An option by its short name, its value behind it, with or without an equals sign. -/
def readShort (specs : List OptionSpec) (c : Char) (cs : List Char) : Option Piece := do
  let spec ← specs.find? fun s => s.short == some c
  match cs with
  | [] => some (.waiting spec.long)
  | '=' :: value => some (.whole (.option spec.long (String.ofList value)))
  | value => some (.whole (.option spec.long (String.ofList value)))

def readPiece (specs : List OptionSpec) (arg : String) : Option Piece :=
  match arg.toList with
  | ['-', '-'] => some .rest
  | '-' :: '-' :: cs => readLong specs cs
  | '-' :: c :: cs => readShort specs c cs
  | _ => some (.whole (.positional arg))

/-- What some arguments give, an option waiting for its value in front of them. -/
def scan (specs : List OptionSpec) : Option String → List String → Option (List Given)
  | none, [] => some []
  | some _, [] => none
  | some long, arg :: rest =>
    if isOption arg then none else (scan specs none rest).map (.option long arg :: ·)
  | none, arg :: rest => do
    match ← readPiece specs arg with
    | .whole g => some (g :: (← scan specs none rest))
    | .waiting long => scan specs (some long) rest
    | .rest => some (rest.map .positional)

def valuesOf (given : List Given) (long : String) : List String :=
  given.filterMap fun
    | .option l v => if l == long then some v else none
    | _ => none

def countOf (given : List Given) (long : String) : Nat :=
  given.countP fun
    | .option l _ => l == long
    | .flag l => l == long
    | .positional _ => false

def positionals (given : List Given) : List String :=
  given.filterMap fun
    | .positional v => some v
    | _ => none

/-- No option is given more often than it may. -/
def obeys (specs : List OptionSpec) (given : List Given) : Bool :=
  specs.all fun s => s.repeated || countOf given s.long ≤ 1

/-! ### Values -/

/-- The value of an option, if it is given; one that cannot be read makes the whole fail. -/
def optional (read : String → Option α) (given : List Given) (long : String) : Option (Option α) :=
  match valuesOf given long with
  | [] => some none
  | v :: _ => (read v).map some

def required (read : String → Option α) (given : List Given) (long : String) : Option α :=
  (optional read given long).bind id

/-- The path to a file. -/
def path? (v : String) : Option String := if v == "" then none else some v

/-- A whole number of 64 bits. -/
def word? (v : String) : Option Nat :=
  let ds := match v.toList with
    | '+' :: ds => ds
    | ds => ds
  if ds.isEmpty || !ds.all Char.isDigit then none
  else if Decimal.ofDigits ds < 2 ^ 64 then some (Decimal.ofDigits ds) else none

/-! ### Commands -/

/-- The files that a command works from. -/
structure Inputs where
  standard : String
  definitions : String
  dataset : String
  config : Option String

/-- What takes the place of settings in the file. -/
structure Overrides where
  workers : Option Nat
  chunkLength : Option Nat
  memoryBudget : Option Nat
  overwrite : Option Overwrite
  selection : List String
  provenance : Bool

inductive Command where
  | run (inputs : Inputs) (output : String) (overrides : Overrides)
  | dependencies (inputs : Inputs)
  | explain (name : String) (inputs : Inputs) (overrides : Overrides)

def single (long : String) (short : Option Char) : OptionSpec := ⟨long, short, true, false⟩

def inputSpecs : List OptionSpec :=
  [ single "standard" (some 's'), single "definitions" (some 'd'), single "dataset" (some 'i'),
    single "config" (some 'c') ]

def overrideSpecs : List OptionSpec :=
  [ single "workers" none, single "chunk-length" none, single "memory-budget" none,
    single "overwrite" none, ⟨"variable", none, true, true⟩, ⟨"provenance", none, false, false⟩ ]

def readInputs (given : List Given) : Option Inputs := do
  some
    { standard := ← required path? given "standard"
      definitions := ← required path? given "definitions"
      dataset := ← required path? given "dataset"
      config := ← optional path? given "config" }

def readOverrides (given : List Given) : Option Overrides := do
  some
    { workers := ← optional word? given "workers"
      chunkLength := ← optional word? given "chunk-length"
      memoryBudget := ← optional word? given "memory-budget"
      overwrite := ← optional Config.overwriteOf given "overwrite"
      selection := valuesOf given "variable"
      provenance := countOf given "provenance" ≠ 0 }

/-- What the arguments behind a subcommand give. -/
def readGiven (specs : List OptionSpec) (args : List String) : Option (List Given) :=
  (scan specs none args).filter (obeys specs)

/-- The command that some arguments are, if they are used rightly. -/
def readCommand : List String → Option Command
  | "run" :: args => do
    let given ← readGiven (single "output" (some 'o') :: inputSpecs ++ overrideSpecs) args
    match positionals given with
    | [] =>
      some (.run (← readInputs given) (← required path? given "output") (← readOverrides given))
    | _ => none
  | "deps" :: args => do
    let given ← readGiven inputSpecs args
    match positionals given with
    | [] => some (.dependencies (← readInputs given))
    | _ => none
  | "explain" :: args => do
    let given ← readGiven (inputSpecs ++ overrideSpecs) args
    match positionals given with
    | [name] => some (.explain name (← readInputs given) (← readOverrides given))
    | _ => none
  | _ => none

end Concord.CommandLine
