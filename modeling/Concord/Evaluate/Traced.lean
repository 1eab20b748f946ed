import Concord.Dataset

/-! What an evaluation does, in order: the parts of inputs that it reads and the chunks that it
    gives out, and how it ends. A consumer may refuse a chunk; then the rest does not happen. -/

namespace Concord

inductive Event where
  | read (name : String) (bounds : Option Bounds)
  | emit (index : Nat) (value : Grid Double)

/-- An outcome, and what was done on the way to it. -/
structure Traced (ε α : Type) where
  events : List Event
  outcome : Except ε α

namespace Traced

variable {ε ε' α β σ : Type}

def ofExcept (outcome : Except ε α) : Traced ε α := ⟨[], outcome⟩

def fail (e : ε) : Traced ε α := ⟨[], .error e⟩

/-- One thing done after the other; a failure ends it. -/
def andThen (t : Traced ε α) (f : α → Traced ε β) : Traced ε β :=
  match t.outcome with
  | .error e => ⟨t.events, .error e⟩
  | .ok a => ⟨t.events ++ (f a).events, (f a).outcome⟩

instance : Monad (Traced ε) where
  pure a := ⟨[], .ok a⟩
  bind := andThen

/-- Gives out a chunk. -/
def emit (index : Nat) (value : Grid Double) : Traced ε Unit := ⟨[.emit index value], .ok ()⟩

/-- Reads a part of an input. -/
def fetch (source : Source) (name : String) (bounds : Option Bounds) :
    Traced SourceError (Grid Double) :=
  ⟨[.read name bounds], source.fetch name bounds⟩

/-- The same with another word for the failure. -/
def mapError (f : ε → ε') (t : Traced ε α) : Traced ε' α := ⟨t.events, t.outcome.mapError f⟩

end Traced

/-- A reading: the input, and the bounds if only a part was read. -/
abbrev Reading := String × Option Bounds

/-- What has come of handing the chunks of an evaluation to a consumer. -/
structure Delivery (σ ε α : Type) where
  state : σ
  reads : List Reading
  outcome : Except ε α

namespace Traced

variable {ε α σ : Type}

/-- Hands chunks to a consumer, which takes them or refuses one with an error. -/
def deliverEvents (consume : Nat → Grid Double → σ → σ × Option ε) (outcome : Except ε α) :
    List Event → σ → Delivery σ ε α
  | [], s => ⟨s, [], outcome⟩
  | .read name bounds :: rest, s =>
    let d := deliverEvents consume outcome rest s
    { d with reads := (name, bounds) :: d.reads }
  | .emit index value :: rest, s =>
    match consume index value s with
    | (s, none) => deliverEvents consume outcome rest s
    | (s, some e) => ⟨s, [], .error e⟩

/-- Hands the chunks of an evaluation to a consumer. -/
def deliver (consume : Nat → Grid Double → σ → σ × Option ε) (t : Traced ε α) (s : σ) :
    Delivery σ ε α :=
  deliverEvents consume t.outcome t.events s

end Traced
end Concord
