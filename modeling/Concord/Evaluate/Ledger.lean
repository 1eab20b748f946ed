/-! The values that are live while a chunk is evaluated. Each place knows how often its value will
    still be read, and gives the value up behind the last reading. -/

namespace Concord

/-- A place: its value, and how many readings are to come. -/
structure Slot (α : Type) where
  value : Option α
  remaining : Nat

structure Ledger (α : Type) where
  slots : List (Slot α)
  /-- How many values are held. -/
  live : Nat
  /-- The most values that were ever held. -/
  peak : Nat

namespace Ledger

variable {α : Type}

/-- No values yet; place `i` will be read `uses[i]` times. -/
def ofUses (uses : List Nat) : Ledger α := ⟨uses.map fun n => ⟨none, n⟩, 0, 0⟩

def get? (l : Ledger α) (id : Nat) : Option α := (l.slots[id]?).bind (·.value)

/-- As many further places, which will not be read. -/
def grow (l : Ledger α) (count : Nat) : Ledger α :=
  ⟨l.slots ++ List.replicate count ⟨none, 0⟩, l.live, l.peak⟩

/-- Puts a value into its place, unless it will not be read. A place that is not there is made, and
    stays empty. -/
def insert (l : Ledger α) (id : Nat) (value : α) : Ledger α :=
  match l.slots[id]? with
  | none => l.grow (id + 1 - l.slots.length)
  | some slot =>
    if slot.remaining = 0 then l
    else
      let live := if slot.value.isSome then l.live else l.live + 1
      ⟨l.slots.set id ⟨some value, slot.remaining⟩, live, max l.peak live⟩

/-- Counts one reading. -/
def release (l : Ledger α) (id : Nat) : Ledger α :=
  match l.slots[id]? with
  | none => l
  | some slot =>
    if slot.remaining ≤ 1 then
      ⟨l.slots.set id ⟨none, 0⟩, if slot.value.isSome then l.live - 1 else l.live, l.peak⟩
    else ⟨l.slots.set id ⟨slot.value, slot.remaining - 1⟩, l.live, l.peak⟩

/-- Takes a value out, whatever readings are to come. -/
def take (l : Ledger α) (id : Nat) : Option α × Ledger α :=
  match l.get? id with
  | none => (none, l)
  | some value => (some value, ⟨l.slots.set id ⟨none, 0⟩, l.live - 1, l.peak⟩)

end Ledger
end Concord
