import DeclViews.Atom.Pool
import DeclViews.Stamp
/-! A slot keeps one value under the stamp it was computed for. The newest stamp wins, and among the
values of one stamp the first: a later one is dropped for the value already there, and a value that
comes too late for a newer one is handed back without being kept. In a program on a slot a
computation may run a program on the slot it computes for before it yields its value, to any depth.
Each step is answered with what it gave and with the stamp that the slot holds after it. -/
namespace DeclViews

structure Held (α : Type) where
  stamp : Stamp
  value : Shared α
  deriving DecidableEq, Repr

/-- The supply is the slot's own: it tells apart the values that went through this slot. -/
structure Slot (α : Type) where
  held : Option (Held α)
  supply : Supply
  deriving DecidableEq, Repr

namespace Slot

variable {α : Type}

def empty : Slot α := ⟨none,.start⟩

def stamp? (slot : Slot α) : Option Stamp := slot.held.map Held.stamp

def get? (slot : Slot α) (stamp : Stamp) : Option (Shared α) :=
  (slot.held.filter (·.stamp == stamp)).map Held.value

def keep (slot : Slot α) (stamp : Stamp) (value : α) : Shared α × Slot α :=
  let (shared,supply) := slot.supply.alloc value
  (shared,⟨some ⟨stamp,shared⟩,supply⟩)

def pass (slot : Slot α) (value : α) : Shared α × Slot α :=
  let (shared,supply) := slot.supply.alloc value
  (shared,{ slot with supply })

def store (slot : Slot α) (stamp : Stamp) (value : α) : Shared α × Slot α :=
  match slot.held with
  | none => slot.keep stamp value
  | some held =>
    if held.stamp = stamp then (held.value,slot)
    else if stamp < held.stamp then slot.pass value
    else slot.keep stamp value

/-- Where no value is held under the stamp, `compute` runs on the slot and what it yields is stored;
what it tells besides comes back with the value. -/
def getOrCompute {β : Type} (slot : Slot α) (stamp : Stamp)
    (compute : Slot α → β × α × Slot α) : Option β × Shared α × Slot α :=
  match slot.get? stamp with
  | some value => (none,value,slot)
  | none =>
    let (told,value,slot) := compute slot
    let (shared,slot) := slot.store stamp value
    (some told,shared,slot)

def recordOf (stamp : Option Stamp) : String :=
  let inside := match stamp with
    | none => "None"
    | some stamp => "Some(" ++ stamp.record ++ ")"
  "ViewSlot \x7b stamp: " ++ inside ++ " \x7d"

inductive Step (α : Type) where
  | get (stamp : Stamp)
  | store (stamp : Stamp) (value : α)
  | getOrCompute (stamp : Stamp) (during : List (Step α)) (value : α)
  | peek
  deriving Repr

inductive Answer (α : Type) where
  | got (value : Option (Shared α)) (held : Option Stamp)
  | stored (value : Shared α) (held : Option Stamp)
  | found (value : Shared α) (held : Option Stamp)
  | computed (during : List (Answer α)) (value : Shared α) (held : Option Stamp)
  | peeked (held : Option Stamp)
  deriving Repr

def Answer.held : Answer α → Option Stamp
  | got _ held | stored _ held | found _ held | computed _ _ held | peeked held => held

mutual

def perform (slot : Slot α) : Step α → Answer α × Slot α
  | .get stamp => (.got (slot.get? stamp) slot.stamp?,slot)
  | .store stamp value =>
    let (shared,slot) := slot.store stamp value
    (.stored shared slot.stamp?,slot)
  | .getOrCompute stamp during value =>
    let (told,shared,slot) := slot.getOrCompute stamp fun slot =>
      let (answers,slot) := slot.run during
      (answers,value,slot)
    match told with
    | none => (.found shared slot.stamp?,slot)
    | some answers => (.computed answers shared slot.stamp?,slot)
  | .peek => (.peeked slot.stamp?,slot)

def run (slot : Slot α) : List (Step α) → List (Answer α) × Slot α
  | [] => ([],slot)
  | step :: rest =>
    let (answer,slot) := slot.perform step
    let (answers,slot) := slot.run rest
    (answer :: answers,slot)

end

end Slot
end DeclViews
