/-! Texts in allocations. Two holders share a value when their allocations are one; equal values
may still live in different allocations. An atom is a text in an allocation, and atoms are equal
when their texts are. A table keeps one atom for each text interned in it. A pool has atoms and
tables in the order of their making, and the texts that callers hold in allocations of their own:
an atom that is made of one of those is in its allocation, while an atom made of any other text
gets a new one. -/
namespace DeclViews

structure Shared (α : Type) where
  key : Nat
  value : α
  deriving DecidableEq, Repr

namespace Shared

def Same {α : Type} (a b : Shared α) : Prop := a.key = b.key
instance {α : Type} (a b : Shared α) : Decidable (Same a b) := by
  unfold Same; infer_instance

end Shared

/-- The allocations below `next` have been handed out. -/
structure Supply where
  next : Nat
  deriving DecidableEq, Repr

namespace Supply

def start : Supply := ⟨0⟩

def alloc {α : Type} (supply : Supply) (value : α) : Shared α × Supply :=
  (⟨supply.next,value⟩,⟨supply.next + 1⟩)

end Supply

abbrev Atom := Shared String

namespace Atom

def alike (a b : Atom) : Bool := a.key == b.key || a.value == b.value

/-- Texts by their UTF-8 bytes, which is the order of their characters. -/
def order (a b : Atom) : Ordering := compare a.value b.value

structure Table where
  atoms : List Atom
  deriving Repr

namespace Table

variable {t : Table} {text : String}

def empty : Table := ⟨[]⟩

def size (t : Table) : Nat := t.atoms.length

def isEmpty (t : Table) : Bool := t.atoms.isEmpty

def find? (t : Table) (text : String) : Option Atom := t.atoms.find? (·.value == text)

theorem findNone (h : t.find? text = none) : ∀ a ∈ t.atoms, a.value ≠ text := by
  intro a member same
  have differ := List.find?_eq_none.mp h a member
  exact differ (beq_iff_eq.mpr same)

theorem findSome {atom : Atom} (h : t.find? text = some atom) :
    atom ∈ t.atoms ∧ atom.value = text := by
  have same := List.find?_some h
  exact ⟨List.mem_of_find?_eq_some h,eq_of_beq same⟩

def intern (t : Table) (supply : Supply) (text : String) : Atom × Table × Supply :=
  match t.find? text with
  | some atom => (atom,t,supply)
  | none =>
    let (atom,supply) := supply.alloc text
    (atom,⟨atom :: t.atoms⟩,supply)

@[simp] theorem internText (t : Table) (supply : Supply) (text : String) :
    (t.intern supply text).1.value = text := by
  unfold intern
  split
  · rename_i atom found
    exact (findSome found).2
  · rfl

end Table

structure Pool where
  supply : Supply
  atoms : Array Atom
  tables : Array Table
  held : List Atom

namespace Pool

def withHeld (texts : List String) (count : Nat) : Pool :=
  ⟨⟨texts.length⟩,#[],Array.replicate count .empty,texts.mapIdx fun key text => ⟨key,text⟩⟩

def withTables (count : Nat) : Pool := withHeld [] count

/-- A step makes one atom: by itself, in the allocation of a held text, by sharing an atom made before,
or by interning a text in one of the tables. -/
inductive Step where
  | make (text : String)
  | wrap (held : Nat)
  | share (atom : Nat)
  | intern (table : Nat) (text : String)
  deriving DecidableEq, Repr

/-- A step that names a text, an atom or a table that is not there is refused. -/
def step? (pool : Pool) : Step → Option (Atom × Pool)
  | .make text =>
    let (atom,supply) := pool.supply.alloc text
    some (atom,{ pool with supply, atoms := pool.atoms.push atom })
  | .wrap index => do
    let atom ← pool.held[index]?
    some (atom,{ pool with atoms := pool.atoms.push atom })
  | .share index => do
    let atom ← pool.atoms[index]?
    some (atom,{ pool with atoms := pool.atoms.push atom })
  | .intern index text => do
    let table ← pool.tables[index]?
    let (atom,table,supply) := table.intern pool.supply text
    some (atom,{ pool with
      supply, atoms := pool.atoms.push atom, tables := pool.tables.setIfInBounds index table })

def run? (pool : Pool) : List Step → Option Pool
  | [] => some pool
  | step :: rest => do
    let (_,pool) ← pool.step? step
    pool.run? rest

end Pool
end Atom
end DeclViews
