import DeclViews.Declaration
import DeclViews.Journal
import DeclViews.Slot.Program
import DeclViews.Text
import DeclViews.View
/-! Files with memoised views. A file publishes a root under a stamp. Each view has a slot, and a
read answers from it unless the root was replaced since; the derived queries read views and nothing
else. -/
namespace DeclViews

structure Snapshot where
  stamp : Stamp
  root : Node
  deriving Repr

namespace Snapshot

def ofRoot (root : Node) : Snapshot := ⟨.initial,root⟩

def advance (s : Snapshot) (root : Node) : Snapshot := ⟨s.stamp.next,root⟩

end Snapshot

structure Slots where
  package : Slot View.package.Value
  imports : Slot View.imports.Value
  functions : Slot View.functions.Value
  methods : Slot View.methods.Value
  types : Slot View.types.Value
  vars : Slot View.vars.Value
  consts : Slot View.consts.Value

namespace Slots

def empty : Slots := ⟨.empty,.empty,.empty,.empty,.empty,.empty,.empty⟩

def get (slots : Slots) : (v : View) → Slot v.Value
  | .package => slots.package
  | .imports => slots.imports
  | .functions => slots.functions
  | .methods => slots.methods
  | .types => slots.types
  | .vars => slots.vars
  | .consts => slots.consts

def set (slots : Slots) : (v : View) → Slot v.Value → Slots
  | .package,slot => { slots with package := slot }
  | .imports,slot => { slots with imports := slot }
  | .functions,slot => { slots with functions := slot }
  | .methods,slot => { slots with methods := slot }
  | .types,slot => { slots with types := slot }
  | .vars,slot => { slots with vars := slot }
  | .consts,slot => { slots with consts := slot }

@[simp] theorem getEmpty (v : View) : empty.get v = .empty := by cases v <;> rfl

@[simp] theorem getSet (slots : Slots) (v : View) (slot : Slot v.Value) :
    (slots.set v slot).get v = slot := by cases v <;> rfl

@[simp] theorem getSetOther (slots : Slots) {v w : View} (slot : Slot v.Value) (other : w ≠ v) :
    (slots.set v slot).get w = slots.get w := by
  cases v <;> cases w <;> first | rfl | exact absurd rfl other

end Slots

structure File where
  snapshot : Snapshot
  slots : Slots
  computations : UInt64

namespace File

def entryPoint : String := "main"

def ofRoot (root : Node) : File := ⟨.ofRoot root,.empty,0⟩

def stamp (file : File) : Stamp := file.snapshot.stamp

def root (file : File) : Node := file.snapshot.root

def isCurrent (file : File) (view : View) : Bool :=
  (file.slots.get view).stamp? == some file.stamp

def replaceRoot (root : Node) : Action File Stamp := fun file =>
  let snapshot := file.snapshot.advance root
  ⟨snapshot.stamp,{ file with snapshot },[.rootReplaced snapshot.stamp]⟩

@[simp] theorem replaceAnswer (root : Node) (file : File) :
    (replaceRoot root file).answer = file.stamp.next := rfl

/-- A view is computed, counted and told of only if its slot does not hold it. -/
def view (view : View) : Action File (Shared view.Value) := fun file =>
  let snapshot := file.snapshot
  let (told,value,slot) := (file.slots.get view).getOrCompute snapshot.stamp fun slot =>
    (Event.computing view snapshot.stamp,view.compute snapshot.root,slot)
  match told with
  | none => ⟨value,file,[]⟩
  | some event =>
    ⟨value,{ file with
      slots := file.slots.set view slot
      computations := file.computations + 1 },[event]⟩

def package : Action File (Option PackageClause) := do
  return (← view .package).value

def packageName : Action File (Option String) := do
  return (← package).bind fun clause => clause.name?.map Text.trim

def importMap : Action File Import.Map := do
  return Import.Map.ofSpecs (← view .imports).value

def entryFunction : Action File (Option FunctionDecl) := do
  return (← view .functions).value.find? (·.name? == some entryPoint)

/-- An outline through any way of reading the views, each read once. -/
def outlineOver (read : (v : View) → Action File (Shared v.Value)) : Action File (List Outline.Item) := do
  let package ← read .package
  let imports ← read .imports
  let functions ← read .functions
  let methods ← read .methods
  let types ← read .types
  let vars ← read .vars
  let consts ← read .consts
  return Outline.ofViews fun
    | .package => package.value
    | .imports => imports.value
    | .functions => functions.value
    | .methods => methods.value
    | .types => types.value
    | .vars => vars.value
    | .consts => consts.value

def outline : Action File (List Outline.Item) := outlineOver view

def record (file : File) : String :=
  "GoFile \x7b stamp: " ++ file.stamp.record ++ ", computations: " ++
    toString file.computations.toNat ++ ", .. \x7d"

end File
end DeclViews
