import DeclViews.File
import DeclViews.Path
/-! Files registered under paths. A file keeps its handle, the place of its opening, for good: one
that was closed or displaced by another opening goes on as a file of its own. A path that is
registered already keeps its first spelling. -/
namespace DeclViews

structure Entry where
  spelling : Spelling
  handle : Nat
  deriving DecidableEq, Repr

structure Workspace where
  files : Array File
  registry : Std.ExtTreeMap Path Entry

namespace Workspace

def empty : Workspace := ⟨#[],∅⟩

def handle? (w : Workspace) (path : Spelling) : Option Nat :=
  w.registry[Path.ofSpelling path]?.map Entry.handle

/-- The open paths as they are spelled, in the order of their components. -/
def spellings (w : Workspace) : List Spelling :=
  w.registry.toList.map fun (_,entry) => entry.spelling

/-- The open paths as they are shown. -/
def paths (w : Workspace) : List String := w.spellings.map Spelling.shown

def size (w : Workspace) : Nat := w.registry.size

def isEmpty (w : Workspace) : Bool := w.registry.isEmpty

/-- An action on one file; none if there was never a file with the handle. -/
def onFile {α : Type} (handle : Nat) (action : Action File α) : Action Workspace (Option α) :=
  fun w =>
    match w.files[handle]? with
    | none => ⟨none,w,[]⟩
    | some file =>
      let outcome := action file
      ⟨some outcome.answer,{ w with files := w.files.setIfInBounds handle outcome.state },
        outcome.events⟩

def openFile (path : Spelling) (root : Node) : Action Workspace Nat := fun w =>
  let handle := w.files.size
  let registry := w.registry.alter (Path.ofSpelling path) fun
    | none => some ⟨path,handle⟩
    | some entry => some { entry with handle }
  ⟨handle,⟨w.files.push (.ofRoot root),registry⟩,[.fileOpened path]⟩

def update (path : Spelling) (root : Node) : Action Workspace (Option Stamp) := do
  match ← Action.read (handle? · path) with
  | none => return none
  | some handle =>
    match ← onFile handle (File.replaceRoot root) with
    | none => return none
    | some stamp =>
      Action.emit (.fileChanged path stamp)
      return some stamp

def close (path : Spelling) : Action Workspace Bool := fun w =>
  match w.handle? path with
  | none => ⟨false,w,[]⟩
  | some _ =>
    ⟨true,{ w with registry := w.registry.erase (Path.ofSpelling path) },[.fileClosed path]⟩

end Workspace
end DeclViews
