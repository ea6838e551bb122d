import DeclViews.Proofs.File.Operation
import DeclViews.Workspace

/-! Programs on a workspace, and what their history alone says of them. A history has the newest
operation first. The latest opening or closing of a path, however it is spelled, decides what stands
there, and a file has a life of its own: the root it was opened with, and what was asked of it since,
through its path or through its handle. -/
namespace DeclViews.Workspace

inductive Operation where
  | openFile (path : Spelling) (root : Node)
  | update (path : Spelling) (root : Node)
  | close (path : Spelling)
  | get (path : Spelling)
  | onFile (handle : Nat) (operation : File.Operation)

inductive Reply where
  | opened (handle : Nat)
  | updated (stamp : Option Stamp)
  | closed (wasOpen : Bool)
  | found (handle : Option Nat)
  | told (reply : Option File.Reply)

structure Life where
  root : Node
  operations : List File.Operation

namespace Life

def file (life : Life) : File := File.Operation.after life.root life.operations

def more (life : Life) (operation : File.Operation) : Life :=
  { life with operations := life.operations ++ [operation] }

theorem fileMore (life : Life) (operation : File.Operation) :
    (life.more operation).file = (operation.perform life.file).state := by
  rw [file,more,File.Operation.afterAppend]
  rfl

end Life

namespace Operation

def perform : Operation → Action Workspace Reply
  | .openFile path root => do return .opened (← Workspace.openFile path root)
  | .update path root => do return .updated (← Workspace.update path root)
  | .close path => do return .closed (← Workspace.close path)
  | .get path => do return .found (← Action.read (handle? · path))
  | .onFile handle operation => do return .told (← Workspace.onFile handle operation.perform)

def run : List Operation → Action Workspace (List Reply)
  | [] => return []
  | operation :: rest => do
    let reply ← operation.perform
    return reply :: (← run rest)

def isOpening : Operation → Bool
  | .openFile _ _ => true
  | .update _ _ | .close _ | .get _ | .onFile _ _ => false

def openings (past : List Operation) : Nat := past.countP isOpening

def standing? (path : Path) : List Operation → Option Nat
  | [] => none
  | .openFile spelling _ :: past =>
    if Path.ofSpelling spelling = path then some (openings past) else standing? path past
  | .close spelling :: past => if Path.ofSpelling spelling = path then none else standing? path past
  | .update _ _ :: past | .get _ :: past | .onFile _ _ :: past => standing? path past

def life? (handle : Nat) : List Operation → Option Life
  | [] => none
  | .openFile _ root :: past =>
    if openings past = handle then some ⟨root,[]⟩ else life? handle past
  | .update path root :: past =>
    if standing? (Path.ofSpelling path) past = some handle then
      (life? handle past).map (·.more (.replaceRoot root))
    else life? handle past
  | .onFile other operation :: past =>
    if other = handle then (life? handle past).map (·.more operation) else life? handle past
  | .close _ :: past | .get _ :: past => life? handle past

def target? (past : List Operation) : Operation → Option Nat
  | .update path _ => standing? (Path.ofSpelling path) past
  | .onFile handle _ => some handle
  | .openFile _ _ | .close _ | .get _ => none

def reply (past : List Operation) : Operation → Reply
  | .openFile _ _ => .opened (openings past)
  | .update path _ =>
    let life := (standing? (Path.ofSpelling path) past).bind (life? · past)
    .updated (life.map fun life => life.file.stamp.next)
  | .close path => .closed (standing? (Path.ofSpelling path) past).isSome
  | .get path => .found (standing? (Path.ofSpelling path) past)
  | .onFile handle operation =>
    .told ((life? handle past).map fun life => (operation.perform life.file).answer)

def replies (past : List Operation) : List Operation → List Reply
  | [] => []
  | operation :: rest => operation.reply past :: replies (operation :: past) rest

variable {path : Path} {past : List Operation} {handle : Nat}

theorem standingBelow (standing : standing? path past = some handle) : handle < openings past := by
  induction past with
  | nil => contradiction
  | cons operation past ih =>
    rw [openings,List.countP_cons]
    cases operation with
    | openFile spelling root =>
      rw [standing?] at standing
      split at standing
      · cases standing
        exact Nat.lt_succ_self _
      · exact Nat.lt_succ_of_lt (ih standing)
    | close spelling =>
      rw [standing?] at standing
      split at standing
      · contradiction
      · exact ih standing
    | update spelling root => exact ih standing
    | get spelling => exact ih standing
    | onFile other operation => exact ih standing

theorem standingOpened (standing : standing? path past = some handle) :
    ∃ spelling root, .openFile spelling root ∈ past ∧ Path.ofSpelling spelling = path := by
  induction past with
  | nil => contradiction
  | cons operation past ih =>
    have earlier (standing : standing? path past = some handle) :
        ∃ spelling root, .openFile spelling root ∈ operation :: past ∧
          Path.ofSpelling spelling = path := by
      obtain ⟨spelling,root,member,same⟩ := ih standing
      exact ⟨spelling,root,List.mem_cons_of_mem _ member,same⟩
    cases operation with
    | openFile spelling root =>
      rw [standing?] at standing
      split at standing
      · rename_i same
        exact ⟨spelling,root,List.mem_cons_self,same⟩
      · exact earlier standing
    | close spelling =>
      rw [standing?] at standing
      split at standing
      · contradiction
      · exact earlier standing
    | update spelling root => exact earlier standing
    | get spelling => exact earlier standing
    | onFile other operation => exact earlier standing

theorem standingApart {other : Path} (standing : standing? path past = some handle)
    (again : standing? other past = some handle) : path = other := by
  induction past with
  | nil => contradiction
  | cons operation past ih =>
    cases operation with
    | openFile spelling root =>
      rw [standing?] at standing again
      split at standing
      · rename_i here
        split at again
        · rename_i there
          exact here.symm.trans there
        · cases standing
          exact absurd (standingBelow again) (Nat.lt_irrefl _)
      · split at again
        · cases again
          exact absurd (standingBelow standing) (Nat.lt_irrefl _)
        · exact ih standing again
    | close spelling =>
      rw [standing?] at standing again
      split at standing
      · contradiction
      · split at again
        · contradiction
        · exact ih standing again
    | update spelling root => exact ih standing again
    | get spelling => exact ih standing again
    | onFile other operation => exact ih standing again

end Operation
end DeclViews.Workspace
