import DeclViews.Proofs.Workspace.Lookup
import DeclViews.Proofs.Workspace.Operation

/-! A workspace is a map of independent files. Lookup goes by path and state by file: whatever was
opened, closed and opened again in between, and through whichever handle a file was asked, each file
is what its own life alone makes of it, and a path leads to the file of its latest opening. -/
namespace DeclViews.Workspace
open Operation (standing? openings life? target? replies)

variable {w : Workspace} {past : List Operation}

structure Mirrors (past : List Operation) (w : Workspace) : Prop where
  count : w.files.size = openings past
  handles : ∀ path, w.handle? path = standing? (Path.ofSpelling path) past
  files : ∀ handle, w.files[handle]? = (life? handle past).map Life.file

theorem mirrorsEmpty : Mirrors [] empty where
  count := rfl
  handles path := by
    unfold handle? empty
    rw [Std.ExtTreeMap.getElem?_empty]
    rfl
  files handle := rfl

theorem Mirrors.found (mirrors : Mirrors past w) {path : Spelling} {handle : Nat}
    (standing : w.handle? path = some handle) : ∃ file, w.files[handle]? = some file := by
  rw [mirrors.handles] at standing
  have inside : handle < w.files.size := by
    rw [mirrors.count]
    exact Operation.standingBelow standing
  exact ⟨_,Array.getElem?_eq_getElem inside⟩

theorem Mirrors.demanded (mirrors : Mirrors past w) (handle other : Nat) (demand : File.Operation) :
    (onFile handle demand.perform w).state.files[other]? =
      (if handle = other then (life? other past).map (·.more demand)
      else life? other past).map Life.file := by
  by_cases same : handle = other
  · subst same
    rw [onFileOwn,mirrors.files,if_pos rfl,Option.map_map,Option.map_map]
    exact congrArg (Option.map · (life? handle past)) (funext fun life => (life.fileMore demand).symm)
  · rw [onFileOther w same,mirrors.files,if_neg same]

theorem Mirrors.onFile (mirrors : Mirrors past w) (handle : Nat) (operation : File.Operation) :
    Mirrors (.onFile handle operation :: past) (onFile handle operation.perform w).state where
  count := by simp [mirrors.count,openings,Operation.isOpening]
  handles path := by
    rw [handle?,onFileRegistry]
    exact mirrors.handles path
  files other := by rw [mirrors.demanded,life?]

theorem Mirrors.openFile (mirrors : Mirrors past w) (path : Spelling) (root : Node) :
    Mirrors (.openFile path root :: past) (openFile path root w).state where
  count := by rw [openFileSize,mirrors.count,openings,openings,List.countP_cons_of_pos rfl]
  handles other := by rw [openFileHandle,mirrors.handles,mirrors.count,standing?]
  files handle := by
    rw [openFileFiles,mirrors.files,mirrors.count,life?]
    by_cases same : handle = openings past
    · rw [if_pos same,if_pos same.symm]
      rfl
    · rw [if_neg same,if_neg (Ne.symm same)]

theorem Mirrors.close (mirrors : Mirrors past w) (path : Spelling) :
    Mirrors (.close path :: past) (close path w).state where
  count := by simp [mirrors.count,openings,Operation.isOpening]
  handles other := by rw [closeHandle,mirrors.handles,standing?]
  files handle := by rw [closeFiles,mirrors.files,life?]

theorem onFileReplace (w : Workspace) (handle : Nat) (root : Node) :
    (Workspace.onFile handle (File.replaceRoot root) w).state =
      (Workspace.onFile handle (File.Operation.perform (.replaceRoot root)) w).state := by
  unfold Workspace.onFile
  cases w.files[handle]? <;> rfl

theorem Mirrors.update (mirrors : Mirrors past w) (path : Spelling) (root : Node) :
    Mirrors (.update path root :: past) (update path root w).state := by
  have handles := mirrors.handles path
  have count : openings (.update path root :: past) = openings past := by
    simp [openings,Operation.isOpening]
  cases standing : w.handle? path with
  | none =>
    rw [standing] at handles
    rw [updateAbsent standing]
    refine ⟨mirrors.count.trans count.symm,mirrors.handles,fun handle => ?_⟩
    rw [mirrors.files,life?,← handles,if_neg (Option.some_ne_none handle).symm]
  | some handle =>
    rw [standing] at handles
    rw [(updateStanding standing root).1,onFileReplace]
    refine ⟨?_,(mirrors.onFile handle (.replaceRoot root)).handles,fun other => ?_⟩
    · rw [onFileSize,mirrors.count,count]
    · rw [mirrors.demanded,life?,← handles]
      simp only [Option.some.injEq]

theorem Mirrors.perform (mirrors : Mirrors past w) (operation : Operation) :
    Mirrors (operation :: past) (operation.perform w).state := by
  cases operation with
  | openFile path root => exact mirrors.openFile path root
  | update path root => exact mirrors.update path root
  | close path => exact mirrors.close path
  | get path => exact ⟨mirrors.count,mirrors.handles,mirrors.files⟩
  | onFile handle operation => exact mirrors.onFile handle operation

theorem Mirrors.replied (mirrors : Mirrors past w) (operation : Operation) :
    (operation.perform w).answer = operation.reply past := by
  cases operation with
  | openFile path root => exact congrArg Reply.opened mirrors.count
  | close path =>
    refine congrArg Reply.closed ((closeAnswer w path).trans ?_)
    rw [mirrors.handles]
  | get path => exact congrArg Reply.found (mirrors.handles path)
  | onFile handle operation =>
    refine congrArg Reply.told ((onFileAnswer w handle operation.perform).trans ?_)
    rw [mirrors.files]
    cases life? handle past <;> rfl
  | update path root =>
    have handles := mirrors.handles path
    refine congrArg Reply.updated ?_
    cases standing : w.handle? path with
    | none =>
      rw [updateAbsent standing,← handles,standing]
      rfl
    | some handle =>
      rw [(updateStanding standing root).2,onFileAnswer,mirrors.files,← handles,standing,
        Option.bind_some]
      cases life? handle past <;> rfl

theorem Mirrors.run (mirrors : Mirrors past w) (operations : List Operation) :
    (Operation.run operations w).answer = replies past operations ∧
      Mirrors (operations.reverse ++ past) (Operation.run operations w).state := by
  induction operations generalizing past w with
  | nil => exact ⟨rfl,mirrors⟩
  | cons operation rest ih =>
    obtain ⟨answers,still⟩ := ih (mirrors.perform operation)
    rw [List.reverse_cons,List.append_assoc]
    refine ⟨?_,still⟩
    have answer : (Operation.run (operation :: rest) w).answer =
        (operation.perform w).answer ::
          (Operation.run rest (operation.perform w).state).answer := rfl
    rw [answer,answers,mirrors.replied]
    rfl

theorem Mirrors.framed (mirrors : Mirrors past w) {operation : Operation} {handle : Nat} {file : File}
    (there : w.files[handle]? = some file) (elsewhere : operation.target? past ≠ some handle) :
    (operation.perform w).state.files[handle]? = some file := by
  have inside : handle < openings past := by
    obtain ⟨inside,-⟩ := Array.getElem?_eq_some_iff.mp there
    rwa [← mirrors.count]
  rw [← there,(mirrors.perform operation).files,mirrors.files]
  cases operation with
  | openFile path root => rw [life?,if_neg (Nat.ne_of_gt inside)]
  | update path root =>
    rw [target?] at elsewhere
    rw [life?,if_neg elsewhere]
  | onFile other operation => rw [life?,if_neg fun same => elsewhere (congrArg some same)]
  | close path => rfl
  | get path => rfl

structure Fresh (root : Node) (file : File) : Prop where
  root : file.root = root
  stamp : file.stamp = .initial
  stale : ∀ v, file.isCurrent v = false
  computations : file.computations = 0

theorem freshOfRoot (root : Node) : Fresh root (.ofRoot root) where
  root := rfl
  stamp := rfl
  stale v := by
    simp [File.isCurrent,File.ofRoot,Slot.stamp?,Slot.empty]
  computations := rfl

structure Serves (past : List Operation) (w : Workspace) : Prop extends Mirrors past w where
  absent : ∀ path root, w.handle? path = none → Workspace.update path root w = ⟨none,w,[]⟩
  updated : ∀ path root handle, w.handle? path = some handle → ∃ file, w.files[handle]? = some file ∧
    let outcome := Workspace.update path root w
    outcome.answer = some file.stamp.next ∧ outcome.state.registry = w.registry ∧
      outcome.state.files[handle]? = some { file with snapshot := ⟨file.stamp.next,root⟩ }
  closed : ∀ path, (Workspace.close path w).answer = true ↔ w.handle? path ≠ none
  opened : ∀ path root,
    let outcome := Workspace.openFile path root w
    w.files[outcome.answer]? = none ∧ outcome.state.handle? path = some outcome.answer ∧
      ∃ file, outcome.state.files[outcome.answer]? = some file ∧ Fresh root file
  apart : ∀ path other handle, w.handle? path = some handle → w.handle? other = some handle →
    Path.ofSpelling path = Path.ofSpelling other
  framed : ∀ (operation : Operation) handle file, w.files[handle]? = some file →
    operation.target? past ≠ some handle → (operation.perform w).state.files[handle]? = some file

theorem Mirrors.serves (mirrors : Mirrors past w) : Serves past w where
  toMirrors := mirrors
  absent path root standing := updateAbsent standing root
  updated path root handle standing := by
    obtain ⟨file,there⟩ := mirrors.found standing
    obtain ⟨state,answer⟩ := updateStanding standing root
    refine ⟨file,there,?_,?_,?_⟩
    · rw [answer,onFileAnswer,there]
      rfl
    · simp [state]
    · simp [state,there,File.replaceRoot,Snapshot.advance,File.stamp]
  closed path := by rw [closeAnswer,Option.isSome_iff_ne_none]
  opened path root := by
    have answer : (Workspace.openFile path root w).answer = w.files.size := rfl
    refine ⟨?_,?_,.ofRoot root,?_,freshOfRoot root⟩
    · rw [answer]
      exact Array.getElem?_eq_none (Nat.le_refl _)
    · simp [answer]
    · simp [answer]
  apart path other handle standing again :=
    Operation.standingApart (mirrors.handles path ▸ standing) (mirrors.handles other ▸ again)
  framed operation handle file there elsewhere := mirrors.framed there elsewhere

theorem filesIndependent (operations : List Operation) :
    (Operation.run operations empty).answer = replies [] operations ∧
      Serves operations.reverse (Operation.run operations empty).state := by
  obtain ⟨answers,mirrors⟩ := mirrorsEmpty.run operations
  rw [List.append_nil] at mirrors
  exact ⟨answers,mirrors.serves⟩

example (first second third : Node) :
    let past : List Operation :=
      [.update "a/b" third,.openFile "a//b/" second,.openFile "a/b" first]
    standing? (Path.ofSpelling "a/./b") past = some 1 ∧ life? 0 past = some ⟨first,[]⟩ ∧
      life? 1 past = some ⟨second,[.replaceRoot third]⟩ := ⟨rfl,rfl,rfl⟩

end DeclViews.Workspace
