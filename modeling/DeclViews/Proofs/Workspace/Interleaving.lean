import DeclViews.Proofs.Workspace.Independence

/-! Updates of several clients. An update looks its path up and then, in a step of its own, replaces
the root of the file it has found; other calls may come between. The file that was found gets the
root and the stamp that the update returns. It still stands at the path unless the path was opened
or closed in between, and then the new root is seen by those alone who hold the file. -/
namespace DeclViews.Workspace

inductive Phase where
  | found (handle : Nat)
  | returned (stamp : Option Stamp)

structure Update where
  path : Spelling
  root : Node
  phase : Phase

namespace Update

def start (path : Spelling) (root : Node) : Action Workspace Update := do
  match ← Action.read (handle? · path) with
  | none => return ⟨path,root,.returned none⟩
  | some handle => return ⟨path,root,.found handle⟩

def turn : Update → Action Workspace Update
  | ⟨path,root,.found handle⟩ => do
    match ← onFile handle (File.replaceRoot root) with
    | none => return ⟨path,root,.returned none⟩
    | some stamp =>
      Action.emit (.fileChanged path stamp)
      return ⟨path,root,.returned (some stamp)⟩
  | ⟨path,root,.returned stamp⟩ => return ⟨path,root,.returned stamp⟩

variable {w : Workspace} {path : Spelling} {handle : Nat}

theorem startStanding (standing : w.handle? path = some handle) (root : Node) :
    start path root w = ⟨⟨path,root,.found handle⟩,w,[]⟩ := by
  simp [start,standing]

theorem startAbsent (absent : w.handle? path = none) (root : Node) :
    start path root w = ⟨⟨path,root,.returned none⟩,w,[]⟩ := by
  simp [start,absent]

theorem turnFound {file : File} (there : w.files[handle]? = some file) (path : Spelling) (root : Node) :
    (turn ⟨path,root,.found handle⟩ w).answer = ⟨path,root,.returned (some file.stamp.next)⟩ := by
  simp [turn,there]

theorem turnState (path : Spelling) (root : Node) (handle : Nat) (w : Workspace) :
    (turn ⟨path,root,.found handle⟩ w).state = (onFile handle (File.replaceRoot root) w).state := by
  cases there : w.files[handle]? <;> simp [turn,there]

theorem alone (path : Spelling) (root : Node) (w : Workspace) :
    (start path root >>= turn) w =
      ⟨⟨path,root,.returned (update path root w).answer⟩,(update path root w).state,
        (update path root w).events⟩ := by
  cases standing : w.handle? path with
  | none => simp [startAbsent standing,updateAbsent standing,turn]
  | some handle =>
    cases there : w.files[handle]? <;> simp [startStanding standing,turn,update,standing,there]

end Update

structure Scene where
  workspace : Workspace
  updates : List Update

inductive Move where
  | call (operation : Operation)
  | start (path : Spelling) (root : Node)
  | turn (update : Nat)

namespace Operation

def Redirects (path : Spelling) : Operation → Prop
  | .openFile spelling _ | .close spelling => Path.ofSpelling spelling = Path.ofSpelling path
  | .update _ _ | .get _ | .onFile _ _ => False

variable {w : Workspace} {path : Spelling} {handle : Nat}

theorem stillStands {later : Workspace} (registry : later.registry = w.registry)
    (size : later.files.size = w.files.size) (inside : handle < w.files.size) {redirects : Prop}
    (stays : ¬ redirects) (path : Spelling) : handle < later.files.size ∧
      (later.handle? path = some handle ↔ w.handle? path = some handle ∧ ¬ redirects) := by
  rw [lookupSame registry,size]
  exact ⟨inside,(and_iff_left stays).symm⟩

/- No handle is given out again, so a file that does not stand at the path will not do so later. -/
theorem performStands (inside : handle < w.files.size) (operation : Operation) (path : Spelling) :
    handle < (operation.perform w).state.files.size ∧
      ((operation.perform w).state.handle? path = some handle ↔
        w.handle? path = some handle ∧ ¬ operation.Redirects path) := by
  cases operation with
  | openFile spelling root =>
    have grown := openFileSize w spelling root
    refine ⟨Nat.lt_of_lt_of_eq (Nat.lt_succ_of_lt inside) grown.symm,?_⟩
    change (Workspace.openFile spelling root w).state.handle? path = some handle ↔ _
    rw [openFileHandle,Redirects]
    by_cases same : Path.ofSpelling spelling = Path.ofSpelling path
    · have other : w.files.size ≠ handle := Nat.ne_of_gt inside
      simp [same,other]
    · simp [same]
  | close spelling =>
    have files := closeFiles w spelling
    refine ⟨Nat.lt_of_lt_of_eq inside (congrArg Array.size files).symm,?_⟩
    change (Workspace.close spelling w).state.handle? path = some handle ↔ _
    rw [closeHandle,Redirects]
    by_cases same : Path.ofSpelling spelling = Path.ofSpelling path <;> simp [same]
  | update spelling root =>
    obtain ⟨registry,size⟩ := updateLookups spelling root w
    exact stillStands registry size inside id path
  | get spelling => exact stillStands rfl rfl inside id path
  | onFile other operation =>
    exact stillStands (onFileRegistry w other _) (onFileSize w other _) inside id path

end Operation

namespace Move

def perform : Move → Action Scene Unit
  | .call operation => fun scene =>
    let outcome := operation.perform scene.workspace
    ⟨(),{ scene with workspace := outcome.state },outcome.events⟩
  | .start path root => fun scene =>
    let outcome := Update.start path root scene.workspace
    ⟨(),⟨outcome.state,scene.updates ++ [outcome.answer]⟩,outcome.events⟩
  | .turn place => fun scene =>
    match scene.updates[place]? with
    | none => ⟨(),scene,[]⟩
    | some update =>
      let outcome := update.turn scene.workspace
      ⟨(),⟨outcome.state,scene.updates.set place outcome.answer⟩,outcome.events⟩

def run : List Move → Action Scene Unit
  | [] => return ()
  | move :: rest => do
    move.perform
    run rest

def Redirects (path : Spelling) : Move → Prop
  | .call operation => operation.Redirects path
  | .start _ _ | .turn _ => False

end Move

namespace Scene

def empty : Scene := ⟨.empty,[]⟩

def after (scene : Scene) (moves : List Move) : Scene := (Move.run moves scene).state

variable {scene : Scene} {past : List Operation}

theorem performOperation (scene : Scene) (move : Move) :
    (∃ operation : Operation, (move.perform scene).state.workspace =
        (operation.perform scene.workspace).state ∧
        ∀ path, move.Redirects path ↔ operation.Redirects path) ∨
      (move.perform scene).state.workspace = scene.workspace ∧ ∀ path, ¬ move.Redirects path := by
  cases move with
  | call operation => exact .inl ⟨operation,rfl,fun _ => Iff.rfl⟩
  | start path root =>
    refine .inr ⟨?_,fun _ => id⟩
    cases standing : scene.workspace.handle? path with
    | none => simp only [Move.perform,Update.startAbsent standing]
    | some handle => simp only [Move.perform,Update.startStanding standing]
  | turn place =>
    unfold Move.perform
    dsimp only
    split
    · exact .inr ⟨rfl,fun _ => id⟩
    · rename_i update there
      obtain ⟨path,root,phase⟩ := update
      cases phase with
      | found handle =>
        refine .inl ⟨.onFile handle (.replaceRoot root),?_,fun _ => Iff.rfl⟩
        exact (Update.turnState path root handle scene.workspace).trans (onFileReplace _ _ _)
      | returned stamp => exact .inr ⟨rfl,fun _ => id⟩

theorem performMirrors (mirrors : Mirrors past scene.workspace) (move : Move) :
    ∃ past, Mirrors past (move.perform scene).state.workspace := by
  obtain ⟨operation,same,-⟩ | ⟨same,-⟩ := performOperation scene move
  · exact ⟨operation :: past,same ▸ mirrors.perform operation⟩
  · exact ⟨past,same ▸ mirrors⟩

theorem afterMirrors (mirrors : Mirrors past scene.workspace) (moves : List Move) :
    ∃ past, Mirrors past (scene.after moves).workspace := by
  induction moves generalizing scene past with
  | nil => exact ⟨past,mirrors⟩
  | cons move rest ih =>
    obtain ⟨_,next⟩ := performMirrors mirrors move
    exact ih next

theorem performStands {handle : Nat} (inside : handle < scene.workspace.files.size) (move : Move)
    (path : Spelling) :
    handle < (move.perform scene).state.workspace.files.size ∧
      ((move.perform scene).state.workspace.handle? path = some handle ↔
        scene.workspace.handle? path = some handle ∧ ¬ move.Redirects path) := by
  obtain ⟨operation,same,redirects⟩ | ⟨same,stays⟩ := performOperation scene move
  · rw [same,redirects]
    exact operation.performStands inside path
  · rw [same]
    exact Operation.stillStands rfl rfl inside (stays path) path

theorem afterStands {handle : Nat} (inside : handle < scene.workspace.files.size)
    (moves : List Move) (path : Spelling) :
    handle < (scene.after moves).workspace.files.size ∧
      ((scene.after moves).workspace.handle? path = some handle ↔
        scene.workspace.handle? path = some handle ∧ ∀ move ∈ moves, ¬ move.Redirects path) := by
  induction moves generalizing scene with
  | nil => exact ⟨inside,(and_iff_left (List.forall_mem_nil _)).symm⟩
  | cons move rest ih =>
    obtain ⟨still,first⟩ := performStands inside move path
    obtain ⟨last,others⟩ := ih still
    refine ⟨last,others.trans ?_⟩
    rw [first,and_assoc,List.forall_mem_cons]

theorem performWaits {place : Nat} {update : Update} (there : scene.updates[place]? = some update)
    {move : Move} (other : move ≠ .turn place) :
    (move.perform scene).state.updates[place]? = some update := by
  cases move with
  | call operation => exact there
  | start path root =>
    have inside := (List.getElem?_eq_some_iff.mp there).1
    exact (List.getElem?_append_left inside).trans there
  | turn turned =>
    unfold Move.perform
    dsimp only
    split
    · exact there
    · exact (List.getElem?_set_ne fun same => other (congrArg Move.turn same)).trans there

theorem afterWaits {place : Nat} {update : Update} (there : scene.updates[place]? = some update)
    {moves : List Move} (waits : .turn place ∉ moves) :
    (scene.after moves).updates[place]? = some update := by
  induction moves generalizing scene with
  | nil => exact there
  | cons move rest ih =>
    obtain ⟨other,later⟩ := not_or.mp (mt List.mem_cons.mpr waits)
    exact ih (performWaits there (Ne.symm other)) later

theorem turnRuns {place : Nat} {update : Update} (there : scene.updates[place]? = some update) :
    scene.after [.turn place] = ⟨(update.turn scene.workspace).state,
      scene.updates.set place (update.turn scene.workspace).answer⟩ := by
  change ((Move.turn place).perform scene).state = _
  unfold Move.perform
  dsimp only
  rw [there]

theorem turnReplaces {place handle : Nat} {path : Spelling} {root : Node} {file : File}
    (there : scene.updates[place]? = some ⟨path,root,.found handle⟩)
    (standing : scene.workspace.files[handle]? = some file) :
    let done := scene.after [.turn place]
    done.updates[place]? = some ⟨path,root,.returned (some file.stamp.next)⟩ ∧
      done.workspace.files[handle]? = some { file with snapshot := ⟨file.stamp.next,root⟩ } ∧
      done.workspace.registry = scene.workspace.registry := by
  intro done
  have turned : done = _ := turnRuns there
  have inside := (List.getElem?_eq_some_iff.mp there).1
  rw [turned,Update.turnState,Update.turnFound standing]
  refine ⟨List.getElem?_set_self inside,?_,onFileRegistry _ _ _⟩
  rw [onFileOwn,standing]
  rfl

theorem startWaits (scene : Scene) (path : Spelling) (root : Node) :
    let begun := scene.after [.start path root]
    begun.workspace = scene.workspace ∧ begun.updates[scene.updates.length]? =
      some ⟨path,root,(scene.workspace.handle? path).elim (.returned none) .found⟩ := by
  intro begun
  have started : begun = ⟨(Update.start path root scene.workspace).state,
    scene.updates ++ [(Update.start path root scene.workspace).answer]⟩ := rfl
  rw [started]
  cases standing : scene.workspace.handle? path with
  | none =>
    rw [Update.startAbsent standing]
    exact ⟨rfl,List.getElem?_concat_length⟩
  | some handle =>
    rw [Update.startStanding standing]
    exact ⟨rfl,List.getElem?_concat_length⟩

/- An update that has found no file changes none. Else the file it has found gets the root under its
next stamp, which is what the update returns, whatever else was done to the file in between. It stands
at the path still if and only if the path was neither opened nor closed between the two steps. -/
theorem updateReplacesFound (before between : List Move) (path : Spelling) (root : Node)
    (waits : .turn (empty.after before).updates.length ∉ between) :
    let looking := empty.after before
    let place := looking.updates.length
    let late := (looking.after [.start path root]).after between
    let done := late.after [.turn place]
    (looking.workspace.handle? path = none →
      done.updates[place]? = some ⟨path,root,.returned none⟩ ∧ done.workspace = late.workspace) ∧
    ∀ handle, looking.workspace.handle? path = some handle →
      ∃ file, late.workspace.files[handle]? = some file ∧
        done.updates[place]? = some ⟨path,root,.returned (some file.stamp.next)⟩ ∧
        done.workspace.files[handle]? = some { file with snapshot := ⟨file.stamp.next,root⟩ } ∧
        (done.workspace.handle? path = some handle ↔ ∀ move ∈ between, ¬ move.Redirects path) := by
  intro looking place late done
  obtain ⟨same,begun⟩ := startWaits looking path root
  have waiting := afterWaits begun waits
  constructor
  · intro absent
    rw [absent] at waiting
    have turned : done = ⟨late.workspace,late.updates.set place ⟨path,root,.returned none⟩⟩ :=
      turnRuns waiting
    have inside := (List.getElem?_eq_some_iff.mp waiting).1
    rw [turned]
    exact ⟨List.getElem?_set_self inside,rfl⟩
  · intro handle standing
    rw [standing] at waiting
    obtain ⟨past,mirrors⟩ : ∃ past, Mirrors past looking.workspace :=
      afterMirrors mirrorsEmpty before
    obtain ⟨_,found⟩ := mirrors.found standing
    have inside : handle < (looking.after [.start path root]).workspace.files.size := by
      rw [same]
      exact (Array.getElem?_eq_some_iff.mp found).1
    obtain ⟨there,stands⟩ := afterStands inside between path
    obtain ⟨answer,replaced,registry⟩ := turnReplaces waiting (Array.getElem?_eq_getElem there)
    refine ⟨_,Array.getElem?_eq_getElem there,answer,replaced,?_⟩
    rw [lookupSame registry,stands,same]
    exact and_iff_right standing

theorem updateAfterReplacement :
    let file (key : Nat) : Node := ⟨key,.file,⟨0,0⟩,⟨key,""⟩,none,[]⟩
    let before : List Move := [.call (.openFile "src/a.go" (file 0))]
    let between : List Move := [.call (.onFile 0 (.replaceRoot (file 1))),
      .call (.openFile "src/b.go" (file 2))]
    let looking := empty.after before
    let late := (looking.after [.start "src/a.go" (file 3)]).after between
    let done := late.after [.turn 0]
    .turn looking.updates.length ∉ between ∧ looking.workspace.handle? "src/a.go" = some 0 ∧
      done.updates[0]? = some ⟨"src/a.go",file 3,.returned (some (.after 2))⟩ ∧
      done.workspace.files[0]? = some ⟨⟨.after 2,file 3⟩,.empty,0⟩ ∧
      done.workspace.handle? "src/a.go" = some 0 := by
  intro file before between looking late done
  have waits : .turn looking.updates.length ∉ between := by simp [between]
  have opened : looking.workspace.handle? "src/a.go" = some 0 :=
    (openFileHandle .empty "src/a.go" "src/a.go" (file 0)).trans (if_pos rfl)
  obtain ⟨-,own⟩ := updateReplacesFound before between "src/a.go" (file 3) waits
  obtain ⟨found,there,answer,replaced,stands⟩ := own 0 opened
  have earlier : found = ⟨⟨.after 1,file 1⟩,.empty,0⟩ := by
    obtain ⟨same,-⟩ := looking.startWaits "src/a.go" (file 3)
    have files : late.workspace.files = ((onFile 0 (File.Operation.perform (.replaceRoot (file 1)))
        (looking.after [.start "src/a.go" (file 3)]).workspace).state.files.push (.ofRoot (file 2))) :=
      rfl
    rw [files,same] at there
    exact (Option.some.inj there).symm
  rw [earlier] at answer replaced
  refine ⟨waits,opened,answer,replaced,stands.mpr ?_⟩
  have apart : Path.ofSpelling "src/b.go" ≠ Path.ofSpelling "src/a.go" := by decide
  simp [between,Move.Redirects,Operation.Redirects,apart]

theorem updateAfterClose :
    let file (key : Nat) : Node := ⟨key,.file,⟨0,0⟩,⟨key,""⟩,none,[]⟩
    let late := empty.after [.call (.openFile "a.go" (file 0)),.start "a.go" (file 1),
      .call (.close "a.go")]
    let done := late.after [.turn 0]
    late.updates[0]? = some ⟨"a.go",file 1,.found 0⟩ ∧
    done.updates[0]? = some ⟨"a.go",file 1,.returned (some (.after 1))⟩ ∧
      done.workspace.handle? "a.go" = none := by
  intro file late done
  let looking := empty.after [.call (.openFile "a.go" (file 0))]
  have opened : looking.workspace.handle? "a.go" = some 0 :=
    (openFileHandle .empty "a.go" "a.go" (file 0)).trans (if_pos rfl)
  obtain ⟨same,waiting⟩ := looking.startWaits "a.go" (file 1)
  rw [opened] at waiting
  have there : late.workspace.files[0]? = some (.ofRoot (file 0)) := by
    have files : late.workspace.files = (looking.after [.start "a.go" (file 1)]).workspace.files :=
      closeFiles _ "a.go"
    rw [files,same]
    rfl
  have closed : late.workspace.handle? "a.go" = none :=
    (closeHandle _ "a.go" "a.go").trans (if_pos rfl)
  obtain ⟨answer,-,registry⟩ := @turnReplaces late 0 0 "a.go" (file 1) _ waiting there
  exact ⟨waiting,answer,(lookupSame registry "a.go").trans closed⟩

end Scene
end DeclViews.Workspace
