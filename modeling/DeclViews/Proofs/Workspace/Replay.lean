import DeclViews.Proofs.File.Invalidation
import DeclViews.Proofs.Journal.Ledger
import DeclViews.Proofs.Workspace.Independence

/-! The journal of a workspace, read again. After every operation the ledger has the paths that are
open, since an opening and a closing tell of themselves and whatever is done to a file names no
path. It has the stamps too as long as roots are replaced by updates alone: a root that is replaced
behind the back of the workspace is told of without its path. -/
namespace DeclViews

namespace File

theorem viewTells (v : View) (file : File) : ∀ event ∈ (view v file).events, event.path? = none := by
  cases found : (file.slots.get v).get? file.snapshot.stamp with
  | some value => simp [view,Slot.getOrCompute,found]
  | none => simp [view,Slot.getOrCompute,found,Event.path?]

theorem looksTell {α : Type} {action : Action File α} {views : List View} (looks : Looks action views)
    (file : File) : ∀ event ∈ (action file).events, event.path? = none := by
  induction looks generalizing file with
  | view v => exact viewTells v file
  | pure answer => exact List.forall_mem_nil _
  | bind before after ihBefore ihAfter =>
    exact List.forall_mem_append.mpr ⟨ihBefore file,ihAfter _ _⟩

theorem Operation.performTells (operation : Operation) (file : File) :
    ∀ event ∈ (operation.perform file).events, event.path? = none := by
  cases operation with
  | ask query =>
    exact List.forall_mem_append.mpr ⟨looksTell (looksAsk query) file,List.forall_mem_nil _⟩
  | isCurrent v => exact List.forall_mem_nil _
  | replaceRoot root => exact List.forall_mem_singleton.mpr rfl

end File

namespace Workspace

def stamp? (w : Workspace) (path : Spelling) : Option Stamp :=
  (w.handle? path).bind fun handle => w.files[handle]?.map File.stamp

variable {w : Workspace} {past : List Operation}

theorem stampFrame {β : Type} (seen : Option Stamp → β) {later : Workspace} {path : Spelling}
    (handles : later.handle? path = w.handle? path)
    (files : ∀ handle, w.handle? path = some handle →
      seen (later.files[handle]?.map File.stamp) = seen (w.files[handle]?.map File.stamp)) :
    seen (later.stamp? path) = seen (w.stamp? path) := by
  rw [stamp?,stamp?,handles]
  cases standing : w.handle? path with
  | none => rfl
  | some handle => exact files handle standing

theorem Mirrors.stampStanding (mirrors : Mirrors past w) (path : Spelling) :
    (w.stamp? path).isSome = (w.handle? path).isSome := by
  rw [stamp?]
  cases standing : w.handle? path with
  | none => rfl
  | some handle =>
    obtain ⟨file,there⟩ := mirrors.found standing
    rw [Option.bind_some,there]
    rfl

theorem Mirrors.openFileStamp (mirrors : Mirrors past w) (path : Spelling) (root : Node) (other : Spelling) :
    (Workspace.openFile path root w).state.stamp? other =
      if Path.ofSpelling path = Path.ofSpelling other then some .initial else w.stamp? other := by
  have handles := openFileHandle w path other root
  split at handles
  · rename_i same
    rw [if_pos same,stamp?,handles,Option.bind_some,openFileFiles,if_pos rfl]
    rfl
  · rename_i apart
    rw [if_neg apart]
    refine stampFrame id handles fun handle standing => ?_
    obtain ⟨file,there⟩ := mirrors.found standing
    have inside := (Array.getElem?_eq_some_iff.mp there).1
    rw [openFileFiles,if_neg (Nat.ne_of_lt inside)]

theorem closeStamp (w : Workspace) (path other : Spelling) : (close path w).state.stamp? other =
    if Path.ofSpelling path = Path.ofSpelling other then none else w.stamp? other := by
  by_cases same : Path.ofSpelling path = Path.ofSpelling other <;> simp [stamp?,same]

theorem Mirrors.updateStamp (mirrors : Mirrors past w) {path : Spelling} {handle : Nat} {file : File}
    (standing : w.handle? path = some handle) (there : w.files[handle]? = some file) (root : Node)
    (other : Spelling) : (Workspace.update path root w).state.stamp? other =
      if Path.ofSpelling path = Path.ofSpelling other then some file.stamp.next else w.stamp? other := by
  have handles := lookupSame (updateLookups path root w).1 other
  rw [(updateStanding standing root).1] at handles ⊢
  split
  · rename_i same
    have again : w.handle? other = some handle := by rw [← standing,handle?,handle?,same]
    rw [stamp?,handles,again,Option.bind_some,onFileOwn,there]
    rfl
  · rename_i apart
    refine stampFrame id handles fun place found => ?_
    have differ : handle ≠ place := by
      intro same
      subst same
      exact apart (mirrors.serves.apart path other handle standing found)
    rw [onFileOther w differ]

theorem updateEvents {path : Spelling} {handle : Nat} {file : File}
    (standing : w.handle? path = some handle) (there : w.files[handle]? = some file) (root : Node) :
    (update path root w).events =
      [.rootReplaced file.stamp.next,.fileChanged path file.stamp.next] := by
  have told : (onFile handle (File.replaceRoot root) w).events =
      [.rootReplaced file.stamp.next] := by
    unfold onFile
    rw [there]
    rfl
  simp [update,standing,there,told]

theorem onFileTells (w : Workspace) (handle : Nat) (operation : File.Operation) :
    ∀ event ∈ (onFile handle operation.perform w).events, event.path? = none := by
  unfold onFile
  cases w.files[handle]? with
  | none => exact List.forall_mem_nil _
  | some file => exact operation.performTells file

theorem onFileStamp {β : Type} {seen : Option Stamp → β} {operation : File.Operation}
    (kept : ∀ file, seen (some (operation.perform file).state.stamp) = seen (some file.stamp))
    (w : Workspace) (handle : Nat) (path : Spelling) :
    seen ((onFile handle operation.perform w).state.stamp? path) = seen (w.stamp? path) := by
  refine stampFrame seen (lookupSame (onFileRegistry w handle operation.perform) path) fun place _ => ?_
  by_cases same : handle = place
  · subst same
    rw [onFileOwn]
    cases w.files[handle]? with
    | none => rfl
    | some file => exact kept file
  · rw [onFileOther w same]

def OpensText (operation : Operation) : Prop :=
  ∀ path root, operation = .openFile path root → path.Unicode

theorem Mirrors.unicode (mirrors : Mirrors past w) (texts : ∀ operation ∈ past, OpensText operation)
    {path : Spelling} {handle : Nat} (standing : w.handle? path = some handle) : path.Unicode := by
  rw [mirrors.handles] at standing
  obtain ⟨spelling,root,member,same⟩ := Operation.standingOpened standing
  exact (Spelling.unicodeSame same).mp (texts _ member spelling root rfl)

def Reports {β : Type} (seen : Option Stamp → β) (ledger : Ledger) (w : Workspace) : Prop :=
  ∀ path, seen (ledger.stamp? path) = seen (w.stamp? path)

def Overlooks {β : Type} (seen : Option Stamp → β) (operation : Operation) : Prop :=
  ∀ handle root, operation = .onFile handle (.replaceRoot root) →
    ∀ a b : Stamp, seen (some a) = seen (some b)

variable {β : Type} {seen : Option Stamp → β} {ledger : Ledger}

theorem Reports.both (reports : Reports seen ledger w) {entered : Ledger} {after : Workspace}
    {path : Spelling} {stamp : Option Stamp}
    (left : ∀ other, entered.stamp? other =
      if Path.ofSpelling path = Path.ofSpelling other then stamp else ledger.stamp? other)
    (right : ∀ other, after.stamp? other =
      if Path.ofSpelling path = Path.ofSpelling other then stamp else w.stamp? other) :
    Reports seen entered after := by
  intro other
  rw [left,right]
  split
  · rfl
  · exact reports other

theorem Reports.onFile (reports : Reports seen ledger w) {handle : Nat} {operation : File.Operation}
    (overlooks : Overlooks seen (.onFile handle operation)) :
    Reports seen ((Workspace.onFile handle operation.perform w).events.foldl Ledger.enter ledger)
      (Workspace.onFile handle operation.perform w).state := by
  have kept (file : File) :
      seen (some (operation.perform file).state.stamp) = seen (some file.stamp) := by
    cases operation with
    | ask query => exact congrArg (fun s : Snapshot => seen (some s.stamp)) (File.askSnapshot query file)
    | isCurrent v => rfl
    | replaceRoot root => exact overlooks handle root rfl _ _
  intro path
  rw [onFileStamp kept,Ledger.stamp?,Ledger.foldPathless (onFileTells w handle operation)]
  exact reports path

theorem Reports.close (reports : Reports seen ledger w) (path : Spelling)
    (unicode : ∀ handle, w.handle? path = some handle → path.Unicode) :
    Reports seen ((Workspace.close path w).events.foldl Ledger.enter ledger)
      (Workspace.close path w).state := by
  cases standing : w.handle? path with
  | none =>
    rw [closeAbsent standing]
    exact reports
  | some handle =>
    have told : (Workspace.close path w).events = [.fileClosed path] := by rw [closeStanding standing]
    rw [told]
    exact reports.both (fun _ => Ledger.stampClosed (unicode handle standing)) (closeStamp w path)

theorem Reports.update (reports : Reports seen ledger w) (mirrors : Mirrors past w) (path : Spelling)
    (root : Node) (unicode : ∀ handle, w.handle? path = some handle → path.Unicode) :
    Reports seen ((Workspace.update path root w).events.foldl Ledger.enter ledger)
      (Workspace.update path root w).state := by
  cases standing : w.handle? path with
  | none =>
    rw [updateAbsent standing]
    exact reports
  | some handle =>
    obtain ⟨file,there⟩ := mirrors.found standing
    rw [updateEvents standing there]
    exact reports.both (fun _ => Ledger.stampChanged (unicode handle standing) _ _)
      (mirrors.updateStamp standing there root)

theorem replyEvents {α : Type} (action : Action Workspace α) (reply : α → Reply)
    (w : Workspace) : ((do return reply (← action) : Action Workspace Reply) w).events =
      (action w).events :=
  List.append_nil _

theorem Reports.perform (reports : Reports seen ledger w) (mirrors : Mirrors past w)
    {operation : Operation} (overlooks : Overlooks seen operation) (text : OpensText operation)
    (texts : ∀ operation ∈ past, OpensText operation) :
    Reports seen ((operation.perform w).events.foldl Ledger.enter ledger) (operation.perform w).state := by
  cases operation with
  | openFile path root =>
    rw [Operation.perform,replyEvents]
    exact reports.both (fun _ => Ledger.stampOpened (text path root rfl)) (mirrors.openFileStamp path root)
  | close path =>
    rw [Operation.perform,replyEvents]
    exact reports.close path fun _ => mirrors.unicode texts
  | update path root =>
    rw [Operation.perform,replyEvents]
    exact reports.update mirrors path root fun _ => mirrors.unicode texts
  | get path => exact reports
  | onFile handle operation =>
    rw [Operation.perform,replyEvents]
    exact reports.onFile overlooks

theorem Reports.run (reports : Reports seen ledger w) (mirrors : Mirrors past w)
    {operations : List Operation} (overlooks : ∀ operation ∈ operations, Overlooks seen operation)
    (texts : ∀ operation ∈ operations, OpensText operation)
    (before : ∀ operation ∈ past, OpensText operation) :
    Reports seen ((Operation.run operations w).events.foldl Ledger.enter ledger)
      (Operation.run operations w).state := by
  -- The history grows with the run: it is what tells two open paths apart when one is updated.
  induction operations generalizing past w ledger with
  | nil => exact reports
  | cons operation rest ih =>
    obtain ⟨first,others⟩ := List.forall_mem_cons.mp overlooks
    obtain ⟨text,later⟩ := List.forall_mem_cons.mp texts
    have events : (Operation.run (operation :: rest) w).events =
        (operation.perform w).events ++ (Operation.run rest (operation.perform w).state).events :=
      congrArg ((operation.perform w).events ++ ·) (List.append_nil _)
    rw [events,List.foldl_append]
    exact ih (reports.perform mirrors first text before) (mirrors.perform operation) others later
      (List.forall_mem_cons.mpr ⟨text,before⟩)

/- The journal of a run in which only texts are opened is enough to tell which paths are open at its
end, and with which stamps if roots were replaced through updates alone. Operations that find nothing
open are silent, and what can be told from a journal can be told from its lines. -/
theorem journalReplays (operations : List Operation) :
    let outcome := Operation.run operations empty
    let ledger := Ledger.replay outcome.events
    ((∀ path root, .openFile path root ∈ operations → path.Unicode) →
      (∀ path, (ledger.stamp? path).isSome = (outcome.state.handle? path).isSome) ∧
      ((∀ handle root, .onFile handle (.replaceRoot root) ∉ operations) →
        ∀ path, ledger.stamp? path = outcome.state.stamp? path)) ∧
    (∀ path root, outcome.state.handle? path = none →
      (close path outcome.state).events = [] ∧ (update path root outcome.state).events = []) ∧
    (∀ path, ((Operation.get path).perform outcome.state).events = []) ∧
    ∀ journal, journal.map Event.line = outcome.events.map Event.line →
      Ledger.replay journal = ledger := by
  intro outcome ledger
  have begun {β : Type} (seen : Option Stamp → β) : Reports seen .empty Workspace.empty := by
    intro path
    rw [Ledger.stamp?,stamp?,handle?,empty,Ledger.empty,Std.ExtTreeMap.getElem?_empty,
      Std.ExtTreeMap.getElem?_empty]
    rfl
  have mirrors := (mirrorsEmpty.run operations).2
  refine ⟨fun unicode => ?_,fun path root absent => ?_,fun path => rfl,
    fun journal same => Ledger.foldLines same _⟩
  · have texts : ∀ operation ∈ operations, OpensText operation :=
      fun operation member path root same => unicode path root (same ▸ member)
    constructor
    · intro path
      have reports : Reports Option.isSome ledger outcome.state :=
        (begun _).run mirrorsEmpty (fun _ _ _ _ _ _ _ => rfl) texts (List.forall_mem_nil _)
      exact (reports path).trans (mirrors.stampStanding path)
    · intro direct
      refine (begun id).run mirrorsEmpty ?_ texts (List.forall_mem_nil _)
      intro operation member handle root same
      subst same
      exact absurd member (direct handle root)
  · rw [closeAbsent absent,updateAbsent absent]
    exact ⟨rfl,rfl⟩

theorem displacedFileReplayed :
    let file (key : Nat) : Node := ⟨key,.file,⟨0,0⟩,⟨key,""⟩,none,[]⟩
    let operations : List Operation := [.openFile "src/größe.go" (file 0),
      .update "src//größe.go" (file 1),.onFile 0 (.ask .outline),.openFile "src/./größe.go" (file 2),
      .openFile "b.go" (file 3),.update "src/größe.go" (file 4),.update ⟨[0xff]⟩ (file 5),.close "b.go/"]
    let outcome := Operation.run operations empty
    let ledger := Ledger.replay outcome.events
    (∀ path root, .openFile path root ∈ operations → path.Unicode) ∧
      (∀ handle root, .onFile handle (.replaceRoot root) ∉ operations) ∧
      ledger.stamp? "src/größe.go" = some (.after 1) ∧
      outcome.state.handle? "b.go" = none ∧ (ledger.stamp? "b.go").isSome = false ∧
      (close "b.go" outcome.state).events = [] ∧
      ∀ journal, journal.map Event.line = outcome.events.map Event.line →
        Ledger.replay journal = ledger := by
  intro file operations outcome ledger
  obtain ⟨faithful,silent,-,lines⟩ := journalReplays operations
  have unicode : ∀ path root, Operation.openFile path root ∈ operations → path.Unicode := by
    intro path root member
    simp only [operations,List.mem_cons,Operation.openFile.injEq,reduceCtorEq,false_or,or_false,
      List.not_mem_nil] at member
    rcases member with ⟨rfl,-⟩ | ⟨rfl,-⟩ | ⟨rfl,-⟩ <;> exact ⟨_,rfl⟩
  have direct : ∀ handle root, Operation.onFile handle (.replaceRoot root) ∉ operations := by
    intro handle root member
    simp [operations] at member
  obtain ⟨opened,stamps⟩ := faithful unicode
  have stamp : outcome.state.stamp? "src/größe.go" = some (.after 1) := by decide +kernel
  have closed : outcome.state.handle? "b.go" = none := by decide +kernel
  refine ⟨unicode,direct,(stamps direct _).trans stamp,closed,?_,(silent "b.go" (file 0) closed).1,lines⟩
  rw [opened,closed]
  rfl

/- Two paths that are no texts are shown alike. When one is closed, nothing is left open for a reader of
the journal, and the other one is open still. -/
theorem shownAlikeUnreported :
    let file (key : Nat) : Node := ⟨key,.file,⟨0,0⟩,⟨key,""⟩,none,[]⟩
    let left : Spelling := ⟨[0xff,0x2e,0x67,0x6f]⟩
    let right : Spelling := ⟨[0xfe,0x2e,0x67,0x6f]⟩
    let outcome := Operation.run [.openFile left (file 0),.openFile right (file 1),
      .update right (file 2),.close left] empty
    let ledger := Ledger.replay outcome.events
    outcome.events.map Event.message = ["File opened: \ufffd.go","File opened: \ufffd.go",
      "file root replaced","File changed: \ufffd.go (#1)","File closed: \ufffd.go"] ∧
      outcome.state.stamp? right = some (.after 1) ∧ outcome.state.spellings = [right] ∧
      ledger.stamps.isEmpty = true ∧ ledger.stamp? right = none := by
  decide +kernel

end Workspace
end DeclViews
