import DeclViews.Workspace

/-! What an action does to the files of a workspace and to the lookup of paths. An action on a file
changes no other file and no lookup; an opening and a closing change the lookup of their own path, in
any of its spellings, and no file that is there. -/
namespace DeclViews.Workspace

variable {α : Type} {w : Workspace}

@[simp] theorem onFileAnswer (w : Workspace) (handle : Nat) (action : Action File α) :
    (onFile handle action w).answer = w.files[handle]?.map fun file => (action file).answer := by
  unfold onFile
  cases w.files[handle]? <;> rfl

@[simp] theorem onFileRegistry (w : Workspace) (handle : Nat) (action : Action File α) :
    (onFile handle action w).state.registry = w.registry := by
  unfold onFile
  cases w.files[handle]? <;> rfl

@[simp] theorem onFileSize (w : Workspace) (handle : Nat) (action : Action File α) :
    (onFile handle action w).state.files.size = w.files.size := by
  unfold onFile
  cases w.files[handle]? with
  | none => rfl
  | some file => exact Array.size_setIfInBounds

@[simp] theorem onFileOwn (w : Workspace) (handle : Nat) (action : Action File α) :
    (onFile handle action w).state.files[handle]? =
      w.files[handle]?.map fun file => (action file).state := by
  unfold onFile
  cases found : w.files[handle]? with
  | none => exact found
  | some file =>
    obtain ⟨inside,-⟩ := Array.getElem?_eq_some_iff.mp found
    exact Array.getElem?_setIfInBounds_self_of_lt inside

@[simp] theorem onFileOther (w : Workspace) {handle other : Nat} (differ : handle ≠ other)
    (action : Action File α) : (onFile handle action w).state.files[other]? = w.files[other]? := by
  unfold onFile
  cases w.files[handle]? with
  | none => rfl
  | some file => exact Array.getElem?_setIfInBounds_ne differ

@[simp] theorem openFileFiles (w : Workspace) (path : Spelling) (root : Node) (handle : Nat) :
    (openFile path root w).state.files[handle]? =
      if handle = w.files.size then some (.ofRoot root) else w.files[handle]? := Array.getElem?_push

theorem openFileSize (w : Workspace) (path : Spelling) (root : Node) :
    (openFile path root w).state.files.size = w.files.size + 1 := Array.size_push _

@[simp] theorem openFileEntry (w : Workspace) (path : Spelling) (root : Node) (key : Path) :
    (openFile path root w).state.registry[key]? =
      if Path.ofSpelling path = key then
        some ⟨(w.registry[key]?.map Entry.spelling).getD path,w.files.size⟩
      else w.registry[key]? := by
  unfold openFile
  rw [Std.ExtTreeMap.getElem?_alter]
  by_cases same : Path.ofSpelling path = key
  · subst same
    rw [if_pos Std.ReflCmp.compare_self,if_pos rfl]
    cases w.registry[Path.ofSpelling path]? <;> rfl
  · rw [if_neg (mt Std.compare_eq_iff_eq.mp same),if_neg same]

@[simp] theorem openFileHandle (w : Workspace) (path other : Spelling) (root : Node) :
    (openFile path root w).state.handle? other =
      if Path.ofSpelling path = Path.ofSpelling other then some w.files.size else w.handle? other := by
  rw [handle?,openFileEntry]
  split <;> rfl

theorem closeAbsent {path : Spelling} (absent : w.handle? path = none) :
    close path w = ⟨false,w,[]⟩ := by
  unfold close
  rw [absent]

theorem closeStanding {path : Spelling} {handle : Nat} (standing : w.handle? path = some handle) :
    close path w = ⟨true,{ w with registry := w.registry.erase (Path.ofSpelling path) },
      [.fileClosed path]⟩ := by
  unfold close
  rw [standing]

theorem closeAnswer (w : Workspace) (path : Spelling) :
    (close path w).answer = (w.handle? path).isSome := by
  unfold close
  cases w.handle? path <;> rfl

@[simp] theorem closeFiles (w : Workspace) (path : Spelling) : (close path w).state.files = w.files := by
  unfold close
  cases w.handle? path <;> rfl

@[simp] theorem closeEntry (w : Workspace) (path : Spelling) (key : Path) :
    (close path w).state.registry[key]? =
      if Path.ofSpelling path = key then none else w.registry[key]? := by
  cases standing : w.handle? path with
  | none =>
    rw [closeAbsent standing]
    by_cases same : Path.ofSpelling path = key
    · subst same
      rw [if_pos rfl]
      exact Option.map_eq_none_iff.mp standing
    · rw [if_neg same]
  | some handle =>
    rw [closeStanding standing]
    dsimp only
    rw [Std.ExtTreeMap.getElem?_erase]
    simp only [Std.compare_eq_iff_eq]

@[simp] theorem closeHandle (w : Workspace) (path other : Spelling) :
    (close path w).state.handle? other =
      if Path.ofSpelling path = Path.ofSpelling other then none else w.handle? other := by
  rw [handle?,closeEntry]
  split <;> rfl

theorem updateAbsent {path : Spelling} (absent : w.handle? path = none) (root : Node) :
    update path root w = ⟨none,w,[]⟩ := by
  simp [update,absent]

theorem updateStanding {path : Spelling} {handle : Nat} (standing : w.handle? path = some handle)
    (root : Node) :
    (update path root w).state = (onFile handle (File.replaceRoot root) w).state ∧
      (update path root w).answer = (onFile handle (File.replaceRoot root) w).answer := by
  cases there : w.files[handle]? <;> simp [update,standing,there]

theorem updateLookups (path : Spelling) (root : Node) (w : Workspace) :
    (update path root w).state.registry = w.registry ∧
      (update path root w).state.files.size = w.files.size := by
  cases standing : w.handle? path with
  | none => simp [updateAbsent standing]
  | some handle => simp [(updateStanding standing root).1]

theorem lookupSame {later : Workspace} (registry : later.registry = w.registry) (path : Spelling) :
    later.handle? path = w.handle? path := by
  rw [handle?,handle?,registry]

end DeclViews.Workspace
