import DeclViews.Proofs.Path.Spelling
import DeclViews.Proofs.Workspace.Lookup
import DeclViews.Proofs.Workspace.Operation
import Mathlib.Data.List.Induction

/-! What a workspace lists. The listed paths ascend by their components, so no two of them are
spellings of one path, and a path is open in every spelling of a listed one and in no other. An
entry comes into the registry by the opening of a path that is absent, and no later operation
changes its spelling until the path is closed. -/
namespace DeclViews.Workspace

variable {w : Workspace} {key : Path} {entry : Entry}

theorem memSpellings {spelling : Spelling} : spelling ∈ w.spellings ↔
    ∃ (key : Path) (entry : Entry), w.registry[key]? = some entry ∧ entry.spelling = spelling := by
  simp only [spellings,List.mem_map,Prod.exists,Std.ExtTreeMap.mem_toList_iff_getElem?_eq_some]

theorem sizeSpellings (w : Workspace) : w.size = w.spellings.length := by
  rw [spellings,List.length_map,Std.ExtTreeMap.length_toList,size]

theorem isEmptySpellings : w.isEmpty = true ↔ w.spellings = [] := by
  rw [isEmpty,← Std.ExtTreeMap.isEmpty_toList,List.isEmpty_iff,spellings,List.map_eq_nil_iff]

def Keyed (w : Workspace) : Prop :=
  ∀ key entry, w.registry[key]? = some entry → Path.ofSpelling entry.spelling = key

theorem Keyed.ascending (keyed : Keyed w) :
    w.spellings.Pairwise fun a b => compare (Path.ofSpelling a) (Path.ofSpelling b) = .lt := by
  rw [spellings,List.pairwise_map]
  refine Std.ExtTreeMap.ordered_keys_toList.imp_of_mem ?_
  intro a b left right below
  have first := keyed a.1 a.2 (Std.ExtTreeMap.mem_toList_iff_getElem?_eq_some.mp left)
  have second := keyed b.1 b.2 (Std.ExtTreeMap.mem_toList_iff_getElem?_eq_some.mp right)
  rw [first,second]
  exact below

theorem Keyed.present (keyed : Keyed w) (path : Spelling) : (w.handle? path).isSome = true ↔
    ∃ spelling ∈ w.spellings, Path.Respelled spelling path := by
  simp only [Path.respelledIff,memSpellings,handle?,Option.isSome_map,Option.isSome_iff_exists]
  constructor
  · intro there
    obtain ⟨entry,there⟩ := there
    exact ⟨_,⟨_,entry,there,rfl⟩,keyed _ _ there⟩
  · intro listed
    obtain ⟨_,⟨key,entry,there,rfl⟩,same⟩ := listed
    rw [keyed key entry there] at same
    exact ⟨entry,same ▸ there⟩

namespace Operation

theorem performEntry (operation : Operation)
    (there : (operation.perform w).state.registry[key]? = some entry) :
    (∃ old, w.registry[key]? = some old ∧ old.spelling = entry.spelling) ∨
      (∃ root, operation = .openFile entry.spelling root) ∧ Path.ofSpelling entry.spelling = key ∧
        w.registry[key]? = none := by
  cases operation with
  | openFile spelling root =>
    have there : (Workspace.openFile spelling root w).state.registry[key]? = some entry := there
    rw [openFileEntry] at there
    split at there
    · rename_i same
      cases Option.some.inj there
      cases found : w.registry[key]? with
      | none => exact .inr ⟨⟨root,rfl⟩,same,rfl⟩
      | some old => exact .inl ⟨old,rfl,rfl⟩
    · exact .inl ⟨entry,there,rfl⟩
  | close spelling =>
    have there : (Workspace.close spelling w).state.registry[key]? = some entry := there
    rw [closeEntry] at there
    split at there
    · contradiction
    · exact .inl ⟨entry,there,rfl⟩
  | update spelling root =>
    obtain ⟨registry,-⟩ := updateLookups spelling root w
    exact .inl ⟨entry,registry ▸ there,rfl⟩
  | get spelling => exact .inl ⟨entry,there,rfl⟩
  | onFile handle operation =>
    exact .inl ⟨entry,onFileRegistry w handle operation.perform ▸ there,rfl⟩

theorem performPresent {path : Spelling} (operation : Operation) (present : w.handle? path ≠ none)
    (kept : ∀ closing, operation = .close closing → ¬ Path.Respelled closing path) :
    (operation.perform w).state.handle? path ≠ none := by
  cases operation with
  | openFile spelling root =>
    have after : (Workspace.openFile spelling root w).state.handle? path ≠ none := by
      rw [openFileHandle]
      split
      · exact Option.some_ne_none _
      · exact present
    exact after
  | close spelling =>
    have after : (Workspace.close spelling w).state.handle? path ≠ none := by
      rw [closeHandle,if_neg (mt Path.respelledIff.mpr (kept spelling rfl))]
      exact present
    exact after
  | update spelling root =>
    have after := lookupSame (updateLookups spelling root w).1 path
    exact after ▸ present
  | get spelling => exact present
  | onFile handle operation =>
    have after := lookupSame (onFileRegistry w handle operation.perform) path
    exact after ▸ present

theorem runAppend (xs ys : List Operation) (w : Workspace) :
    (run (xs ++ ys) w).state = (run ys (run xs w).state).state := by
  induction xs generalizing w with
  | nil => rfl
  | cons operation rest ih => exact ih (operation.perform w).state

def reached (operations : List Operation) : Workspace := (run operations empty).state

theorem reachedNext (past : List Operation) (operation : Operation) :
    reached (past ++ [operation]) = (operation.perform (reached past)).state :=
  runAppend past [operation] empty

theorem reachedPresent (before : List Operation) (path : Spelling) (root : Node)
    {after : List Operation}
    (kept : ∀ closing, .close closing ∈ after → ¬ Path.Respelled closing path) :
    (reached (before ++ .openFile path root :: after)).handle? path ≠ none := by
  induction after using List.reverseRecOn with
  | nil =>
    have opened := openFileHandle (reached before) path path root
    rw [if_pos rfl] at opened
    rw [reachedNext]
    exact opened ▸ Option.some_ne_none _
  | append_singleton early operation ih =>
    have whole : before ++ .openFile path root :: (early ++ [operation]) =
        before ++ .openFile path root :: early ++ [operation] := by simp
    rw [whole,reachedNext]
    refine performPresent operation (ih fun closing member => ?_) fun closing same => ?_
    · exact kept closing (List.mem_append_left _ member)
    · exact kept closing (List.mem_append_right _ (List.mem_singleton.mpr same.symm))

def Introduced (operations : List Operation) (spelling : Spelling) : Prop :=
  ∃ before root after, operations = before ++ .openFile spelling root :: after ∧
    (reached before).handle? spelling = none ∧ ∀ early, early <+: after →
      (reached (before ++ .openFile spelling root :: early)).handle? spelling ≠ none

theorem Introduced.next {past : List Operation} {spelling : Spelling} (introduced : Introduced past spelling)
    {operation : Operation} (present : (reached (past ++ [operation])).handle? spelling ≠ none) :
    Introduced (past ++ [operation]) spelling := by
  obtain ⟨before,root,after,rfl,absent,since⟩ := introduced
  have whole : before ++ .openFile spelling root :: after ++ [operation] =
      before ++ .openFile spelling root :: (after ++ [operation]) := by simp
  rw [whole] at present ⊢
  refine ⟨before,root,after ++ [operation],rfl,absent,fun early part => ?_⟩
  rcases List.prefix_concat_iff.mp part with rfl | sooner
  · exact present
  · exact since early sooner

theorem reachedSpelled (operations : List Operation)
    (there : (reached operations).registry[key]? = some entry) :
    Path.ofSpelling entry.spelling = key ∧ Introduced operations entry.spelling := by
  -- An entry is traced back from the last operation, so the operations are taken from their end.
  induction operations using List.reverseRecOn generalizing entry with
  | nil =>
    have none : (reached []).registry[key]? = none := Std.ExtTreeMap.getElem?_empty
    rw [none] at there
    contradiction
  | append_singleton past operation ih =>
    have present (same : Path.ofSpelling entry.spelling = key) :
        (reached (past ++ [operation])).handle? entry.spelling ≠ none := by
      rw [handle?,same,there]
      exact Option.some_ne_none _
    rw [reachedNext] at there
    rcases performEntry operation there with ⟨old,before,same⟩ | ⟨⟨root,opened⟩,same,absent⟩
    · obtain ⟨leads,introduced⟩ := ih before
      rw [same] at leads introduced
      exact ⟨leads,introduced.next (present leads)⟩
    · subst opened
      refine ⟨same,past,root,[],rfl,?_,fun early part => ?_⟩
      · rw [handle?,same,absent]
        rfl
      · rw [List.prefix_nil.mp part]
        exact present same

end Operation

structure Listed (operations : List Operation) (w : Workspace) : Prop where
  ascending : w.spellings.Pairwise fun a b => compare (Path.ofSpelling a) (Path.ofSpelling b) = .lt
  distinct : w.spellings.Pairwise fun a b => ¬ Path.Respelled a b
  size : w.size = w.spellings.length
  isEmpty : w.isEmpty = true ↔ w.spellings = []
  present : ∀ path, (w.handle? path).isSome = true ↔ ∃ spelling ∈ w.spellings, Path.Respelled spelling path
  introduced : ∀ spelling ∈ w.spellings, Operation.Introduced operations spelling
  stays : ∀ before path root after, operations = before ++ .openFile path root :: after →
    (∀ closing, .close closing ∈ after → ¬ Path.Respelled closing path) →
    ∃ spelling ∈ w.spellings, Path.Respelled spelling path

theorem registryListed (operations : List Operation) :
    Listed operations (Operation.reached operations) := by
  have keyed : Keyed (Operation.reached operations) :=
    fun key entry there => (Operation.reachedSpelled operations there).1
  have ascending := keyed.ascending
  refine ⟨ascending,ascending.imp ?_,sizeSpellings _,isEmptySpellings,keyed.present,?_,?_⟩
  · intro a b below respelled
    rw [Std.compare_eq_iff_eq.mpr (Path.respelledIff.mp respelled)] at below
    contradiction
  · intro spelling listed
    obtain ⟨key,entry,there,rfl⟩ := memSpellings.mp listed
    exact (Operation.reachedSpelled operations there).2
  · intro before path root after whole kept
    subst whole
    have present := Operation.reachedPresent before path root kept
    exact (keyed.present path).mp (Option.isSome_iff_ne_none.mpr present)

example (root : Node) :
    (Operation.reached [.openFile "a-b" root,.openFile "a/b" root,.openFile "a//b/" root]).paths =
      ["a/b","a-b"] ∧ "a-b" < "a/b" := by
  constructor
  · rfl
  · decide

end DeclViews.Workspace
