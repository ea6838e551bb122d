import DeclViews.Declaration
import Mathlib.Data.List.Basic
import Mathlib.Data.List.TakeWhile

/-! The last segment of an import path. Slashes cut a path into segments, and those that are empty
do not count; the name of an import without an alias is the last of the others. A path that has a
name is made of three parts: nothing or a directory with its slash, then the name, then any number
of slashes. There is one way at most to cut a path like this, and none if it is slashes alone, so
slashes behind a path and directories in front of it make no difference to its name. -/
namespace DeclViews.Import

def segments (path : List Char) : List (List Char) := (path.splitOn '/').filter (!·.isEmpty)

@[simp] theorem segmentsAround (front back : List Char) :
    segments (front ++ '/' :: back) = segments front ++ segments back := by
  simp only [segments,List.splitOn_append_cons_self,List.filter_append]

theorem segmentsPlain {segment : List Char} (plain : '/' ∉ segment) (filled : segment ≠ []) :
    segments segment = [segment] := by
  simp [segments,List.splitOn_eq_singleton plain,filled]

@[simp] theorem segmentsSlashes (count : Nat) : segments (List.replicate count '/') = [] := by
  induction count with
  | zero => rfl
  | succ count ih =>
    have apart := segmentsAround [] (List.replicate count '/')
    rw [ih] at apart
    exact apart

@[simp] theorem segmentsTrailing (path : List Char) (count : Nat) :
    segments (path ++ List.replicate count '/') = segments path := by
  cases count with
  | zero => simp
  | succ count => rw [List.replicate_succ,segmentsAround,segmentsSlashes,List.append_nil]

def Closed (front : List Char) : Prop := front = [] ∨ ∃ before, front = before ++ ['/']

theorem segmentsEnd {front segment : List Char} (closed : Closed front) (plain : '/' ∉ segment)
    (filled : segment ≠ []) (count : Nat) :
    segments (front ++ segment ++ List.replicate count '/') = segments front ++ [segment] := by
  rw [segmentsTrailing]
  rcases closed with rfl | ⟨before,rfl⟩
  · exact segmentsPlain plain filled
  · have empty : segments [] = [] := rfl
    rw [List.append_assoc,List.singleton_append,segmentsAround,segmentsPlain plain filled,
      segmentsAround,empty,List.append_nil]

theorem lastSegmentPlain (reversed : List Char) : '/' ∉ lastSegment reversed := by
  intro member
  have passed := List.mem_takeWhile_imp member
  simp at passed

theorem lastSegmentNone {reversed : List Char} (none : lastSegment reversed = []) :
    ∀ c ∈ reversed, c = '/' := by
  have passed : reversed.dropWhile (· == '/') = [] := by
    cases rest : reversed.dropWhile (· == '/') with
    | nil => rfl
    | cons c tail =>
      have other := List.head?_dropWhile_not (· == '/') reversed
      simp [lastSegment,rest] at none other
      contradiction
  simpa using List.dropWhile_eq_nil_iff.mp passed

theorem lastSegmentParts (reversed : List Char) : ∃ count rest,
    reversed = List.replicate count '/' ++ lastSegment reversed ++ rest ∧
      (rest = [] ∨ ∃ before, rest = '/' :: before) := by
  let passed := reversed.dropWhile (· == '/')
  have slashes : reversed.takeWhile (· == '/') =
      List.replicate (reversed.takeWhile (· == '/')).length '/' :=
    List.eq_replicate_of_mem fun c member => by simpa using List.mem_takeWhile_imp member
  refine ⟨(reversed.takeWhile (· == '/')).length,passed.dropWhile (· != '/'),?_,?_⟩
  · rw [← slashes,List.append_assoc,lastSegment,List.takeWhile_append_dropWhile,
      List.takeWhile_append_dropWhile]
  · have stopped := List.head?_dropWhile_not (· != '/') passed
    cases rest : passed.dropWhile (· != '/') with
    | nil => exact .inl rfl
    | cons c before =>
      have slash : c = '/' := by simpa [rest] using stopped
      exact .inr ⟨before,by rw [slash]⟩

theorem pathEnds (path : List Char) : ∃ front count,
    path = front ++ (lastSegment path.reverse).reverse ++ List.replicate count '/' ∧
      Closed front := by
  obtain ⟨count,rest,parts,closed⟩ := lastSegmentParts path.reverse
  refine ⟨rest.reverse,count,?_,?_⟩
  · have whole := congrArg List.reverse parts
    simpa only [List.reverse_reverse,List.reverse_append,List.reverse_replicate,
      List.append_assoc] using whole
  · rcases closed with rfl | ⟨before,rfl⟩
    · exact .inl rfl
    · exact .inr ⟨before.reverse,List.reverse_cons⟩

theorem defaultNameSegment (path : String) :
    defaultName? path = (segments path.toList).getLast?.map String.ofList := by
  have plain := lastSegmentPlain path.toList.reverse
  cases last : lastSegment path.toList.reverse with
  | nil =>
    have slashes : path.toList = List.replicate path.toList.length '/' :=
      List.eq_replicate_of_mem fun c member =>
        lastSegmentNone last c (List.mem_reverse.mpr member)
    rw [slashes,segmentsSlashes]
    simp [defaultName?,last]
  | cons c tail =>
    obtain ⟨front,count,whole,closed⟩ := pathEnds path.toList
    rw [last] at plain whole
    have found := segmentsEnd closed (mt List.mem_reverse.mp plain) (by simp) count
    rw [← whole] at found
    simp [defaultName?,last,found]

def slashes (count : Nat) : String := String.ofList (List.replicate count '/')

structure NamedBy (path name : String) : Prop where
  filled : name ≠ ""
  plain : '/' ∉ name.toList
  parts : ∃ front count, path = front ++ name ++ slashes count ∧
    (front = "" ∨ ∃ before, front = before ++ "/")

variable {path name : String}

theorem closedFront {front : String} (closed : front = "" ∨ ∃ before, front = before ++ "/") :
    Closed front.toList := by
  rcases closed with rfl | ⟨before,rfl⟩
  · exact .inl String.toList_empty
  · exact .inr ⟨before.toList,String.toList_append⟩

theorem closedText {front : List Char} (closed : Closed front) :
    String.ofList front = "" ∨ ∃ before, String.ofList front = before ++ "/" := by
  rcases closed with rfl | ⟨before,rfl⟩
  · exact .inl rfl
  · exact .inr ⟨String.ofList before,String.ofList_append⟩

theorem NamedBy.defaultName (named : NamedBy path name) : defaultName? path = some name := by
  obtain ⟨filled,plain,front,count,rfl,closed⟩ := named
  have chars : (front ++ name ++ slashes count).toList =
      front.toList ++ name.toList ++ List.replicate count '/' := by simp [slashes]
  have last := segmentsEnd (closedFront closed) plain (by simpa using filled) count
  rw [defaultNameSegment,chars,last]
  simp

theorem defaultNameParts (found : defaultName? path = some name) : NamedBy path name := by
  have plain := lastSegmentPlain path.toList.reverse
  obtain ⟨front,count,whole,closed⟩ := pathEnds path.toList
  cases last : lastSegment path.toList.reverse with
  | nil => simp [defaultName?,last] at found
  | cons c tail =>
    rw [last] at plain whole
    have same : name = String.ofList (c :: tail).reverse := by
      simpa [defaultName?,last] using found.symm
    have text : path = String.ofList front ++ name ++ slashes count := by
      rw [same,slashes,← String.ofList_append,← String.ofList_append,← whole,String.ofList_toList]
    exact {
      filled := by simp [same]
      plain := by simpa [same,and_comm] using plain
      parts := ⟨_,count,text,closedText closed⟩ }

theorem defaultNameNone : defaultName? path = none ↔ ∀ c ∈ path.toList, c = '/' := by
  constructor
  · intro absent c member
    cases last : lastSegment path.toList.reverse with
    | nil => exact lastSegmentNone last c (List.mem_reverse.mpr member)
    | cons d tail => simp [defaultName?,last] at absent
  · intro bare
    rw [defaultNameSegment,List.eq_replicate_of_mem bare]
    simp

theorem defaultNameBehind (before path : String) :
    defaultName? (before ++ "/" ++ path) = (defaultName? path).or (defaultName? before) := by
  simp [defaultNameSegment,List.getLast?_append,Option.map_or]

theorem defaultNameTrailing (path : String) (count : Nat) :
    defaultName? (path ++ slashes count) = defaultName? path := by
  simp [defaultNameSegment,slashes]

theorem nameBetweenSlashes (path : String) :
    (defaultName? path = none ↔ ∀ c ∈ path.toList, c = '/') ∧
    (∀ name, defaultName? path = some name ↔ NamedBy path name) ∧
    (∀ name other, NamedBy path name → NamedBy path other → name = other) ∧
    (∀ count, defaultName? (path ++ slashes count) = defaultName? path) ∧
    ∀ before name, defaultName? path = some name →
      defaultName? (before ++ "/" ++ path) = some name := by
  refine ⟨defaultNameNone,fun name => ⟨defaultNameParts,NamedBy.defaultName⟩,?_,
    defaultNameTrailing path,?_⟩
  · intro name other left right
    exact Option.some.inj (left.defaultName.symm.trans right.defaultName)
  · intro before name named
    rw [defaultNameBehind,named,Option.some_or]

theorem nameOfManyBytes :
    let path := "//go.dev/größe.v2//"
    NamedBy path "größe.v2" ∧ (∀ name, NamedBy path name → name = "größe.v2") ∧
      defaultName? path = some "größe.v2" ∧
      defaultName? ("пакет" ++ "/" ++ path) = some "größe.v2" := by
  intro path
  obtain ⟨-,cut,unique,-,behind⟩ := nameBetweenSlashes path
  have parts : path = "//go.dev/" ++ "größe.v2" ++ slashes 2 := by decide
  have named : NamedBy path "größe.v2" := ⟨by decide,by decide,_,2,parts,.inr ⟨"//go.dev",rfl⟩⟩
  have found : defaultName? path = some "größe.v2" := (cut _).mpr named
  exact ⟨named,fun name again => unique name _ again named,found,behind "пакет" _ found⟩

end DeclViews.Import
