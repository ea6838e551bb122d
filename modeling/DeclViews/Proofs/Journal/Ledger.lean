import DeclViews.Journal
import DeclViews.Proofs.Path.Unicode
import Std.Data.ExtTreeMap
import Std.Data.String.ToNat

/-! A journal read again. Line by line the ledger enters which paths are open, and under which
stamp: an opening begins with the initial stamp, and a change counts if the replacement of a root
stands right before it. Of a path the ledger has what a line shows, so it has the path itself if
that is a text. -/
namespace DeclViews

structure Ledger where
  stamps : Std.ExtTreeMap Path Stamp
  replaced : Bool

namespace Ledger

def empty : Ledger := ⟨∅,false⟩

def stamp? (ledger : Ledger) (path : Spelling) : Option Stamp :=
  ledger.stamps[Path.ofSpelling path]?

def enter (ledger : Ledger) : Event → Ledger
  | .fileOpened path => ⟨ledger.stamps.insert (.ofSpelling path.shown) .initial,false⟩
  | .fileClosed path => ⟨ledger.stamps.erase (.ofSpelling path.shown),false⟩
  | .rootReplaced _ => { ledger with replaced := true }
  | .fileChanged path stamp =>
    ⟨if ledger.replaced then ledger.stamps.insert (.ofSpelling path.shown) stamp else ledger.stamps,
      false⟩
  | .computing _ _ => { ledger with replaced := false }

def replay (events : List Event) : Ledger := events.foldl enter empty

section Unicode

variable {ledger : Ledger} {path other : Spelling} (unicode : path.Unicode)
include unicode

theorem stampOpened : (ledger.enter (.fileOpened path)).stamp? other =
    if Path.ofSpelling path = Path.ofSpelling other then some .initial else ledger.stamp? other := by
  simp only [stamp?,enter,unicode.reread,Std.ExtTreeMap.getElem?_insert,Std.compare_eq_iff_eq]

theorem stampClosed : (ledger.enter (.fileClosed path)).stamp? other =
    if Path.ofSpelling path = Path.ofSpelling other then none else ledger.stamp? other := by
  simp only [stamp?,enter,unicode.reread,Std.ExtTreeMap.getElem?_erase,Std.compare_eq_iff_eq]

theorem stampChanged (stamp replacement : Stamp) :
    ((ledger.enter (.rootReplaced replacement)).enter (.fileChanged path stamp)).stamp? other =
      if Path.ofSpelling path = Path.ofSpelling other then some stamp else ledger.stamp? other := by
  simp only [stamp?,enter,unicode.reread,if_true,Std.ExtTreeMap.getElem?_insert,
    Std.compare_eq_iff_eq]

end Unicode
end Ledger

def Event.path? : Event → Option Spelling
  | .fileOpened path | .fileClosed path | .fileChanged path _ => some path
  | .rootReplaced _ | .computing _ _ => none

theorem Ledger.foldPathless {events : List Event} (pathless : ∀ event ∈ events, event.path? = none)
    (ledger : Ledger) : (events.foldl enter ledger).stamps = ledger.stamps := by
  induction events generalizing ledger with
  | nil => rfl
  | cons event rest ih =>
    obtain ⟨first,others⟩ := List.forall_mem_cons.mp pathless
    rw [List.foldl_cons,ih others]
    cases event <;> first | rfl | contradiction

theorem Stamp.digitsAtEnd (front : String) (stamp : Stamp) :
    (front ++ stamp.text).toList.reverse.takeWhile (· != '#') =
      (Nat.toDigits 10 stamp.count).reverse := by
  have digits : ∀ c ∈ (Nat.toDigits 10 stamp.count).reverse, (c != '#') = true := by
    intro c member
    have digit := Nat.isDigit_of_mem_toDigits (by decide) (by decide) (List.mem_reverse.mp member)
    exact bne_iff_ne.mpr fun sign => by simp [sign] at digit
  have parts : (front ++ stamp.text).toList.reverse =
      (Nat.toDigits 10 stamp.count).reverse ++ '#' :: front.toList.reverse := by simp [text]
  rw [parts,List.takeWhile_append_of_pos digits,List.takeWhile_cons_of_neg (by decide),
    List.append_nil]

namespace Event

structure Line where
  level : Level
  message : String
  details : List (String × String)

def line (event : Event) : Line := ⟨event.level,event.message,event.details⟩

theorem changedInj {path other : Spelling} {stamp replacement : Stamp}
    (same : (fileChanged path stamp).message = (fileChanged other replacement).message) :
    path.shown = other.shown ∧ stamp = replacement := by
  have ends := (String.append_left_inj ")").mp same
  have digits := Stamp.digitsAtEnd ("File changed: " ++ path.shown ++ " (") stamp
  rw [ends,Stamp.digitsAtEnd] at digits
  have counts : replacement.count.repr = stamp.count.repr :=
    congrArg String.ofList (List.reverse_inj.mp digits)
  cases Stamp.sameCount (Nat.repr_injective counts)
  have fronts := (String.append_left_inj " (").mp ((String.append_left_inj _).mp ends)
  exact ⟨(String.append_right_inj "File changed: ").mp fronts,rfl⟩

theorem openedApart (path other : Spelling) :
    (fileOpened path).message ≠ (fileClosed other).message := by
  intro same
  have texts : "File opened: " ++ path.shown = "File closed: " ++ other.shown := same
  have chars := congrArg String.toList texts
  rw [String.toList_append,String.toList_append] at chars
  have starts : "File opened: ".toList = "File closed: ".toList :=
    List.append_inj_left chars (by decide)
  exact absurd starts (by decide)

theorem lineEnters {a b : Event} (same : a.line = b.line) (ledger : Ledger) :
    ledger.enter a = ledger.enter b := by
  obtain ⟨level,message,details⟩ := Line.mk.inj same
  cases a with
  | computing view stamp =>
    cases b with
    | computing => rfl
    | rootReplaced | fileChanged | fileOpened | fileClosed => cases level
  | rootReplaced replaced =>
    cases b with
    | rootReplaced => rfl
    | fileChanged => cases details
    | computing | fileOpened | fileClosed => cases level
  | fileOpened path =>
    cases b with
    | fileOpened =>
      have shown := (String.append_right_inj "File opened: ").mp message
      rw [Ledger.enter,Ledger.enter,shown]
    | fileClosed => exact absurd message (openedApart _ _)
    | computing | rootReplaced | fileChanged => cases level
  | fileChanged path stamp =>
    cases b with
    | fileChanged =>
      obtain ⟨paths,stamps⟩ := changedInj message
      rw [Ledger.enter,Ledger.enter,paths,stamps]
    | rootReplaced => cases details
    | computing | fileOpened | fileClosed => cases level
  | fileClosed path =>
    cases b with
    | fileClosed =>
      have shown := (String.append_right_inj "File closed: ").mp message
      rw [Ledger.enter,Ledger.enter,shown]
    | fileOpened => exact absurd message.symm (openedApart _ _)
    | computing | rootReplaced | fileChanged => cases level

end Event

theorem Ledger.foldLines {journal events : List Event}
    (same : journal.map Event.line = events.map Event.line) (ledger : Ledger) :
    journal.foldl enter ledger = events.foldl enter ledger := by
  induction journal generalizing events ledger with
  | nil =>
    cases List.map_eq_nil_iff.mp same.symm
    rfl
  | cons event rest ih =>
    cases events with
    | nil => contradiction
    | cons other others =>
      obtain ⟨first,later⟩ := List.cons.inj same
      rw [List.foldl_cons,List.foldl_cons,Event.lineEnters first,ih later]

end DeclViews
