import DeclViews.Path
import Mathlib.Data.List.Basic
import Mathlib.Logic.Relation

/-! The spellings of a path. A slash behind a slash can be left out, a dot behind a slash with the
slash that ends it, and a slash at the end of anything but the root. Two spellings have the same
components just in case they can be turned into each other in this way: each can be turned into the
one that its components are written with, every one of them with a slash at its end. -/
namespace DeclViews

def Component.bytes : Component → List UInt8
  | .root => []
  | .here => [Path.dot]
  | .parent => [Path.dot,Path.dot]
  | .named bytes => bytes

namespace Path
open Relation (EqvGen)

variable {a b front back : List UInt8}

inductive Trims : List UInt8 → List UInt8 → Prop where
  | slash (front back : List UInt8) : Trims (front ++ slash :: slash :: back) (front ++ slash :: back)
  | dot (front back : List UInt8) :
      Trims (front ++ slash :: dot :: slash :: back) (front ++ slash :: back)
  | lastDot (front : List UInt8) : Trims (front ++ [slash,dot]) (front ++ [slash])
  | lastSlash {front : List UInt8}
      (filled : front ≠ []) : Trims (front ++ [slash]) front

def Respelled (a b : Spelling) : Prop := EqvGen Trims a.bytes b.bytes

def closed (parts : List (List UInt8)) : List UInt8 := parts.flatMap (· ++ [slash])

theorem closedSegments (bytes : List UInt8) : closed (bytes.splitOn slash) = bytes ++ [slash] := by
  have join {parts : List (List UInt8)} (filled : parts ≠ []) :
      closed parts = [slash].intercalate parts ++ [slash] := by
    induction parts with
    | nil => contradiction
    | cons part rest ih =>
      cases rest with
      | nil => simp [closed]
      | cons other rest =>
        rw [closed,List.flatMap_cons,← closed,ih (by simp),List.intercalate_cons_cons]
        simp
  rw [join (List.splitOn_ne_nil _ _),List.intercalate_splitOn]

theorem segments (bytes : List UInt8) : ∃ first later, bytes.splitOn slash = first :: later :=
  List.exists_cons_of_ne_nil (List.splitOn_ne_nil _ _)

def behind (bytes : List UInt8) : Path := (bytes.splitOn slash).filterMap component?

theorem behindAround (front back : List UInt8) :
    behind (front ++ slash :: back) = behind front ++ behind back := by
  simp only [behind,List.splitOn_append_cons_self,List.filterMap_append]

@[simp] theorem openingBytes (segment : List UInt8) : (opening segment).bytes = segment := by
  unfold opening
  split
  · rename_i same
    exact same.symm
  · split
    · rename_i same
      exact same.symm
    · split
      · rename_i same
        exact same.symm
      · rfl

theorem componentOpening {segment : List UInt8} (filled : segment ≠ []) (other : segment ≠ [dot]) :
    component? segment = some (opening segment) := by
  simp only [component?,opening,filled,other,or_self,if_false]
  split <;> rfl

theorem ofBytesSegments {bytes first : List UInt8} {later : List (List UInt8)} (filled : bytes ≠ [])
    (whole : bytes.splitOn slash = first :: later) :
    ofBytes bytes = opening first :: later.filterMap component? := by
  cases bytes with
  | nil => contradiction
  | cons byte rest =>
    unfold ofBytes
    rw [whole]

theorem ofBytesRoot (back : List UInt8) : ofBytes (slash :: back) = .root :: behind back :=
  ofBytesSegments (by simp) (List.splitOn_append_cons_self [] back)

theorem ofBytesAround (filled : front ≠ []) (back : List UInt8) :
    ofBytes (front ++ slash :: back) = ofBytes front ++ behind back := by
  obtain ⟨first,later,whole⟩ := segments front
  have around := List.splitOn_append_cons_self (a := slash) front back
  rw [whole,List.cons_append] at around
  rw [ofBytesSegments (by simp) around,ofBytesSegments filled whole,List.filterMap_append]
  rfl

theorem trimsSame (trims : Trims a b) : ofBytes a = ofBytes b := by
  have around (front x y : List UInt8) (same : behind x = behind y) :
      ofBytes (front ++ slash :: x) = ofBytes (front ++ slash :: y) := by
    cases front with
    | nil => rw [List.nil_append,List.nil_append,ofBytesRoot,ofBytesRoot,same]
    | cons c rest => rw [ofBytesAround (by simp),ofBytesAround (by simp),same]
  cases trims with
  | slash front back => exact around front (slash :: back) back (behindAround [] back)
  | dot front back => exact around front (dot :: slash :: back) back (behindAround [dot] back)
  | lastDot front => exact around front [dot] [] rfl
  | lastSlash filled => exact (ofBytesAround filled []).trans (List.append_nil _)

def written (path : Path) : List UInt8 := closed (path.map Component.bytes)

theorem trimsBehind (front : List UInt8) (parts : List (List UInt8)) :
    EqvGen Trims (front ++ slash :: closed parts)
      (front ++ slash :: written (parts.filterMap component?)) := by
  -- A segment that stands for a component is passed over and counts to the front from then on.
  induction parts generalizing front with
  | nil => exact .refl _
  | cons segment rest ih =>
    rcases eq_or_ne segment [] with rfl | present
    · exact .trans _ _ _ (.rel _ _ (.slash front (closed rest))) (ih front)
    rcases eq_or_ne segment [dot] with rfl | other
    · exact .trans _ _ _ (.rel _ _ (.dot front (closed rest))) (ih front)
    · have read := componentOpening present other
      have next := ih (front ++ slash :: segment)
      simpa [closed,written,read] using next

theorem trimsWritten (bytes : List UInt8) : EqvGen Trims bytes (written (ofBytes bytes)) := by
  rcases eq_or_ne bytes [] with rfl | filled
  · exact .refl _
  obtain ⟨first,later,whole⟩ := segments bytes
  have ended : EqvGen Trims bytes (closed (bytes.splitOn slash)) := by
    rw [closedSegments]
    exact .symm _ _ (.rel _ _ (.lastSlash filled))
  have short := trimsBehind first later
  rw [ofBytesSegments filled whole]
  simp only [whole,closed,written,List.flatMap_cons,List.map_cons,openingBytes,List.append_assoc,
    List.singleton_append] at ended short ⊢
  exact .trans _ _ _ ended short

theorem keptJoined {α : Type} {f : List UInt8 → α} (kept : ∀ {a b}, Trims a b → f a = f b)
    (joined : EqvGen Trims a b) : f a = f b := by
  induction joined with
  | rel a b trims => exact kept trims
  | refl a => rfl
  | symm a b _ ih => exact ih.symm
  | trans a b c _ _ left right => exact left.trans right

theorem respelledIff {a b : Spelling} : Respelled a b ↔ ofSpelling a = ofSpelling b := by
  constructor
  · exact keptJoined trimsSame
  · intro same
    have left := trimsWritten a.bytes
    have right := trimsWritten b.bytes
    have bytes : ofBytes a.bytes = ofBytes b.bytes := same
    rw [bytes] at left
    exact .trans _ _ _ left (.symm _ _ right)

example : ¬ Respelled "./a" "a" ∧ ¬ Respelled "a/../b" "b" ∧ Respelled "/./a//b/." "//a/b/" := by
  simp only [respelledIff]
  decide

end Path
end DeclViews
