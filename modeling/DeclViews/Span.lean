/-! Byte ranges in a source. A span is a pair of offsets and nothing more: it may be inverted or
lie outside the source, and `Contains` compares the ends alone. There is a text under a span when the
ends are in order and both fall between two characters of the source; it is then the middle of three
parts of the source whose lengths are those that the span says. -/
namespace DeclViews

structure Span where
  start : Nat
  stop : Nat
  deriving DecidableEq, Repr

namespace Span

def zero : Span := ⟨0,0⟩

/-- An inverted span has no bytes. -/
def length (s : Span) : Nat := s.stop - s.start

def isEmpty (s : Span) : Bool := s.length == 0

def Contains (outer inner : Span) : Prop :=
  outer.start ≤ inner.start ∧ inner.stop ≤ outer.stop
instance (outer inner : Span) : Decidable (Contains outer inner) := by
  unfold Contains; infer_instance

theorem containsSelf (s : Span) : Contains s s := ⟨Nat.le_refl _,Nat.le_refl _⟩

theorem containsTrans {a b c : Span} (outer : Contains a b) (inner : Contains b c) :
    Contains a c :=
  ⟨Nat.le_trans outer.1 inner.1,Nat.le_trans inner.2 outer.2⟩

def text (s : Span) : String := toString s.start ++ ".." ++ toString s.stop

def record (s : Span) : String :=
  "Span \x7b start: " ++ toString s.start ++ ", end: " ++ toString s.stop ++ " \x7d"

/-- The offset falls before a character of the source or at its end. -/
abbrev Boundary (source : String) (offset : Nat) : Prop :=
  (⟨offset⟩ : String.Pos.Raw).IsValid source

def slice? (s : Span) (source : String) : Option String :=
  if h : s.start ≤ s.stop ∧ Boundary source s.start ∧ Boundary source s.stop then
    some (source.extract ⟨⟨s.start⟩,h.2.1⟩ ⟨⟨s.stop⟩,h.2.2⟩)
  else none

theorem boundaryIff {source : String} {offset : Nat} :
    Boundary source offset ↔
      ∃ before after, source = before ++ after ∧ before.utf8ByteSize = offset := by
  rw [Boundary,String.Pos.Raw.isValid_iff_exists_append]
  constructor
  · rintro ⟨before,after,same,place⟩
    exact ⟨before,after,same,(congrArg String.Pos.Raw.byteIdx place).symm⟩
  · rintro ⟨before,after,same,place⟩
    exact ⟨before,after,same,by subst place; rfl⟩

theorem sliceOfParts {s : Span} {before text after : String}
    (start : before.utf8ByteSize = s.start) (stop : (before ++ text).utf8ByteSize = s.stop) :
    s.slice? (before ++ text ++ after) = some text := by
  have size := String.utf8ByteSize_append (s := before) (t := text)
  have h : s.start ≤ s.stop ∧ Boundary (before ++ text ++ after) s.start ∧
      Boundary (before ++ text ++ after) s.stop :=
    ⟨by omega,boundaryIff.mpr ⟨before,text ++ after,String.append_assoc,start⟩,
      boundaryIff.mpr ⟨before ++ text,after,rfl,stop⟩⟩
  rw [slice?,dif_pos h]
  apply congrArg some
  rw [← String.toByteArray_inj,String.toByteArray_extract]
  simp only [String.toByteArray_append,ByteArray.append_assoc]
  rw [← start,← stop,size,← String.size_toByteArray,← String.size_toByteArray]
  have shifted := ByteArray.extract_append_size_add (a := before.toByteArray)
    (b := text.toByteArray ++ after.toByteArray) (i := 0) (j := text.toByteArray.size)
  rw [Nat.add_zero] at shifted
  rw [shifted]
  exact ByteArray.extract_append_eq_left rfl

theorem sliceSome {s : Span} {source text : String} :
    s.slice? source = some text ↔ ∃ before after, source = before ++ text ++ after ∧
      before.utf8ByteSize = s.start ∧ (before ++ text).utf8ByteSize = s.stop := by
  constructor
  · intro given
    have parts : ∃ before inside after, source = before ++ inside ++ after ∧
        before.utf8ByteSize = s.start ∧ (before ++ inside).utf8ByteSize = s.stop := by
      unfold slice? at given
      split at given
      · rename_i h
        obtain ⟨ordered,first,last⟩ := h
        obtain ⟨before,rest,same,start⟩ := boundaryIff.mp first
        subst same
        rcases String.Pos.Raw.isValid_append.mp last with short | ⟨_,inner⟩
        · have bound : s.stop ≤ before.utf8ByteSize := short.le_utf8ByteSize
          refine ⟨before,"",rest,by simp,start,?_⟩
          rw [String.append_empty]
          omega
        · have cut : Boundary rest (s.stop - before.utf8ByteSize) := inner
          obtain ⟨inside,after,same,size⟩ := boundaryIff.mp cut
          subst same
          refine ⟨before,inside,after,String.append_assoc.symm,start,?_⟩
          rw [String.utf8ByteSize_append,size]
          omega
      · contradiction
    obtain ⟨before,inside,after,same,start,stop⟩ := parts
    have found : s.slice? (before ++ inside ++ after) = some inside := sliceOfParts start stop
    rw [← same,given] at found
    cases Option.some.inj found
    exact ⟨before,after,same,start,stop⟩
  · rintro ⟨before,after,same,start,stop⟩
    rw [same]
    exact sliceOfParts start stop

end Span
end DeclViews
