import DeclViews.Node
import DeclViews.Span

/-! Trees that agree with a source. A span cuts a text out of the source when its ends are in order,
in bounds and between characters and the text is the bytes between them. A tree is faithful when the
text and the name of every node are cut out by their spans and no node reaches out of its parent.
Siblings are in line when each begins where the one before it ends, or later. A node contains what
is below it, so of two siblings all that is below the first comes before all that is below the
second. The splice of a line is a line, at whatever depth of placeholders its nodes are. -/
namespace DeclViews

namespace Span

structure Cuts (source : String) (span : Span) (text : String) : Prop where
  ordered : span.start ≤ span.stop
  inBounds : span.stop ≤ source.utf8ByteSize
  startBoundary : Boundary source span.start
  stopBoundary : Boundary source span.stop
  bytes : text.toByteArray = source.toByteArray.extract span.start span.stop

theorem sliceCuts {source : String} {span : Span} {text : String} :
    span.slice? source = some text ↔ span.Cuts source text := by
  unfold slice?
  constructor
  · intro found
    split at found
    · rename_i h
      cases Option.some.inj found
      exact ⟨h.1,h.2.2.le_utf8ByteSize,h.2.1,h.2.2,String.toByteArray_extract⟩
    · contradiction
  · intro cut
    rw [dif_pos ⟨cut.ordered,cut.startBoundary,cut.stopBoundary⟩]
    apply congrArg some
    rw [← String.toByteArray_inj,String.toByteArray_extract,cut.bytes]

theorem Cuts.token {source : String} {span : Span} {atom : Atom} (cut : span.Cuts source atom.value) :
    ∀ token ∈ some (Token.mk atom span), token.span.Cuts source token.text := by
  intro token named
  cases Option.mem_some.mp named
  exact cut

theorem Cuts.unique {source : String} {span : Span} {a b : String} (left : span.Cuts source a)
    (right : span.Cuts source b) : a = b := by
  rw [← String.toByteArray_inj,left.bytes,right.bytes]

theorem Cuts.atStart {source : String} {span : Span} {text : String} (cut : span.Cuts source text) :
    Cuts source ⟨span.start,span.start⟩ "" where
  ordered := Nat.le_refl _
  inBounds := cut.startBoundary.le_utf8ByteSize
  startBoundary := cut.startBoundary
  stopBoundary := cut.startBoundary
  bytes := by simp

theorem Cuts.boundary {source text : String} {span : Span} {offset : Nat} (cut : span.Cuts source text)
    (boundary : Boundary source offset) (start : span.start ≤ offset) (stop : offset ≤ span.stop) :
    Boundary text (offset - span.start) := by
  obtain ⟨before,after,same,size,whole⟩ := sliceSome.mp (sliceCuts.mpr cut)
  subst same
  rw [String.utf8ByteSize_append] at whole
  rw [String.append_assoc] at boundary
  rcases String.Pos.Raw.isValid_append.mp boundary with short | ⟨_,inner⟩
  · have bound : offset ≤ before.utf8ByteSize := short.le_utf8ByteSize
    exact boundaryIff.mpr ⟨"",text,String.empty_append.symm,by rw [String.utf8ByteSize_empty]; omega⟩
  · have cut : Boundary (text ++ after) (offset - before.utf8ByteSize) := inner
    rw [size] at cut
    rcases String.Pos.Raw.isValid_append.mp cut with inside | ⟨late,_⟩
    · exact inside
    · have bound : text.utf8ByteSize ≤ offset - span.start := late
      exact boundaryIff.mpr ⟨text,"",String.append_empty.symm,by omega⟩

theorem Cuts.part {source whole part : String} {outer inner : Span} (around : outer.Cuts source whole)
    (cut : inner.Cuts source part) (contains : outer.Contains inner) :
    ∃ before after, whole = before ++ part ++ after := by
  obtain ⟨start,stop⟩ := contains
  have ordered := cut.ordered
  have first := around.boundary cut.startBoundary start (by omega)
  have last := around.boundary cut.stopBoundary (by omega) stop
  obtain ⟨middle,found⟩ : ∃ middle,
      slice? ⟨inner.start - outer.start,inner.stop - outer.start⟩ whole = some middle :=
    ⟨_,dif_pos ⟨by dsimp only; omega,first,last⟩⟩
  obtain ⟨left,right,parts,offset,size⟩ := sliceSome.mp found
  obtain ⟨before,after,same,begun,_⟩ := sliceSome.mp (sliceCuts.mpr around)
  have again : inner.slice? source = some middle := by
    have split : source = before ++ left ++ middle ++ (right ++ after) := by
      rw [same,parts]
      simp only [String.append_assoc]
    rw [split]
    apply sliceOfParts <;> (simp only [String.utf8ByteSize_append] at *; omega)
  cases (sliceCuts.mp again).unique cut
  exact ⟨left,right,parts⟩

theorem Cuts.present {source text : String} {span : Span} (cut : span.Cuts source text) :
    ∃ before after, source = before ++ text ++ after := by
  obtain ⟨before,after,same,-⟩ := sliceSome.mp (sliceCuts.mpr cut)
  exact ⟨before,after,same⟩

end Span

namespace Node

inductive Within : Node → Node → Prop where
  | self (n : Node) : Within n n
  | lower {n child d : Node} (member : child ∈ n.children) (rest : Within child d) : Within n d

theorem withinIff {n d : Node} : n.Within d ↔ d = n ∨ ∃ child ∈ n.children, child.Within d := by
  constructor
  · intro within
    cases within with
    | self => exact .inl rfl
    | lower member rest => exact .inr ⟨_,member,rest⟩
  · rintro (rfl | ⟨child,member,rest⟩)
    · exact .self d
    · exact .lower member rest

theorem Within.trans {a b c : Node} (upper : a.Within b) (lower : b.Within c) : a.Within c := by
  induction upper with
  | self => exact lower
  | lower member _ ih => exact .lower member (ih lower)

structure Fits (source : String) (n : Node) : Prop where
  text : n.span.Cuts source n.text.value
  name : ∀ token ∈ n.name, token.span.Cuts source token.text
  inside : ∀ child ∈ n.children, n.span.Contains child.span

def Faithful (source : String) (root : Node) : Prop := ∀ n, root.Within n → Fits source n

namespace Faithful

variable {source : String} {n : Node}

theorem of (fits : Fits source n) (children : ∀ child ∈ n.children, Faithful source child) :
    Faithful source n := by
  intro d within
  cases within with
  | self => exact fits
  | lower member deeper => exact children _ member d deeper

theorem leaf {key : Nat} {kind : Kind} {span : Span} {atom : Atom} {name : Option Token}
    (cut : span.Cuts source atom.value)
    (named : ∀ token ∈ name, token.span.Cuts source token.text) :
    Faithful source ⟨key,kind,span,atom,name,[]⟩ :=
  .of ⟨cut,named,List.forall_mem_nil _⟩ (List.forall_mem_nil _)

theorem within (h : Faithful source n) {d : Node} (within : n.Within d) : Faithful source d :=
  fun e deeper => h e (within.trans deeper)

theorem child (h : Faithful source n) {child : Node} (member : child ∈ n.children) :
    Faithful source child := h.within (.lower member (.self child))

theorem contains (h : Faithful source n) {d : Node} (within : n.Within d) :
    n.span.Contains d.span := by
  induction within with
  | self n => exact Span.containsSelf n.span
  | lower member _ ih =>
    exact Span.containsTrans ((h _ (.self _)).inside _ member) (ih (h.child member))

end Faithful

def Follows (a b : Node) : Prop := a.span.stop ≤ b.span.start
instance (a b : Node) : Decidable (Follows a b) := by
  unfold Follows; infer_instance

def InLine (root : Node) : Prop := ∀ n, root.Within n → n.children.Pairwise Follows

variable {source : String} {n m : Node}

theorem InLine.of (siblings : n.children.Pairwise Follows) (children : ∀ child ∈ n.children, child.InLine) :
    n.InLine := by
  intro d within
  cases within with
  | self => exact siblings
  | lower member deeper => exact children _ member d deeper

theorem InLine.within (inLine : n.InLine) (within : n.Within m) : m.InLine :=
  fun d deeper => inLine d (within.trans deeper)

theorem InLine.child (inLine : n.InLine) (member : m ∈ n.children) : m.InLine :=
  inLine.within (.lower member (.self m))

mutual

theorem splicedWithin : (n : Node) → m ∈ n.spliced → n.Within m
  | ⟨_,_,_,_,_,children⟩, member => by
    rw [spliced] at member
    split at member
    · obtain ⟨child,inside,within⟩ := spliceWithin children member
      exact .lower inside within
    · cases List.mem_singleton.mp member
      exact .self _

theorem spliceWithin : (ns : List Node) → m ∈ splice ns → ∃ n ∈ ns, n.Within m
  | [], member => nomatch member
  | n :: rest, member => by
    rcases List.mem_append.mp member with first | later
    · exact ⟨n,List.mem_cons_self,splicedWithin n first⟩
    · obtain ⟨sibling,inside,within⟩ := spliceWithin rest later
      exact ⟨sibling,List.mem_cons_of_mem n inside,within⟩

end

theorem Follows.below {a b x y : Node} (follows : Follows a b) (left : Faithful source a)
    (right : Faithful source b) (first : a.Within x) (second : b.Within y) : Follows x y :=
  Nat.le_trans (left.contains first).2 (Nat.le_trans follows (right.contains second).1)

mutual

theorem splicedInLine : (n : Node) → Faithful source n → n.InLine → n.spliced.Pairwise Follows
  | ⟨_,_,_,_,_,children⟩, faithful, inLine => by
    rw [spliced]
    split
    · exact spliceInLine children (fun child member => faithful.child member)
        (fun child member => inLine.child member) (inLine _ (.self _))
    · exact List.pairwise_singleton _ _

theorem spliceInLine : (ns : List Node) → (∀ n ∈ ns, Faithful source n) → (∀ n ∈ ns, n.InLine) →
    ns.Pairwise Follows → (splice ns).Pairwise Follows
  | [], _, _, _ => .nil
  | n :: rest, faithful, inLine, siblings => by
    obtain ⟨whole,others⟩ := List.forall_mem_cons.mp faithful
    obtain ⟨own,line⟩ := List.forall_mem_cons.mp inLine
    obtain ⟨ahead,later⟩ := List.pairwise_cons.mp siblings
    refine List.pairwise_append.mpr
      ⟨splicedInLine n whole own,spliceInLine rest others line later,?_⟩
    intro x first y second
    obtain ⟨sibling,member,below⟩ := spliceWithin rest second
    exact (ahead sibling member).below whole (others sibling member) (splicedWithin n first) below

end

end Node
end DeclViews
