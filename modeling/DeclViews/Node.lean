import DeclViews.Atom.Pool
import DeclViews.Kind
import DeclViews.Span
/-! Syntax trees. Every node has a key of its own, so a subtree that hangs under several parents is
still one node; a node made again under a name has a new key and shares its children. A placeholder
holds what could not be placed, and for readers its children count as children of the node above it,
to any depth. `splice` says so by recursion; a cursor gives the same nodes one at a time from the
levels that are still open. -/
namespace DeclViews

structure Token where
  atom : Atom
  span : Span
  deriving DecidableEq, Repr

def Token.text (t : Token) : String := t.atom.value

structure Node where
  key : Nat
  kind : Kind
  span : Span
  text : Atom
  name : Option Token
  children : List Node
  deriving Repr

namespace Node

def Same (a b : Node) : Prop := a.key = b.key
instance (a b : Node) : Decidable (Same a b) := by
  unfold Same; infer_instance

def branch (supply : Supply) (kind : Kind) (span : Span) (text : Atom) (children : List Node) :
    Node × Supply :=
  let (shared,supply) := supply.alloc ()
  (⟨shared.key,kind,span,text,none,children⟩,supply)

def leaf (supply : Supply) (kind : Kind) (span : Span) (text : Atom) : Node × Supply :=
  branch supply kind span text []

def withName (supply : Supply) (node : Node) (name : Token) : Node × Supply :=
  let (shared,supply) := supply.alloc ()
  ({ node with key := shared.key, name := some name },supply)

def isPlaceholder (n : Node) : Bool := n.kind.isPlaceholder

def nameText? (n : Node) : Option String := n.name.map Token.text

/-- The direct children of a kind; placeholders are not looked through. -/
def childrenOf (n : Node) (kind : Kind) : List Node := n.children.filter (·.kind == kind)

def childOf? (n : Node) (kind : Kind) : Option Node := n.children.find? (·.kind == kind)

theorem childOfHead (n : Node) (kind : Kind) :
    n.childOf? kind = (n.childrenOf kind).head? := List.head?_filter.symm

theorem childrenSmaller (n : Node) : sizeOf n.children < sizeOf n := by
  cases n
  simp only [Node.mk.sizeOf_spec]
  omega

mutual

def spliced : Node → List Node
  | ⟨key,kind,span,text,name,children⟩ =>
    if kind = .placeholder then splice children
    else [⟨key,kind,span,text,name,children⟩]

def splice : List Node → List Node
  | [] => []
  | n :: rest => n.spliced ++ splice rest

end

theorem splicedEq (n : Node) :
    n.spliced = if n.kind = .placeholder then splice n.children else [n] := by
  cases n
  rfl

@[simp] theorem spliceAppend (xs ys : List Node) : splice (xs ++ ys) = splice xs ++ splice ys := by
  induction xs with
  | nil => rfl
  | cons n rest ih => rw [List.cons_append,splice,splice,ih,List.append_assoc]

end Node

/-- The open levels, the innermost first, each with what it has not given yet. -/
structure Cursor where
  levels : List (List Node)

namespace Cursor
open Node (splice)

def ofChildren (n : Node) : Cursor := ⟨[n.children]⟩

/-- A placeholder opens a level; a level that has nothing left is closed. Where all levels are
closed there is nothing more to give. -/
def advance : List (List Node) → Option Node × List (List Node)
  | [] => (none,[])
  | [] :: outer => advance outer
  | (n :: siblings) :: outer =>
    if n.kind = .placeholder then advance (n.children :: siblings :: outer)
    else (some n,siblings :: outer)
termination_by levels => sizeOf levels
decreasing_by
  · rw [List.cons.sizeOf_spec]
    omega
  · have smaller := n.childrenSmaller
    simp only [List.cons.sizeOf_spec]
    omega

def remaining (levels : List (List Node)) : List Node := levels.flatMap splice

theorem advanceGives (levels : List (List Node)) :
    (advance levels).1 = (remaining levels).head? ∧
      remaining (advance levels).2 = (remaining levels).tail := by
  fun_induction advance levels with
  | case1 => exact ⟨rfl,rfl⟩
  | case2 outer ih => simpa only [remaining,List.flatMap_cons,splice,List.nil_append] using ih
  | case3 n siblings outer through ih =>
    have same : remaining (n.children :: siblings :: outer) = remaining ((n :: siblings) :: outer) := by
      simp only [remaining,List.flatMap_cons,splice,Node.splicedEq,if_pos through,List.append_assoc]
    rwa [same] at ih
  | case4 n siblings outer given =>
    simp only [remaining,List.flatMap_cons,splice,Node.splicedEq,if_neg given,
      List.cons_append,List.nil_append,List.head?_cons,List.tail_cons,and_self]

theorem advanceSmaller {levels n after} (h : advance levels = (some n,after)) :
    sizeOf after < sizeOf levels := by
  fun_induction advance levels with
  | case1 => cases h
  | case2 outer ih =>
    have step := ih h
    simp only [List.cons.sizeOf_spec] at step ⊢
    omega
  | case3 m siblings outer _ ih =>
    have step := ih h
    have smaller := m.childrenSmaller
    simp only [List.cons.sizeOf_spec] at step ⊢
    omega
  | case4 m siblings outer _ =>
    cases h
    simp only [List.cons.sizeOf_spec]
    omega

def next (c : Cursor) : Option Node × Cursor :=
  let (given,levels) := advance c.levels
  (given,⟨levels⟩)

def next? (c : Cursor) : Option (Node × Cursor) :=
  match c.next with
  | (none,_) => none
  | (some n,c) => some (n,c)

/-- The visitor sees what the cursor has not given yet until it ends the walk with a result. The
state it has reached comes back either way. -/
def walk {σ β : Type} (visit : σ → Node → σ × Option β) (state : σ) (c : Cursor) :
    σ × Option β :=
  match _given : advance c.levels with
  | (none,_) => (state,none)
  | (some n,after) =>
    match visit state n with
    | (state,some result) => (state,some result)
    | (state,none) => walk visit state ⟨after⟩
termination_by sizeOf c.levels
decreasing_by exact advanceSmaller _given

def toList (c : Cursor) : List Node :=
  (c.walk (fun seen n => (n :: seen,(none : Option Empty))) []).1.reverse

def take (c : Cursor) : Nat → List Node × Cursor
  | 0 => ([],c)
  | count + 1 =>
    match c.next with
    | (none,c) => ([],c)
    | (some n,c) =>
      let (rest,c) := c.take count
      (n :: rest,c)

end Cursor

namespace Node

def transparentChildren (n : Node) : List Node := (Cursor.ofChildren n).toList

def walk {σ β : Type} (n : Node) (visit : σ → Node → σ × Option β) (state : σ) : σ × Option β :=
  (Cursor.ofChildren n).walk visit state

end Node
end DeclViews
