import DeclViews.Node
/-! Trees without identities. The shape of a node keeps kinds, spans, texts, names and the order of
the children, and forgets the allocations. `alike` compares two nodes by shape. One node is alike to
itself without a look below it, so a subtree that hangs in many places on both sides costs one step
at each; the levels that are still to be compared are kept in a list. -/
namespace DeclViews

structure Shape where
  kind : Kind
  span : Span
  text : String
  name : Option (String × Span)
  children : List Shape
  deriving Repr

namespace Node

def nameShape (n : Node) : Option (String × Span) := n.name.map fun t => (t.text,t.span)

mutual

def shape : Node → Shape
  | ⟨_,kind,span,text,name,children⟩ =>
    ⟨kind,span,text.value,name.map fun t => (t.text,t.span),shapes children⟩

def shapes : List Node → List Shape
  | [] => []
  | n :: rest => n.shape :: shapes rest

end

theorem shapesMap (ns : List Node) : shapes ns = ns.map shape := by
  induction ns with
  | nil => rfl
  | cons n rest ih => rw [shapes,ih,List.map_cons]

theorem shapeIs (n : Node) :
    n.shape = ⟨n.kind,n.span,n.text.value,n.nameShape,n.children.map shape⟩ := by
  cases n
  rw [shape,shapesMap]
  rfl

@[simp] theorem shapeKind (n : Node) : n.shape.kind = n.kind := by rw [shapeIs]

@[simp] theorem shapeSpan (n : Node) : n.shape.span = n.span := by rw [shapeIs]

@[simp] theorem shapeText (n : Node) : n.shape.text = n.text.value := by rw [shapeIs]

@[simp] theorem shapeChildren (n : Node) : n.shape.children = n.children.map shape := by rw [shapeIs]

theorem sameShape {n m : Node} : n.shape = m.shape ↔
    n.kind = m.kind ∧ n.span = m.span ∧ n.text.value = m.text.value ∧ n.nameShape = m.nameShape ∧
      n.children.map shape = m.children.map shape := by
  rw [shapeIs,shapeIs,Shape.mk.injEq]

def labelAlike (a b : Node) : Bool :=
  a.kind == b.kind && a.span == b.span && a.text.alike b.text && a.nameShape == b.nameShape

/-- Pairs of sibling lists that are still to be compared, the innermost first. -/
def alikeLevels : List (List Node × List Node) → Bool
  | [] => true
  | ([],[]) :: rest => alikeLevels rest
  | (a :: as,b :: bs) :: rest =>
    if a.Same b then alikeLevels ((as,bs) :: rest)
    else a.labelAlike b && alikeLevels ((a.children,b.children) :: (as,bs) :: rest)
  | _ :: _ => false
termination_by levels => sizeOf levels
decreasing_by
  · rw [List.cons.sizeOf_spec]
    omega
  · simp only [List.cons.sizeOf_spec,Prod.mk.sizeOf_spec]
    omega
  · have left := a.childrenSmaller
    have right := b.childrenSmaller
    simp only [List.cons.sizeOf_spec,Prod.mk.sizeOf_spec]
    omega

def alike (a b : Node) : Bool := alikeLevels [([a],[b])]

end Node
end DeclViews
