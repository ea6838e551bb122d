import DeclViews.Node
import DeclViews.Text
/-! Nodes written out for diagnostics: a record of kind, span and text, of the name where there is
one and of the children where there are some, on one line or an entry a line. The levels that are
still to be written are kept in a list, so the depth of a tree is no depth of recursion. -/
namespace DeclViews.Node

/-- What follows an opening bracket, what parts two entries and what comes before a closing
bracket, at a depth of indentation. -/
structure Layout where
  opening : Nat → String
  between : Nat → String
  closing : Nat → String

namespace Layout

def inline (edge : String) : Layout := ⟨fun _ => edge, fun _ => ", ", fun _ => edge⟩

def margin (depth : Nat) : String := "".pushn ' ' (4 * depth)

/-- An entry a line, four blanks deeper than its bracket, with a comma after every entry. -/
def lines : Layout :=
  ⟨fun depth => "\n" ++ margin (depth + 1), fun depth => ",\n" ++ margin (depth + 1),
    fun depth => ",\n" ++ margin depth⟩

end Layout

structure Style where
  record : Layout
  list : Layout

namespace Style

def inline : Style := ⟨.inline " ", .inline ""⟩

def indented : Style := ⟨.lines, .lines⟩

def field (name value : String) : String := name ++ ": " ++ value

def recordOf (style : Style) (depth : Nat) (tag : String) (entries : List String) : String :=
  tag ++ " \x7b" ++ style.record.opening depth ++
    (style.record.between depth).intercalate entries ++ style.record.closing depth ++ "\x7d"

end Style

def fields (style : Style) (depth : Nat) (n : Node) : List String :=
  let span := style.recordOf (depth + 1) "Span"
    [Style.field "start" (toString n.span.start), Style.field "end" (toString n.span.stop)]
  [Style.field "kind" n.kind.tag, Style.field "span" span,
    Style.field "text" (Text.quoted n.text.value)] ++
    (n.nameText?.map fun name => Style.field "name" (Text.quoted name)).toList

/-- The record of a node up to its first child, or the whole of it if it has none. -/
def opened (style : Style) (depth : Nat) (n : Node) : String :=
  if n.children.isEmpty then style.recordOf depth "Node" (n.fields style depth)
  else
    "Node \x7b" ++ style.record.opening depth ++
      (style.record.between depth).intercalate (n.fields style depth) ++
      style.record.between depth ++ "children: [" ++ style.list.opening (depth + 1)

def closed (style : Style) (depth : Nat) : String :=
  style.list.closing (depth + 1) ++ "]" ++ style.record.closing depth ++ "\x7d"

def gap (style : Style) (depth : Nat) (siblings : List Node) : String :=
  if siblings.isEmpty then "" else style.list.between (depth - 1)

/-- Each level holds the later siblings of an open node and lies two brackets below its parent;
the depth is that of the innermost level. -/
def writeLevels (style : Style) (out : String) (depth : Nat) : List (List Node) → String
  | [] => out
  | [[]] => out
  | [] :: siblings :: above =>
    let out := out ++ closed style (depth - 2) ++ gap style (depth - 2) siblings
    writeLevels style out (depth - 2) (siblings :: above)
  | (n :: siblings) :: outer =>
    let out := out ++ n.opened style depth
    if n.children.isEmpty then
      writeLevels style (out ++ gap style depth siblings) depth (siblings :: outer)
    else writeLevels style out (depth + 2) (n.children :: siblings :: outer)
termination_by levels => sizeOf levels
decreasing_by
  · simp only [List.cons.sizeOf_spec]
    omega
  · simp only [List.cons.sizeOf_spec]
    omega
  · have smaller := n.childrenSmaller
    simp only [List.cons.sizeOf_spec]
    omega

def write (style : Style) (n : Node) : String := writeLevels style "" 0 [[n]]

end DeclViews.Node
