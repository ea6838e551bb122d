import DeclViews.Node
import DeclViews.Span
/-! Trees built over a source by calls that open, name and close nodes. A finished node hangs under
the innermost open one, and with none open it is a root. Every span is checked against the source
when the call is made, and the children of a node against its span when the node is closed. Names
with one text share one atom, and a named leaf has that atom for its text too; the text of any other
node has an atom of its own. A refused call leaves the open nodes and the roots as they were, and
stops none of the later calls. An error says why a call, or the end, is refused: it has a message for
people, and for diagnostics a tag and a record of what it carries. -/
namespace DeclViews

inductive Purpose where
  | name
  | finish
  deriving DecidableEq, Repr

namespace Purpose

def word : Purpose → String
  | .name => "name"
  | .finish => "finish"

def all : List Purpose := [.name, .finish]

def ofWord? (word : String) : Option Purpose := all.find? (·.word == word)

end Purpose

inductive BuildError where
  | outOfBounds (span : Span) (length : Nat)
  | offBoundary (span : Span)
  | inverted (span : Span)
  | childOutside (child parent : Span)
  | noOpenNode (purpose : Purpose)
  | unclosed (count : Nat)
  | noRoot
  | severalRoots (count : Nat)
  deriving DecidableEq, Repr

namespace BuildError

def message : BuildError → String
  | .outOfBounds span length =>
    "span " ++ span.text ++ " is out of bounds for source of length " ++ toString length
  | .offBoundary span => "span " ++ span.text ++ " does not fall on char boundaries"
  | .inverted span => "span " ++ span.text ++ " ends before it starts"
  | .childOutside child parent =>
    "child span " ++ child.text ++ " lies outside parent span " ++ parent.text
  | .noOpenNode purpose => "no open node to " ++ purpose.word
  | .unclosed count => toString count ++ " node(s) left unclosed"
  | .noRoot => "no root node was built"
  | .severalRoots count => "expected a single root node, found " ++ toString count

def tag : BuildError → String
  | .outOfBounds _ _ => "OutOfBounds"
  | .offBoundary _ => "NotCharBoundary"
  | .inverted _ => "InvertedSpan"
  | .childOutside _ _ => "ChildOutsideParent"
  | .noOpenNode _ => "NoOpenNode"
  | .unclosed _ => "UnclosedNodes"
  | .noRoot => "Empty"
  | .severalRoots _ => "MultipleRoots"

def record (e : BuildError) : String :=
  let one (value : String) := e.tag ++ "(" ++ value ++ ")"
  let two (first second : String) :=
    e.tag ++ " \x7b " ++ first ++ ", " ++ second ++ " \x7d"
  match e with
  | .outOfBounds span length => two ("span: " ++ span.record) ("len: " ++ toString length)
  | .offBoundary span => one span.record
  | .inverted span => one span.record
  | .childOutside child parent =>
    two ("child: " ++ child.record) ("parent: " ++ parent.record)
  | .noOpenNode purpose => one ("\"" ++ purpose.word ++ "\"")
  | .unclosed count => one (toString count)
  | .noRoot => e.tag
  | .severalRoots count => one (toString count)

end BuildError

/-- A node that is open: its end is not known yet, and its children are kept newest first. -/
structure Frame where
  kind : Kind
  start : Nat
  name : Option Token
  children : List Node
  deriving Repr

def Frame.stray? (frame : Frame) (span : Span) : Option Node :=
  frame.children.reverse.find? fun child => !decide (span.Contains child.span)

/-- The open nodes are kept innermost first, the finished roots newest first. -/
structure Builder where
  source : String
  supply : Supply
  names : Atom.Table
  frames : List Frame
  roots : List Node
  deriving Repr

namespace Builder

def ofSource (source : String) : Builder := ⟨source,.start,.empty,[],[]⟩

def depth (b : Builder) : Nat := b.frames.length

/-- The text under a span. An inverted span is reported before one that ends past the source,
and that before one that cuts a character. -/
def slice (b : Builder) (span : Span) : Except BuildError String :=
  if span.stop < span.start then .error (.inverted span)
  else if b.source.utf8ByteSize < span.stop then
    .error (.outOfBounds span b.source.utf8ByteSize)
  else
    match span.slice? b.source with
    | some text => .ok text
    | none => .error (.offBoundary span)

def sliceAtom (b : Builder) (span : Span) : Except BuildError (Atom × Builder) := do
  let text ← b.slice span
  let (atom,supply) := b.supply.alloc text
  return (atom,{ b with supply })

def token (b : Builder) (span : Span) : Except BuildError (Token × Builder) := do
  let text ← b.slice span
  let (atom,names,supply) := b.names.intern b.supply text
  return (⟨atom,span⟩,{ b with names, supply })

def attach (b : Builder) (node : Node) : Builder :=
  match b.frames with
  | [] => { b with roots := node :: b.roots }
  | frame :: outer =>
    { b with frames := { frame with children := node :: frame.children } :: outer }

inductive Call where
  | start (kind : Kind) (offset : Nat)
  | name (span : Span)
  | leaf (kind : Kind) (span : Span)
  | namedLeaf (kind : Kind) (span : Span)
  | finish (offset : Nat)
  deriving DecidableEq, Repr

abbrev Result := Except BuildError Unit

def start (b : Builder) (kind : Kind) (offset : Nat) : Builder × Result :=
  match b.slice ⟨offset,offset⟩ with
  | .error e => (b,.error e)
  | .ok _ => ({ b with frames := ⟨kind,offset,none,[]⟩ :: b.frames },.ok ())

/-- The last name given to a node stays. The span is read before an open node is asked for. -/
def name (b : Builder) (span : Span) : Builder × Result :=
  match b.token span with
  | .error e => (b,.error e)
  | .ok (token,b) =>
    match b.frames with
    | [] => (b,.error (.noOpenNode .name))
    | frame :: outer => ({ b with frames := { frame with name := some token } :: outer },.ok ())

def leaf (b : Builder) (kind : Kind) (span : Span) : Builder × Result :=
  match b.sliceAtom span with
  | .error e => (b,.error e)
  | .ok (atom,b) =>
    let (node,supply) := Node.leaf b.supply kind span atom
    ({ b with supply }.attach node,.ok ())

def namedLeaf (b : Builder) (kind : Kind) (span : Span) : Builder × Result :=
  match b.token span with
  | .error e => (b,.error e)
  | .ok (token,b) =>
    let (node,supply) := Node.leaf b.supply kind span token.atom
    let (node,supply) := node.withName supply token
    ({ b with supply }.attach node,.ok ())

/-- Closes the innermost node. An open node is asked for before its span is read, and the span is
read before the children are looked at. -/
def finish (b : Builder) (offset : Nat) : Builder × Result :=
  match b.frames with
  | [] => (b,.error (.noOpenNode .finish))
  | frame :: outer =>
    let span : Span := ⟨frame.start,offset⟩
    match b.sliceAtom span with
    | .error e => (b,.error e)
    | .ok (atom,closed) =>
      match frame.stray? span with
      | some child => (b,.error (.childOutside child.span span))
      | none =>
        let (node,supply) :=
          Node.branch closed.supply frame.kind span atom frame.children.reverse
        let (node,supply) :=
          match frame.name with
          | none => (node,supply)
          | some token => node.withName supply token
        ({ closed with supply, frames := outer }.attach node,.ok ())

def perform (b : Builder) : Call → Builder × Result
  | .start kind offset => b.start kind offset
  | .name span => b.name span
  | .leaf kind span => b.leaf kind span
  | .namedLeaf kind span => b.namedLeaf kind span
  | .finish offset => b.finish offset

def run (b : Builder) : List Call → Builder × List Result
  | [] => (b,[])
  | call :: rest =>
    let (b,result) := b.perform call
    let (b,results) := b.run rest
    (b,result :: results)

/-- The one root that was built. Open nodes are reported before the number of roots. -/
def root (b : Builder) : Except BuildError Node :=
  match b.frames,b.roots with
  | _ :: outer,_ => .error (.unclosed (outer.length + 1))
  | [],[] => .error .noRoot
  | [],[root] => .ok root
  | [],roots => .error (.severalRoots roots.length)

end Builder
end DeclViews
