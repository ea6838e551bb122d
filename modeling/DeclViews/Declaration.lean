import DeclViews.Node
import Std.Data.ExtTreeMap
/-! Nodes read as declarations. A typed node carries its kind; a group has its specs and a spec its
definitions among the direct children. At the top of a file a node is classified by its kind. The
path of an import is a literal without one layer of quotes. An alias binds the import itself;
without one the last segment of the path binds the whole path, and a path of slashes alone binds
nothing. The last binding of a name stays. -/
namespace DeclViews
namespace Import

def quotes : List Char := ['"', '\'', '`']

/-- A literal opens and closes with one quote character, at two places; all else stays as it is. -/
def unquoteChars : List Char → List Char
  | [] => []
  | opening :: rest =>
    if opening ∈ quotes ∧ rest.getLast? = some opening then rest.dropLast else opening :: rest

def unquote (literal : String) : String := String.ofList (unquoteChars literal.toList)

/-- The last segment that is not empty, from the path backwards. -/
def lastSegment (reversed : List Char) : List Char :=
  (reversed.dropWhile (· == '/')).takeWhile (· != '/')

/-- The name of an import without an alias; a path of slashes alone has none. -/
def defaultName? (path : String) : Option String :=
  match lastSegment path.toList.reverse with
  | [] => none
  | segment => some (String.ofList segment.reverse)

end Import

structure Typed (kind : Kind) where
  node : Node
  ofKind : node.kind = kind

namespace Typed

variable {kind : Kind}

def cast? (kind : Kind) (node : Node) : Option (Typed kind) :=
  if h : node.kind = kind then some ⟨node, h⟩ else none

def name? (t : Typed kind) : Option String := t.node.nameText?

def span (t : Typed kind) : Span := t.node.span

def childrenOf (t : Typed kind) (child : Kind) : List (Typed child) :=
  t.node.children.filterMap (cast? child)

end Typed

abbrev PackageClause := Typed .packageClause
abbrev ImportDecl := Typed .importDecl
abbrev ImportSpec := Typed .importSpec
abbrev FunctionDecl := Typed .functionDecl
abbrev MethodDecl := Typed .methodDecl
abbrev TypeDecl := Typed .typeDecl
abbrev TypeSpec := Typed .typeSpec
abbrev VarDecl := Typed .varDecl
abbrev VarSpec := Typed .varSpec
abbrev VarDefinition := Typed .varDefinition
abbrev ConstDecl := Typed .constDecl
abbrev ConstSpec := Typed .constSpec
abbrev ConstDefinition := Typed .constDefinition

namespace ImportSpec

def literal? (s : ImportSpec) : Option Node := s.node.childOf? .importString

def path (s : ImportSpec) : String :=
  match s.literal? with
  | some literal => Import.unquote literal.text.value
  | none => ""

def isDot (s : ImportSpec) : Bool := s.name? == some "."

def isBlank (s : ImportSpec) : Bool := s.name? == some "_"

end ImportSpec

inductive Declaration where
  | package (clause : PackageClause)
  | imports (group : ImportDecl)
  | function (decl : FunctionDecl)
  | method (decl : MethodDecl)
  | types (group : TypeDecl)
  | vars (group : VarDecl)
  | consts (group : ConstDecl)

namespace Declaration

def classify? (node : Node) : Option Declaration :=
  match h : node.kind with
  | .packageClause => some (.package ⟨node, h⟩)
  | .importDecl => some (.imports ⟨node, h⟩)
  | .functionDecl => some (.function ⟨node, h⟩)
  | .methodDecl => some (.method ⟨node, h⟩)
  | .typeDecl => some (.types ⟨node, h⟩)
  | .varDecl => some (.vars ⟨node, h⟩)
  | .constDecl => some (.consts ⟨node, h⟩)
  | _ => none

def node : Declaration → Node
  | .package d => d.node
  | .imports d => d.node
  | .function d => d.node
  | .method d => d.node
  | .types d => d.node
  | .vars d => d.node
  | .consts d => d.node

def tag : Declaration → String
  | .package _ => "Package"
  | .imports _ => "Imports"
  | .function _ => "Function"
  | .method _ => "Method"
  | .types _ => "Types"
  | .vars _ => "Vars"
  | .consts _ => "Consts"

end Declaration

namespace Import

inductive Target where
  | spec (spec : ImportSpec)
  | path (path : String)

abbrev Map := Std.ExtTreeMap String Target

def binding? (spec : ImportSpec) : Option (String × Target) :=
  match spec.name? with
  | some name => some (name, .spec spec)
  | none => (defaultName? spec.path).map fun name => (name, .path spec.path)

def Map.bind (map : Map) (spec : ImportSpec) : Map :=
  match binding? spec with
  | some (name, target) => map.insert name target
  | none => map

def Map.ofSpecs (specs : List ImportSpec) : Map := specs.foldl Map.bind ∅

end Import
end DeclViews
