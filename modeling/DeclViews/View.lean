import DeclViews.Declaration
/-! The seven views of a file and the outline made of them. Each view lists one sort of declaration
among the children of the root, placeholders looked through, in the order of the tree; the package
clause is the first there is. The outline has what the views list, by position: a declaration
without a name is not listed, and items that start at one offset keep the order in which the views
list them. -/
namespace DeclViews

inductive View where
  | package
  | imports
  | functions
  | methods
  | types
  | vars
  | consts
  deriving DecidableEq, Repr

def declarations (root : Node) : List Declaration :=
  root.transparentChildren.filterMap Declaration.classify?

def packageClause? (root : Node) : Option PackageClause :=
  (root.walk (fun (_ : Unit) node => ((), Typed.cast? .packageClause node)) ()).2

namespace Declaration

def importSpecs : Declaration → List ImportSpec
  | .imports group => group.childrenOf .importSpec
  | _ => []

def functions : Declaration → List FunctionDecl
  | .function decl => [decl]
  | _ => []

def methods : Declaration → List MethodDecl
  | .method decl => [decl]
  | _ => []

def typeSpecs : Declaration → List TypeSpec
  | .types group => group.childrenOf .typeSpec
  | _ => []

def varDefinitions : Declaration → List VarDefinition
  | .vars group => (group.childrenOf .varSpec).flatMap (·.childrenOf .varDefinition)
  | _ => []

def constDefinitions : Declaration → List ConstDefinition
  | .consts group => (group.childrenOf .constSpec).flatMap (·.childrenOf .constDefinition)
  | _ => []

end Declaration

namespace View

def all : List View := [.package, .imports, .functions, .methods, .types, .vars, .consts]

theorem memAll (v : View) : v ∈ all := by cases v <;> decide

def name : View → String
  | .package => "package"
  | .imports => "imports"
  | .functions => "functions"
  | .methods => "methods"
  | .types => "types"
  | .vars => "vars"
  | .consts => "consts"

@[reducible] def Value : View → Type
  | .package => Option PackageClause
  | .imports => List ImportSpec
  | .functions => List FunctionDecl
  | .methods => List MethodDecl
  | .types => List TypeSpec
  | .vars => List VarDefinition
  | .consts => List ConstDefinition

def compute (root : Node) : (v : View) → v.Value
  | .package => packageClause? root
  | .imports => (declarations root).flatMap Declaration.importSpecs
  | .functions => (declarations root).flatMap Declaration.functions
  | .methods => (declarations root).flatMap Declaration.methods
  | .types => (declarations root).flatMap Declaration.typeSpecs
  | .vars => (declarations root).flatMap Declaration.varDefinitions
  | .consts => (declarations root).flatMap Declaration.constDefinitions

end View

namespace Outline

inductive Category where
  | package
  | importSpec
  | function
  | method
  | typeSpec
  | varDefinition
  | constDefinition
  deriving DecidableEq, Repr

def Category.name : Category → String
  | package => "package"
  | importSpec => "import"
  | function => "function"
  | method => "method"
  | typeSpec => "type"
  | varDefinition => "var"
  | constDefinition => "const"

structure Item where
  category : Category
  name : String
  span : Span
  deriving DecidableEq, Repr

def named {kind : Kind} (category : Category) (decl : Typed kind) : Option Item :=
  decl.name?.map fun name => ⟨category,name,decl.span⟩

/-- An import is always listed, under its alias or else under its path. -/
def imported (spec : ImportSpec) : Item := ⟨.importSpec,spec.name?.getD spec.path,spec.span⟩

def listed (views : (v : View) → v.Value) : List Item :=
  (views .package).toList.filterMap (named .package) ++
    (views .imports).map imported ++
    (views .functions).filterMap (named .function) ++
    (views .methods).filterMap (named .method) ++
    (views .types).filterMap (named .typeSpec) ++
    (views .vars).filterMap (named .varDefinition) ++
    (views .consts).filterMap (named .constDefinition)

def ofViews (views : (v : View) → v.Value) : List Item :=
  (listed views).mergeSort fun a b => a.span.start ≤ b.span.start

theorem ofSorted {views : (v : View) → v.Value} {items : List Item} (lists : listed views = items)
    (sorted : items.Pairwise fun a b => a.span.start ≤ b.span.start) : ofViews views = items := by
  rw [ofViews,lists]
  exact List.mergeSort_of_pairwise (sorted.imp fun below => decide_eq_true below)

end Outline
end DeclViews
