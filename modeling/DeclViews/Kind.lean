/-! The kinds of syntax nodes. A kind has a name, which is its serialised form, a label for people
and a tag for diagnostics. -/
namespace DeclViews

inductive Kind where
  | file
  | packageClause
  | importDecl
  | importSpec
  | importString
  | functionDecl
  | methodDecl
  | typeDecl
  | typeSpec
  | varDecl
  | varSpec
  | varDefinition
  | constDecl
  | constSpec
  | constDefinition
  | placeholder
  | other
  deriving DecidableEq, Repr

namespace Kind

def all : List Kind :=
  [.file, .packageClause, .importDecl, .importSpec, .importString, .functionDecl, .methodDecl,
    .typeDecl, .typeSpec, .varDecl, .varSpec, .varDefinition, .constDecl, .constSpec,
    .constDefinition, .placeholder, .other]

theorem memAll (k : Kind) : k ∈ all := by cases k <;> decide

def name : Kind → String
  | .file => "file"
  | .packageClause => "package_clause"
  | .importDecl => "import_decl"
  | .importSpec => "import_spec"
  | .importString => "import_string"
  | .functionDecl => "function_decl"
  | .methodDecl => "method_decl"
  | .typeDecl => "type_decl"
  | .typeSpec => "type_spec"
  | .varDecl => "var_decl"
  | .varSpec => "var_spec"
  | .varDefinition => "var_definition"
  | .constDecl => "const_decl"
  | .constSpec => "const_spec"
  | .constDefinition => "const_definition"
  | .placeholder => "placeholder"
  | .other => "other"

def label : Kind → String
  | .file => "file"
  | .packageClause => "package clause"
  | .importDecl => "import declaration"
  | .importSpec => "import spec"
  | .importString => "import string"
  | .functionDecl => "function declaration"
  | .methodDecl => "method declaration"
  | .typeDecl => "type declaration"
  | .typeSpec => "type spec"
  | .varDecl => "var declaration"
  | .varSpec => "var spec"
  | .varDefinition => "var definition"
  | .constDecl => "const declaration"
  | .constSpec => "const spec"
  | .constDefinition => "const definition"
  | .placeholder => "placeholder"
  | .other => "other"

def tag : Kind → String
  | .file => "File"
  | .packageClause => "PackageClause"
  | .importDecl => "ImportDecl"
  | .importSpec => "ImportSpec"
  | .importString => "ImportString"
  | .functionDecl => "FunctionDecl"
  | .methodDecl => "MethodDecl"
  | .typeDecl => "TypeDecl"
  | .typeSpec => "TypeSpec"
  | .varDecl => "VarDecl"
  | .varSpec => "VarSpec"
  | .varDefinition => "VarDefinition"
  | .constDecl => "ConstDecl"
  | .constSpec => "ConstSpec"
  | .constDefinition => "ConstDefinition"
  | .placeholder => "Placeholder"
  | .other => "Other"

def ofName? (name : String) : Option Kind := all.find? (·.name == name)

theorem ofNameName (k : Kind) : ofName? k.name = some k := by cases k <;> rfl

def isPlaceholder : Kind → Bool
  | placeholder => true
  | _ => false

def isGroup : Kind → Bool
  | .importDecl | .typeDecl | .varDecl | .constDecl => true
  | _ => false

end Kind
end DeclViews
