import DeclViews.File

/-! Programs on one file, and what they would be answered by a file that keeps nothing. A query is
asked of a file through its views; plainly, it is computed from a root each time. -/
namespace DeclViews.File

inductive Query where
  | view (view : View)
  | packageName
  | importMap
  | entryFunction
  | outline
  deriving DecidableEq, Repr

namespace Query

@[reducible] def Answer : Query → Type
  | .view v => v.Value
  | .packageName => Option String
  | .importMap => Import.Map
  | .entryFunction => Option FunctionDecl
  | .outline => List Outline.Item

def ask : (q : Query) → Action File q.Answer
  | .view v => do return (← File.view v).value
  | .packageName => File.packageName
  | .importMap => File.importMap
  | .entryFunction => File.entryFunction
  | .outline => File.outline

def plain (root : Node) : (q : Query) → q.Answer
  | .view v => v.compute root
  | .packageName => (packageClause? root).bind fun clause => clause.name?.map Text.trim
  | .importMap => Import.Map.ofSpecs (View.imports.compute root)
  | .entryFunction => (View.functions.compute root).find? (·.name? == some entryPoint)
  | .outline => Outline.ofViews (View.compute root)

end Query

inductive Operation where
  | ask (query : Query)
  | isCurrent (view : View)
  | replaceRoot (root : Node)

inductive Reply where
  | answered (query : Query) (answer : query.Answer)
  | current (held : Bool)
  | replaced (stamp : Stamp)

def Reply.answer? : Reply → Option (Σ query : Query, query.Answer)
  | .answered query answer => some ⟨query,answer⟩
  | .current _ | .replaced _ => none

theorem selectCons {α β : Type} (select : α → Option β) (first : α) (rest : List α) :
    (first :: rest).filterMap select = (select first).toList ++ rest.filterMap select := by
  rw [List.filterMap_cons]
  cases select first <;> rfl

namespace Operation

def perform : Operation → Action File Reply
  | .ask query => do return .answered query (← query.ask)
  | .isCurrent view => do return .current (← Action.read (File.isCurrent · view))
  | .replaceRoot root => do return .replaced (← File.replaceRoot root)

def run : List Operation → Action File (List Reply)
  | [] => return []
  | operation :: rest => do
    let reply ← operation.perform
    return reply :: (← run rest)

def root? : Operation → Option Node
  | .replaceRoot root => some root
  | .ask _ | .isCurrent _ => none

def roots (operations : List Operation) : List Node := operations.filterMap root?

@[simp] theorem rootsCons (operation : Operation) (rest : List Operation) :
    roots (operation :: rest) = operation.root?.toList ++ roots rest := selectCons root? operation rest

def plainAnswers (root : Node) : List Operation → List (Option (Σ query : Query, query.Answer))
  | [] => []
  | .ask query :: rest => some ⟨query,query.plain root⟩ :: plainAnswers root rest
  | .isCurrent _ :: rest => none :: plainAnswers root rest
  | .replaceRoot root :: rest => none :: plainAnswers root rest

theorem runAppend (xs ys : List Operation) (file : File) :
    (run (xs ++ ys) file).state = (run ys (run xs file).state).state := by
  induction xs generalizing file with
  | nil => rfl
  | cons operation rest ih => exact ih (operation.perform file).state

def after (root : Node) (operations : List Operation) : File := (run operations (ofRoot root)).state

theorem afterAppend (root : Node) (xs ys : List Operation) :
    after root (xs ++ ys) = (run ys (after root xs)).state := runAppend xs ys (ofRoot root)

end Operation
end DeclViews.File
