import DeclViews.Path
import DeclViews.Stamp
import DeclViews.View
/-! What operations tell about themselves. An action runs on a state, answers and emits events in
order; of two actions one after the other, the events of the first come first. A message has its path
as that is shown. -/
namespace DeclViews

inductive Level where
  | trace
  | debug
  | info
  deriving DecidableEq, Repr

def Level.name : Level → String
  | trace => "TRACE"
  | debug => "DEBUG"
  | info => "INFO"

inductive Event where
  | computing (view : View) (stamp : Stamp)
  | rootReplaced (stamp : Stamp)
  | fileOpened (path : Spelling)
  | fileChanged (path : Spelling) (stamp : Stamp)
  | fileClosed (path : Spelling)
  deriving DecidableEq, Repr

namespace Event

def level : Event → Level
  | computing _ _ => .trace
  | rootReplaced _ | fileChanged _ _ => .debug
  | fileOpened _ | fileClosed _ => .info

def message : Event → String
  | computing _ _ => "computing view"
  | rootReplaced _ => "file root replaced"
  | fileOpened path => "File opened: " ++ path.shown
  | fileChanged path stamp => "File changed: " ++ path.shown ++ " (" ++ stamp.text ++ ")"
  | fileClosed path => "File closed: " ++ path.shown

/-- What is told beside the message, by name. -/
def details : Event → List (String × String)
  | computing view stamp => [("view",view.name),("stamp",stamp.text)]
  | rootReplaced stamp => [("stamp",stamp.text)]
  | fileOpened _ | fileChanged _ _ | fileClosed _ => []

end Event

structure Outcome (σ α : Type) where
  answer : α
  state : σ
  events : List Event

def Action (σ α : Type) : Type := σ → Outcome σ α

namespace Action

variable {σ α β : Type}

def pure (answer : α) : Action σ α := fun state => ⟨answer,state,[]⟩

def bind (first : Action σ α) (rest : α → Action σ β) : Action σ β := fun state =>
  let before := first state
  let after := rest before.answer before.state
  ⟨after.answer,after.state,before.events ++ after.events⟩

instance : Monad (Action σ) where
  pure := pure
  bind := bind

def read (f : σ → α) : Action σ α := fun state => ⟨f state,state,[]⟩

def emit (event : Event) : Action σ Unit := fun state => ⟨(),state,[event]⟩

@[simp] theorem bindRun (first : Action σ α) (rest : α → Action σ β) (state : σ) :
    (first >>= rest) state =
      ⟨(rest (first state).answer (first state).state).answer,
        (rest (first state).answer (first state).state).state,
        (first state).events ++ (rest (first state).answer (first state).state).events⟩ := rfl

@[simp] theorem pureRun (answer : α) (state : σ) :
    (Pure.pure answer : Action σ α) state = ⟨answer,state,[]⟩ := rfl

@[simp] theorem readRun (f : σ → α) (state : σ) : read f state = ⟨f state,state,[]⟩ := rfl

@[simp] theorem emitRun (event : Event) (state : σ) : emit event state = ⟨(),state,[event]⟩ := rfl

end Action
end DeclViews
