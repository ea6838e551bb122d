import DeclViews.Proofs.File.Coherence
import DeclViews.Proofs.Node.Cursor
import DeclViews.View
import Mathlib.Data.List.Forall2

/-! Trees that differ in their placeholders. At the top of a tree, or inside placeholders that stand
at the top, a run of siblings may go into a new placeholder or come out of an old one. Whatever the
placeholders are called and wherever they claim to lie, the splice of the children stays, and with
it every view. Two files are twins when they differ in the placeholders of their roots at most:
their stamps, slots and counts are the same. An action on one and its counterpart on the other
answer alike, tell alike and leave twins. No number of replacements is too many for that: past the
last stamp both files keep the same old values. -/
namespace DeclViews
namespace Node

inductive Wraps : List Node → List Node → Prop where
  | run {before after : List Node} {wrapper : Node}
      (opens : wrapper.kind = .placeholder) :
      Wraps (before ++ wrapper.children ++ after) (before ++ wrapper :: after)
  | within {before after children : List Node} {outer : Node} {key : Nat}
      (opens : outer.kind = .placeholder)
      (deeper : Wraps outer.children children) :
      Wraps (before ++ outer :: after) (before ++ { outer with key, children } :: after)

/- A node whose children have changed is made anew, so its key is any. -/
inductive Rewraps : Node → Node → Prop where
  | same (root : Node) : Rewraps root root
  | wrap {root middle : Node} {key : Nat} {children : List Node}
      (earlier : Rewraps root middle)
      (step : Wraps middle.children children) : Rewraps root { middle with key, children }
  | unwrap {root middle : Node} {key : Nat} {children : List Node}
      (earlier : Rewraps root middle)
      (step : Wraps children middle.children) : Rewraps root { middle with key, children }

theorem splicePlaceholder {n : Node} (opens : n.kind = .placeholder) (siblings : List Node) :
    splice (n :: siblings) = splice n.children ++ splice siblings := by
  rw [splice,splicedEq,if_pos opens]

theorem wrapsSplice {ns ms : List Node} (wraps : Wraps ns ms) : splice ns = splice ms := by
  induction wraps with
  | run opens => simp only [spliceAppend,splicePlaceholder opens,List.append_assoc]
  | @within before after children outer key opens deeper ih =>
    have renewed := splicePlaceholder (n := { outer with key, children }) opens after
    rw [spliceAppend,spliceAppend,splicePlaceholder opens,ih,renewed]

theorem rewrapsSplice {root other : Node} (rewraps : Rewraps root other) :
    splice root.children = splice other.children := by
  induction rewraps with
  | same => rfl
  | wrap earlier step ih => exact ih.trans (wrapsSplice step)
  | unwrap earlier step ih => exact ih.trans (wrapsSplice step).symm

end Node

namespace View
open Node (splice)

theorem computeSplice {root other : Node} (same : splice root.children = splice other.children)
    (v : View) : v.compute root = v.compute other := by
  have declared : declarations root = declarations other := by
    rw [declarations,declarations,Node.transparentSplice,Node.transparentSplice,same]
  cases v with
  | package =>
    show packageClause? root = packageClause? other
    rw [packageClause?,packageClause?,Node.walkSplice,Node.walkSplice,same]
  | imports | functions | methods | types | vars | consts => simp only [compute,declared]

end View

namespace File

variable {α β : Type} {file twin : File}

structure Twins (file twin : File) : Prop where
  stamp : file.stamp = twin.stamp
  slots : file.slots = twin.slots
  computations : file.computations = twin.computations
  spliced : Node.splice file.root.children = Node.splice twin.root.children

def Agree (first second : Action File α) : Prop :=
  ∀ file twin, Twins file twin →
    (first file).answer = (second twin).answer ∧ (first file).events = (second twin).events ∧
      Twins (first file).state (second twin).state

theorem agreePure (answer : α) : Agree (pure answer) (pure answer) :=
  fun _ _ twins => ⟨rfl,rfl,twins⟩

theorem Agree.bind {first second : Action File α} {rest others : α → Action File β}
    (before : Agree first second) (after : ∀ a, Agree (rest a) (others a)) :
    Agree (first >>= rest) (second >>= others) := by
  intro file twin twins
  obtain ⟨answer,events,between⟩ := before file twin twins
  obtain ⟨answerAfter,eventsAfter,still⟩ := after (first file).answer _ _ between
  rw [Action.bindRun,Action.bindRun,← answer]
  exact ⟨answerAfter,congrArg₂ (· ++ ·) events eventsAfter,still⟩

theorem agreeView (v : View) : Agree (view v) (view v) := by
  rintro ⟨⟨stamp,root⟩,slots,computations⟩ ⟨⟨_,twin⟩,_,_⟩ ⟨sameStamp,sameSlots,sameCount,spliced⟩
  dsimp only [File.stamp,File.root] at sameStamp sameSlots sameCount spliced
  subst sameStamp sameSlots sameCount
  unfold view
  dsimp only
  rw [View.computeSplice spliced v]
  split <;> exact ⟨rfl,rfl,rfl,rfl,rfl,spliced⟩

theorem agreePackage : Agree package package := (agreeView .package).bind fun _ => agreePure _

theorem agreeAsk (q : Query) : Agree q.ask q.ask := by
  cases q with
  | view v => exact (agreeView v).bind fun _ => agreePure _
  | packageName => exact agreePackage.bind fun _ => agreePure _
  | importMap => exact (agreeView .imports).bind fun _ => agreePure _
  | entryFunction => exact (agreeView .functions).bind fun _ => agreePure _
  | outline =>
    exact (agreeView .package).bind fun _ => (agreeView .imports).bind fun _ =>
      (agreeView .functions).bind fun _ => (agreeView .methods).bind fun _ =>
      (agreeView .types).bind fun _ => (agreeView .vars).bind fun _ =>
      (agreeView .consts).bind fun _ => agreePure _

theorem Twins.current (twins : Twins file twin) : file.isCurrent = twin.isCurrent := by
  funext v
  rw [isCurrent,isCurrent,twins.slots,twins.stamp]

theorem agreeReplace {root other : Node} (rewraps : root.Rewraps other) :
    Agree (replaceRoot root) (replaceRoot other) := by
  intro file twin twins
  have stamp : file.stamp.next = twin.stamp.next := congrArg Stamp.next twins.stamp
  exact ⟨stamp,congrArg (fun stamp => [Event.rootReplaced stamp]) stamp,
    stamp,twins.slots,twins.computations,Node.rewrapsSplice rewraps⟩

namespace Operation

inductive Rewraps : Operation → Operation → Prop where
  | ask (query : Query) : Rewraps (.ask query) (.ask query)
  | isCurrent (view : View) : Rewraps (.isCurrent view) (.isCurrent view)
  | replaceRoot {root other : Node} (rewraps : root.Rewraps other) :
      Rewraps (.replaceRoot root) (.replaceRoot other)

theorem agreePerform {operation other : Operation} (rewraps : Rewraps operation other) :
    Agree operation.perform other.perform := by
  cases rewraps with
  | ask query => exact (agreeAsk query).bind fun _ => agreePure _
  | isCurrent view =>
    refine Agree.bind (fun file twin twins => ⟨?_,rfl,twins⟩) fun _ => agreePure _
    exact congrFun twins.current view
  | replaceRoot rewraps => exact (agreeReplace rewraps).bind fun _ => agreePure _

structure Sight where
  reply : Reply
  events : List Event
  stamp : Stamp
  computations : UInt64
  current : View → Bool

def Sight.ofOutcome (outcome : Outcome File Reply) : Sight :=
  ⟨outcome.answer,outcome.events,outcome.state.stamp,outcome.state.computations,
    outcome.state.isCurrent⟩

def observe : List Operation → File → List Sight
  | [],_ => []
  | operation :: rest,file =>
    .ofOutcome (operation.perform file) :: observe rest (operation.perform file).state

theorem twinsObserved {operations others : List Operation}
    (each : List.Forall₂ Rewraps operations others) (twins : Twins file twin) :
    observe operations file = observe others twin := by
  induction each generalizing file twin with
  | nil => rfl
  | cons rewraps _ ih =>
    obtain ⟨reply,events,after⟩ := agreePerform rewraps file twin twins
    rw [observe,observe,ih after,Sight.ofOutcome,Sight.ofOutcome,reply,events,after.stamp,
      after.computations,after.current]

theorem rewrappedRunsAgree {root other : Node} {operations others : List Operation}
    (first : root.Rewraps other) (each : List.Forall₂ Rewraps operations others) :
    observe operations (ofRoot root) = observe others (ofRoot other) :=
  twinsObserved each ⟨rfl,rfl,rfl,Node.rewrapsSplice first⟩

theorem wrappedFunctionSeen :
    let clause : Node := ⟨1,.packageClause,⟨0,9⟩,⟨1,"package p"⟩,some ⟨⟨2,"p"⟩,⟨8,9⟩⟩,[]⟩
    let main : Node := ⟨2,.functionDecl,⟨10,21⟩,⟨3,"func main()"⟩,some ⟨⟨4,"main"⟩,⟨15,19⟩⟩,[]⟩
    let group : Node := ⟨3,.varDecl,⟨22,27⟩,⟨5,"var x"⟩,none,[]⟩
    let hollow : Node := ⟨4,.placeholder,⟨0,0⟩,⟨6,""⟩,none,[]⟩
    let wrapper (children : List Node) : Node :=
      ⟨5,.placeholder,⟨9,3⟩,⟨7,"junk"⟩,some ⟨⟨4,"main"⟩,⟨1,0⟩⟩,children⟩
    let file (children : List Node) : Node := ⟨0,.file,⟨0,27⟩,⟨0,""⟩,none,children⟩
    let bare := file [clause,main,group]
    let wrapped := file [clause,wrapper [main,hollow,group]]
    let operations := [.ask .outline,.replaceRoot wrapped,.isCurrent .functions,.ask .entryFunction]
    let others := [.ask .outline,.replaceRoot bare,.isCurrent .functions,.ask .entryFunction]
    bare.Rewraps wrapped ∧ List.Forall₂ Rewraps operations others ∧
      observe operations (ofRoot bare) = observe others (ofRoot wrapped) ∧
      (observe others (ofRoot wrapped)).map (fun sight => (sight.stamp,sight.computations)) =
        [(.initial,7),(.after 1,7),(.after 1,7),(.after 1,8)] ∧
      (observe others (ofRoot wrapped)).getLast?.map Sight.reply =
        some (.answered .entryFunction (some ⟨main,rfl⟩)) := by
  intro clause main group hollow wrapper file bare wrapped operations others
  have outer : Node.Wraps [clause,main,group] [clause,wrapper [main,group]] :=
    @Node.Wraps.run [clause] [] (wrapper [main,group]) rfl
  have inner : Node.Wraps [clause,wrapper [main,group]] [clause,wrapper [main,hollow,group]] :=
    @Node.Wraps.within [clause] [] [main,hollow,group] (wrapper [main,group]) 5 rfl
      (@Node.Wraps.run [main] [group] hollow rfl)
  have wraps : bare.Rewraps wrapped :=
    @Node.Rewraps.wrap bare (file [clause,wrapper [main,group]]) 0 _ (.wrap (.same bare) outer) inner
  have unwraps : wrapped.Rewraps bare :=
    @Node.Rewraps.unwrap wrapped (file [clause,wrapper [main,group]]) 0 _
      (.unwrap (.same wrapped) inner) outer
  have each : List.Forall₂ Rewraps operations others :=
    .cons (.ask _) (.cons (.replaceRoot unwraps) (.cons (.isCurrent _) (.cons (.ask _) .nil)))
  have coherent := @afterCoherent wrapped [.ask .outline,.replaceRoot bare,.isCurrent .functions]
    (by decide)
  have last : (observe others (ofRoot wrapped)).getLast?.map Sight.reply =
      some (.answered .entryFunction (Query.plain bare .entryFunction)) :=
    congrArg (some ∘ Reply.answered .entryFunction) (askReads .entryFunction _ _ coherent).1
  have found : Query.plain bare .entryFunction = some ⟨main,rfl⟩ := by
    simp only [Query.plain,View.compute,declarations,Node.transparentSplice]
    rfl
  exact ⟨wraps,each,rewrappedRunsAgree wraps each,by decide +kernel,found ▸ last⟩

end Operation
end File
end DeclViews
