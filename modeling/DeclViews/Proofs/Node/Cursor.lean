import DeclViews.Node

/-! A cursor against the recursive splice. What a cursor has still to give is what its open levels
hold, exhausted inner levels included; a call takes the head of it, and at the end every further
call gives nothing. A walk visits the same nodes in the same order and stops where its visitor
does. -/
namespace DeclViews
namespace Cursor
open Node (splice)

def left (c : Cursor) : List Node := remaining c.levels

@[simp] theorem leftOfChildren (n : Node) : (ofChildren n).left = splice n.children := by
  simp only [left,ofChildren,remaining,List.flatMap_cons,List.flatMap_nil,List.append_nil]

theorem nextGives (c : Cursor) : c.next.1 = c.left.head? ∧ c.next.2.left = c.left.tail :=
  advanceGives c.levels

def after (c : Cursor) : Nat → Cursor
  | 0 => c
  | calls + 1 => c.next.2.after calls

theorem leftAfter (c : Cursor) (calls : Nat) : (c.after calls).left = c.left.drop calls := by
  induction calls generalizing c with
  | zero => rfl
  | succ calls ih => rw [after,ih,(nextGives c).2,List.drop_tail]

def answers (c : Cursor) : Nat → List (Option Node)
  | 0 => []
  | calls + 1 => c.next.1 :: c.next.2.answers calls

theorem answersAt (c : Cursor) (calls : Nat) :
    c.answers calls = (List.range calls).map fun i => c.left[i]? := by
  induction calls generalizing c with
  | zero => rfl
  | succ calls ih =>
    obtain ⟨head,tail⟩ := nextGives c
    rw [answers,ih,head,tail,List.range_succ_eq_map,List.map_cons,List.map_map]
    simp only [List.head?_eq_getElem?,List.getElem?_tail,Function.comp_def,Nat.succ_eq_add_one]

inductive Holder where
  | original
  | copy
  deriving DecidableEq, Repr

def takeTurns (original copy : Cursor) : List Holder → List (Option Node) × List (Option Node)
  | [] => ([],[])
  | .original :: turns =>
    let (ofOriginal,ofCopy) := takeTurns original.next.2 copy turns
    (original.next.1 :: ofOriginal,ofCopy)
  | .copy :: turns =>
    let (ofOriginal,ofCopy) := takeTurns original copy.next.2 turns
    (ofOriginal,copy.next.1 :: ofCopy)

theorem turnsApart (original copy : Cursor) (turns : List Holder) :
    takeTurns original copy turns =
      (original.answers (turns.count .original),copy.answers (turns.count .copy)) := by
  induction turns generalizing original copy with
  | nil => rfl
  | cons holder turns ih =>
    cases holder with
    | original => simp [takeTurns,ih,answers]
    | copy => simp [takeTurns,ih,answers]

end Cursor

namespace Node

def visitEach {σ β : Type} (visit : σ → Node → σ × Option β) (state : σ) :
    List Node → σ × Option β
  | [] => (state,none)
  | n :: rest =>
    match visit state n with
    | (state,some result) => (state,some result)
    | (state,none) => visitEach visit state rest

theorem visitEachCollects {β : Type} (seen ns : List Node) :
    visitEach (fun seen n => (n :: seen,(none : Option β))) seen ns = (ns.reverse ++ seen,none) := by
  induction ns generalizing seen with
  | nil => rfl
  | cons n rest ih => simp only [visitEach,ih,List.reverse_cons,List.append_assoc,
      List.cons_append,List.nil_append]

end Node

namespace Cursor
open Node (splice)

theorem leftSome {c : Cursor} {n levels} (given : advance c.levels = (some n,levels)) :
    c.left = n :: (⟨levels⟩ : Cursor).left := by
  have gives := advanceGives c.levels
  rw [given] at gives
  obtain ⟨rest,split⟩ := List.head?_eq_some_iff.mp gives.1.symm
  have same : remaining levels = rest := gives.2.trans (congrArg List.tail split)
  rw [left,left,split,same]

theorem walkVisits {σ β : Type} (visit : σ → Node → σ × Option β) (state : σ) (c : Cursor) :
    c.walk visit state = Node.visitEach visit state c.left := by
  fun_induction walk visit state c with
  | case1 state c levels given =>
    have ended := (advanceGives c.levels).1
    rw [given] at ended
    rw [left,List.head?_eq_none_iff.mp ended.symm,Node.visitEach]
  | case2 state c n levels given later result stopped =>
    rw [leftSome given,Node.visitEach,stopped]
  | case3 state c n levels given later through ih =>
    rw [leftSome given,Node.visitEach,through]
    exact ih

theorem toListLeft (c : Cursor) : c.toList = c.left := by
  rw [toList,walkVisits,Node.visitEachCollects,List.append_nil,List.reverse_reverse]

end Cursor

namespace Node

@[simp] theorem transparentSplice (n : Node) : n.transparentChildren = splice n.children :=
  (Cursor.toListLeft _).trans (Cursor.leftOfChildren n)

@[simp] theorem walkSplice {σ β : Type} (n : Node) (visit : σ → Node → σ × Option β) (state : σ) :
    n.walk visit state = visitEach visit state (splice n.children) := by
  rw [walk,Cursor.walkVisits,Cursor.leftOfChildren]

end Node

namespace Cursor
open Node (splice)

theorem cursorGivesSplice (n : Node) :
    n.transparentChildren = splice n.children ∧ ∀ calls turns,
      ((ofChildren n).after calls).toList = (splice n.children).drop calls ∧
      takeTurns ((ofChildren n).after calls) ((ofChildren n).after calls) turns =
        ((List.range (turns.count .original)).map fun i => ((splice n.children).drop calls)[i]?,
          (List.range (turns.count .copy)).map fun i => ((splice n.children).drop calls)[i]?) := by
  refine ⟨(toListLeft _).trans (leftOfChildren n),fun calls turns => ?_⟩
  have rest : ((ofChildren n).after calls).left = (splice n.children).drop calls := by
    rw [leftAfter,leftOfChildren]
  refine ⟨(toListLeft _).trans rest,?_⟩
  rw [turnsApart,answersAt,answersAt,rest]

end Cursor
end DeclViews
