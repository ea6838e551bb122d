import DeclViews.Node.Shape
import DeclViews.Proofs.Outline.Row
import Mathlib.Data.List.Nodup
import Mathlib.Data.List.Perm.Basic
import Mathlib.Logic.Function.Basic

/-! Outlines of trees whose declarations stand in another order. What a declaration adds to the rows
of a view is settled by its shape, so trees that have the same declarations have the same rows, in
some order; and where no two rows start at one offset there is one order to sort them in. -/
namespace DeclViews
namespace Node

variable {β : Type} {ns ms : List Node}

theorem childrenOfShape (n : Node) (kind : Kind) :
    (n.childrenOf kind).map shape = n.shape.children.filter (·.kind == kind) := by
  simp [childrenOf,List.filter_map,Function.comp_def]

theorem flatMapSettled {f : Node → List β} (settled : f.FactorsThrough shape) :
    ∃ ofShape : Shape → List β, ∀ ns : List Node, ns.flatMap f = (ns.map shape).flatMap ofShape := by
  obtain ⟨ofShape,rfl⟩ := (Function.factorsThrough_iff f).mp settled
  refine ⟨ofShape,fun ns => ?_⟩
  rw [List.flatMap_map]
  rfl

theorem flatMapPerm {f : Node → List β} (settled : f.FactorsThrough shape)
    (alike : (ns.map shape).Perm (ms.map shape)) : (ns.flatMap f).Perm (ms.flatMap f) := by
  obtain ⟨ofShape,same⟩ := flatMapSettled settled
  rw [same,same]
  exact alike.flatMap_right ofShape

theorem flatMapShapes {f : Node → List β} (settled : f.FactorsThrough shape)
    (alike : ns.map shape = ms.map shape) : ns.flatMap f = ms.flatMap f := by
  obtain ⟨ofShape,same⟩ := flatMapSettled settled
  rw [same,same,alike]

theorem reachEach (kind : Kind) (kinds : List Kind) (n : Node) : reach (kind :: kinds) n =
    n.children.flatMap fun child => if child.kind = kind then reach kinds child else [] := by
  rw [reach,childrenOf]
  induction n.children with
  | nil => rfl
  | cons child rest ih =>
    rw [List.flatMap_cons,← ih,List.filter_cons]
    by_cases ofKind : child.kind = kind <;> simp [ofKind]

theorem reachSettled (kinds : List Kind) :
    (fun n => (reach kinds n).map shape).FactorsThrough shape := by
  intro n m alike
  induction kinds generalizing n m with
  | nil => exact congrArg (fun s => [s]) alike
  | cons kind kinds ih =>
    have children : (n.childrenOf kind).map shape = (m.childrenOf kind).map shape := by
      rw [childrenOfShape,childrenOfShape,alike]
    simp only [reach,List.map_flatMap]
    exact flatMapShapes (fun _ _ same => ih same) children

theorem importPathShape (n : Node) : n.importPath =
    (((n.childrenOf .importString).map shape).head?.map fun s => Import.unquote s.text).getD "" := by
  rw [importPath,childOfHead,List.head?_map]
  cases (n.childrenOf .importString).head? with
  | none => rfl
  | some literal => simp

end Node

namespace Outline
open Node (reach shape childrenOfShape)

variable {a b root : Node} {v : View}

theorem rowSettled (v : View) : (row? v).FactorsThrough shape := by
  intro n m alike
  have path : n.importPath = m.importPath := by
    rw [Node.importPathShape,Node.importPathShape,childrenOfShape,childrenOfShape,alike]
  obtain ⟨-,span,-,name,-⟩ := Node.sameShape.mp alike
  have named : n.nameText? = m.nameText? := by
    have texts := congrArg (Option.map Prod.fst) name
    rwa [Node.nameShape,Node.nameShape,Option.map_map,Option.map_map] at texts
  cases v <;> simp only [row?,named,span,path]

def added (v : View) (n : Node) : List Item :=
  if n.kind = v.top then (reach v.below n).filterMap (row? v) else []

theorem addedSettled (v : View) : (added v).FactorsThrough shape := by
  intro n m alike
  have kind : n.kind = m.kind := (Node.sameShape.mp alike).1
  have rows : (fun n => (row? v n).toList).FactorsThrough shape := fun _ _ same =>
    congrArg Option.toList (rowSettled v same)
  simp only [added,kind,List.filterMap_eq_flatMap_toList]
  rw [Node.flatMapShapes rows (Node.reachSettled v.below alike)]

theorem reachedAdded (root : Node) (v : View) :
    (reach (v.top :: v.below) root.seen).filterMap (row? v) =
      root.transparentChildren.flatMap (added v) := by
  rw [Node.transparentSplice,Node.reachEach,List.filterMap_flatMap]
  refine congrArg (List.flatMap · _) (funext fun n => ?_)
  rw [added]
  split <;> rfl

theorem rowsAdded (single : root.transparentChildren.countP (·.kind == .packageClause) ≤ 1)
    (v : View) : rows (View.compute root) v = root.transparentChildren.flatMap (added v) := by
  rw [← reachedAdded,rowsReach]
  by_cases package : v = .package
  · subst package
    have whole : (reach [.packageClause] root.seen).length ≤ 1 := by
      rw [Node.reachOne,Node.childrenOf,Node.seen,← List.countP_eq_length_filter,
        ← Node.transparentSplice]
      exact single
    rw [if_pos rfl,View.top,View.below,List.take_of_length_le whole]
  · rw [if_neg package]

theorem listedPerm (single : a.transparentChildren.countP (·.kind == .packageClause) ≤ 1)
    (same : (a.transparentChildren.map shape).Perm (b.transparentChildren.map shape)) :
    (listed (View.compute a)).Perm (listed (View.compute b)) := by
  have ofShapes (ns : List Node) : ns.countP (·.kind == .packageClause) =
      (ns.map shape).countP (·.kind == .packageClause) := by
    simp [List.countP_map,Function.comp_def]
  have singleToo : b.transparentChildren.countP (·.kind == .packageClause) ≤ 1 := by
    rw [ofShapes,← same.countP_eq,← ofShapes]
    exact single
  rw [listedRows,listedRows]
  refine List.Perm.flatMap_left _ fun v _ => ?_
  rw [rowsAdded single,rowsAdded singleToo]
  exact Node.flatMapPerm (addedSettled v) same

theorem sortedAlike {views others : (v : View) → v.Value}
    (same : (listed views).Perm (listed others))
    (apart : ((ofViews views).map (·.span.start)).Nodup) : ofViews views = ofViews others := by
  have perm := (outlinePerm views).trans (same.trans (outlinePerm others).symm)
  refine perm.eq_of_pairwise ?_ (outlineSorted views) (outlineSorted others)
  intro x y first second below above
  exact List.inj_on_of_nodup_map apart first (perm.mem_iff.mpr second) (Nat.le_antisymm below above)

theorem orderFree (same : (a.transparentChildren.map shape).Perm (b.transparentChildren.map shape))
    (single : a.transparentChildren.countP (·.kind == .packageClause) ≤ 1)
    (apart : ((File.outline (File.ofRoot a)).answer.map (·.span.start)).Nodup) :
    (File.outline (File.ofRoot a)).answer = (File.outline (File.ofRoot b)).answer := by
  rw [File.outlineOfRoot] at apart
  rw [File.outlineOfRoot,File.outlineOfRoot]
  exact sortedAlike (listedPerm single same) apart

theorem movedImportSeen :
    let clause : Node := ⟨1,.packageClause,⟨0,9⟩,⟨1,"package p"⟩,some ⟨⟨2,"p"⟩,⟨8,9⟩⟩,[]⟩
    let literal : Node := ⟨2,.importString,⟨17,20⟩,⟨3,"\"a\""⟩,none,[]⟩
    let spec : Node := ⟨3,.importSpec,⟨17,20⟩,⟨3,"\"a\""⟩,none,[literal]⟩
    let group : Node := ⟨4,.importDecl,⟨10,20⟩,⟨4,"import \"a\""⟩,none,[spec]⟩
    let main := fun key => Node.mk key .functionDecl ⟨21,32⟩ ⟨5,"func main()"⟩
      (some ⟨⟨6,"main"⟩,⟨26,30⟩⟩) []
    let wrap := Node.mk 7 .placeholder .zero ⟨0,""⟩ none
    let first : Node := ⟨8,.file,.zero,⟨0,""⟩,none,[clause,wrap [main 9],group]⟩
    let second : Node := ⟨10,.file,⟨0,32⟩,⟨0,""⟩,none,[wrap [wrap [],group,wrap [clause]],main 11]⟩
    let shown : List Item :=
      [⟨.package,"p",⟨0,9⟩⟩,⟨.importSpec,"a",⟨17,20⟩⟩,⟨.function,"main",⟨21,32⟩⟩]
    (first.transparentChildren.map shape).Perm (second.transparentChildren.map shape) ∧
      first.transparentChildren.countP (·.kind == .packageClause) ≤ 1 ∧
      (File.outline (File.ofRoot first)).answer = shown ∧ (shown.map (·.span.start)).Nodup ∧
      (File.outline (File.ofRoot second)).answer = shown := by
  intro clause literal spec group main wrap first second shown
  have before : first.transparentChildren = [clause,main 9,group] := by
    rw [Node.transparentSplice]
    rfl
  have behind : second.transparentChildren = [group,clause,main 11] := by
    rw [Node.transparentSplice]
    rfl
  have same : (first.transparentChildren.map shape).Perm (second.transparentChildren.map shape) := by
    rw [before,behind]
    exact @List.perm_middle _ group.shape [clause.shape,(main 9).shape] []
  have single : first.transparentChildren.countP (·.kind == .packageClause) ≤ 1 := by
    rw [before]
    decide
  have outlined : (File.outline (File.ofRoot first)).answer = shown :=
    (File.outlineOfRoot first).trans (ofSorted (by decide +kernel) (by decide))
  have apart : ((File.outline (File.ofRoot first)).answer.map (·.span.start)).Nodup := by
    rw [outlined]
    decide
  exact ⟨same,single,outlined,outlined ▸ apart,(orderFree same single apart).symm.trans outlined⟩

end Outline
end DeclViews
