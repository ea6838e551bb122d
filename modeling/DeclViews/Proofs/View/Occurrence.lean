import DeclViews.Proofs.Node.Cursor
import DeclViews.Proofs.Node.Faithful
import DeclViews.View
import Mathlib.Data.List.Basic

/-! What the views list. A view has a row of kinds, from the declarations at the top of a file down
to what it lists, and follows them through direct children; only at the top are placeholders looked
through. Each place of the tree that the kinds lead to is listed once, in the order of the places,
and nothing else is. What is listed lies below the root, however many placeholders and groups are in
between, and in a tree that is in line the listed nodes are a line as well. -/
namespace DeclViews
namespace Node

def seen (root : Node) : Node := { root with children := splice root.children }

def reach : List Kind → Node → List Node
  | [],n => [n]
  | kind :: kinds,n => (n.childrenOf kind).flatMap (reach kinds)

inductive Leads : List Kind → Node → List Nat → Node → Prop where
  | here (n : Node) : Leads [] n [] n
  | down {kind kinds n i child place m}
      (there : n.children[i]? = some child) (ofKind : child.kind = kind)
      (further : Leads kinds child place m) : Leads (kind :: kinds) n (i :: place) m

def occurrences : List Kind → Node → List (List Nat × Node)
  | [],n => [([],n)]
  | kind :: kinds,n => (n.children.zipIdx.filter (·.1.kind == kind)).flatMap fun child =>
      (occurrences kinds child.1).map fun found => (child.2 :: found.1,found.2)

theorem memOccurrences {kinds : List Kind} {n m : Node} {place : List Nat} :
    (place,m) ∈ occurrences kinds n ↔ Leads kinds n place m := by
  induction kinds generalizing n place with
  | nil =>
    constructor
    · intro member
      cases List.mem_singleton.mp member
      exact .here m
    · rintro ⟨⟩
      exact List.mem_singleton_self _
  | cons kind kinds ih =>
    rw [occurrences,List.mem_flatMap]
    constructor
    · rintro ⟨⟨child,i⟩,kept,member⟩
      obtain ⟨there,ofKind⟩ := List.mem_filter.mp kept
      obtain ⟨⟨rest,found⟩,inside,same⟩ := List.mem_map.mp member
      cases same
      exact .down (List.mk_mem_zipIdx_iff_getElem?.mp there) (eq_of_beq ofKind) (ih.mp inside)
    · intro leads
      cases leads with
      | @down _ _ _ i child rest _ there ofKind further =>
        refine ⟨(child,i),List.mem_filter.mpr ⟨?_,beq_iff_eq.mpr ofKind⟩,?_⟩
        · exact List.mk_mem_zipIdx_iff_getElem?.mpr there
        · exact List.mem_map.mpr ⟨(rest,m),ih.mpr further,rfl⟩

theorem occurrencesReach (kinds : List Kind) (n : Node) :
    (occurrences kinds n).map Prod.snd = reach kinds n := by
  induction kinds generalizing n with
  | nil => rfl
  | cons kind kinds ih =>
    have numbered : (n.children.zipIdx.filter (·.1.kind == kind)).map Prod.fst = n.childrenOf kind := by
      rw [childrenOf,← List.zipIdx_map_fst 0 n.children,List.filter_map,List.zipIdx_map_fst]
      rfl
    rw [reach,← numbered,List.flatMap_map,occurrences,List.map_flatMap]
    refine congrArg (List.flatMap · _) (funext fun child => ?_)
    rw [List.map_map,← ih]
    rfl

/- Places are compared level by level, so their order is that of the tree, and none comes twice. -/
theorem occurrencesOrdered (kinds : List Kind) (n : Node) :
    ((occurrences kinds n).map Prod.fst).Pairwise (· < ·) := by
  induction kinds generalizing n with
  | nil => exact List.pairwise_singleton _ _
  | cons kind kinds ih =>
    have upwards : n.children.zipIdx.Pairwise fun a b => a.2 < b.2 := by
      apply List.pairwise_map.mp
      rw [List.zipIdx_map_snd]
      exact List.pairwise_lt_range'
    rw [occurrences,List.map_flatMap,List.pairwise_flatMap]
    simp only [List.map_map,List.pairwise_map,Function.comp_apply]
    constructor
    · intro child _
      exact (List.pairwise_map.mp (ih child.1)).imp fun below =>
        List.cons_lt_cons_iff.mpr (.inr ⟨rfl,below⟩)
    · refine (upwards.filter _).imp fun below p left q right => ?_
      obtain ⟨x,-,rfl⟩ := List.mem_map.mp left
      obtain ⟨y,-,rfl⟩ := List.mem_map.mp right
      exact List.cons_lt_cons_iff.mpr (.inl below)

@[simp] theorem reachOne (kind : Kind) (n : Node) : reach [kind] n = n.childrenOf kind := List.flatMap_singleton' _

theorem reachTwo (kind inner : Kind) (n : Node) :
    reach [kind,inner] n = (n.childrenOf kind).flatMap (·.childrenOf inner) :=
  congrArg (List.flatMap · _) (funext fun m => reachOne inner m)

theorem reachThree (kind inner innermost : Kind) (n : Node) :
    reach [kind,inner,innermost] n = (n.childrenOf kind).flatMap fun m =>
      (m.childrenOf inner).flatMap (·.childrenOf innermost) :=
  congrArg (List.flatMap · _) (funext fun m => reachTwo inner innermost m)

end Node

namespace Typed
open Node (reach reachTwo)

variable {kind : Kind}

theorem castNodes (kind : Kind) (ns : List Node) :
    (ns.filterMap (cast? kind)).map node = ns.filter (·.kind == kind) := by
  have guards : (fun n => (cast? kind n).map node) = Option.guard (·.kind == kind) := by
    funext n
    rw [cast?,Option.guard]
    by_cases ofKind : n.kind = kind
    · rw [dif_pos ofKind,if_pos (beq_iff_eq.mpr ofKind),Option.map_some]
    · rw [dif_neg ofKind,if_neg (mt beq_iff_eq.mp ofKind),Option.map_none]
  rw [List.map_filterMap,guards,List.filterMap_eq_filter]

theorem childrenNodes (t : Typed kind) (child : Kind) :
    (t.childrenOf child).map node = t.node.childrenOf child := castNodes child t.node.children

theorem childrenReach (t : Typed kind) (child grandchild : Kind) :
    ((t.childrenOf child).flatMap (·.childrenOf grandchild)).map node =
      reach [child,grandchild] t.node := by
  rw [reachTwo,← childrenNodes,List.flatMap_map,List.map_flatMap]
  exact congrArg (List.flatMap · _) (funext fun inner => childrenNodes inner grandchild)

end Typed

namespace View
open Node (splice reach reachOne reachTwo reachThree)

def top : View → Kind
  | .package => .packageClause
  | .imports => .importDecl
  | .functions => .functionDecl
  | .methods => .methodDecl
  | .types => .typeDecl
  | .vars => .varDecl
  | .consts => .constDecl

def below : View → List Kind
  | .package | .functions | .methods => []
  | .imports => [.importSpec]
  | .types => [.typeSpec]
  | .vars => [.varSpec,.varDefinition]
  | .consts => [.constSpec,.constDefinition]

def nodes : (v : View) → v.Value → List Node
  | .package,clause => clause.toList.map Typed.node
  | .imports,specs => specs.map Typed.node
  | .functions,decls => decls.map Typed.node
  | .methods,decls => decls.map Typed.node
  | .types,specs => specs.map Typed.node
  | .vars,definitions => definitions.map Typed.node
  | .consts,definitions => definitions.map Typed.node

def within : View → Declaration → List Node
  | .package,.package clause => [clause.node]
  | .imports,d => d.importSpecs.map Typed.node
  | .functions,d => d.functions.map Typed.node
  | .methods,d => d.methods.map Typed.node
  | .types,d => d.typeSpecs.map Typed.node
  | .vars,d => d.varDefinitions.map Typed.node
  | .consts,d => d.constDefinitions.map Typed.node
  | _,_ => []

theorem withinReach (v : View) (n : Node) :
    (Declaration.classify? n).toList.flatMap v.within =
      if n.kind = v.top then reach v.below n else [] := by
  obtain ⟨key,kind,span,text,name,children⟩ := n
  cases v <;> cases kind <;> try rfl
  case imports.importDecl | types.typeDecl =>
    exact (List.append_nil _).trans ((Typed.childrenNodes _ _).trans (reachOne _ _).symm)
  case vars.varDecl | consts.constDecl =>
    exact (List.append_nil _).trans (Typed.childrenReach _ _ _)

theorem declaredReach (v : View) (root : Node) :
    (declarations root).flatMap v.within = reach (v.top :: v.below) root.seen := by
  rw [declarations,Node.transparentSplice,reach,Node.childrenOf,Node.seen]
  dsimp only
  induction splice root.children with
  | nil => rfl
  | cons n rest ih =>
    have apart : ((n :: rest).filterMap Declaration.classify?).flatMap v.within =
        (Declaration.classify? n).toList.flatMap v.within ++
          (rest.filterMap Declaration.classify?).flatMap v.within := by
      rw [List.filterMap_cons]
      cases Declaration.classify? n with
      | none => rfl
      | some d => simp
    rw [apart,withinReach,ih,List.filter_cons]
    by_cases ofKind : n.kind = v.top
    · rw [if_pos ofKind,if_pos (beq_iff_eq.mpr ofKind),List.flatMap_cons]
    · rw [if_neg ofKind,if_neg (mt beq_iff_eq.mp ofKind),List.nil_append]

theorem visitEachFinds {β : Type} (look : Node → Option β) (ns : List Node) :
    (Node.visitEach (fun (_ : Unit) n => ((),look n)) () ns).2 = ns.findSome? look := by
  induction ns with
  | nil => rfl
  | cons n rest ih =>
    rw [Node.visitEach,List.findSome?_cons]
    cases look n with
    | none => exact ih
    | some result => rfl

@[simp] theorem packageFirst (root : Node) :
    packageClause? root = (splice root.children).findSome? (Typed.cast? .packageClause) := by
  rw [packageClause?,Node.walkSplice,visitEachFinds]

theorem packageNode (root : Node) :
    (packageClause? root).map Typed.node = (root.seen.childrenOf .packageClause).head? := by
  rw [packageFirst,← List.head?_filterMap,← List.head?_map,Typed.castNodes]
  rfl

theorem nodesReach (v : View) (root : Node) :
    v.nodes (v.compute root) = if v = .package then (reach (v.top :: v.below) root.seen).take 1
      else reach (v.top :: v.below) root.seen := by
  cases v with
  | package =>
    rw [if_pos rfl,top,below,reachOne,List.take_one,← packageNode,Option.toList_map]
    rfl
  | imports | functions | methods | types | vars | consts =>
    rw [if_neg nofun,← declaredReach]
    exact List.map_flatMap

def joined : (v : View) → v.Value → v.Value → v.Value
  | .package,first,second => first.or second
  | .imports,first,second => first ++ second
  | .functions,first,second => first ++ second
  | .methods,first,second => first ++ second
  | .types,first,second => first ++ second
  | .vars,first,second => first ++ second
  | .consts,first,second => first ++ second

theorem computeJoined (v : View) {whole left right : Node}
    (parts : whole.children = left.children ++ right.children) :
    v.compute whole = v.joined (v.compute left) (v.compute right) := by
  have spliced : splice whole.children = splice left.children ++ splice right.children := by
    rw [parts,Node.spliceAppend]
  have declared : declarations whole = declarations left ++ declarations right := by
    simp only [declarations,Node.transparentSplice,spliced,List.filterMap_append]
  cases v with
  | package => simp only [compute,joined,packageFirst,spliced,List.findSome?_append]
  | imports | functions | methods | types | vars | consts =>
    simp only [compute,joined,declared,List.flatMap_append]

/- Each view lists what its kinds lead to from the root as its readers see it: every place once, in
the order of the tree, and nothing else; of package clauses the first one alone. The children of a
root may be cut anywhere: what the two parts list, one after the other, is what the whole lists. -/
theorem listsOccurrences (root : Node) :
    (View.imports.compute root).map Typed.node =
      (root.seen.childrenOf .importDecl).flatMap (·.childrenOf .importSpec) ∧
    (View.types.compute root).map Typed.node =
      (root.seen.childrenOf .typeDecl).flatMap (·.childrenOf .typeSpec) ∧
    (View.vars.compute root).map Typed.node =
      (root.seen.childrenOf .varDecl).flatMap (fun group =>
        (group.childrenOf .varSpec).flatMap (·.childrenOf .varDefinition)) ∧
    (View.consts.compute root).map Typed.node =
      (root.seen.childrenOf .constDecl).flatMap (fun group =>
        (group.childrenOf .constSpec).flatMap (·.childrenOf .constDefinition)) ∧
    (View.functions.compute root).map Typed.node = root.seen.childrenOf .functionDecl ∧
    (View.methods.compute root).map Typed.node = root.seen.childrenOf .methodDecl ∧
    (View.package.compute root).map Typed.node = (root.seen.childrenOf .packageClause).head? ∧
    (∀ v : View, ∃ found : List (List Nat × Node),
      (found.map Prod.fst).Pairwise (· < ·) ∧
      (∀ place n, (place,n) ∈ found ↔ Node.Leads (v.top :: v.below) root.seen place n) ∧
      v.nodes (v.compute root) =
        if v = .package then (found.map Prod.snd).take 1 else found.map Prod.snd) ∧
    ∀ (v : View) (whole left right : Node) (xs ys : List Node),
      v.compute { whole with children := xs ++ ys } =
        v.joined (v.compute { left with children := xs }) (v.compute { right with children := ys }) := by
  have listed (v : View) := v.nodesReach root
  refine ⟨?_,?_,?_,?_,?_,?_,packageNode root,?_,?_⟩
  · exact (listed .imports).trans (reachTwo _ _ _)
  · exact (listed .types).trans (reachTwo _ _ _)
  · exact (listed .vars).trans (reachThree _ _ _ _)
  · exact (listed .consts).trans (reachThree _ _ _ _)
  · exact (listed .functions).trans (reachOne _ _)
  · exact (listed .methods).trans (reachOne _ _)
  · intro v
    refine ⟨Node.occurrences (v.top :: v.below) root.seen,Node.occurrencesOrdered _ _,?_,?_⟩
    · exact fun place n => Node.memOccurrences
    · rw [listed,Node.occurrencesReach]
  · intro v whole left right xs ys
    exact @computeJoined v { whole with children := xs ++ ys } { left with children := xs }
      { right with children := ys } rfl

end View

namespace Node

variable {source : String} {n m : Node} {kinds : List Kind}

theorem reachWithin (member : m ∈ reach kinds n) : n.Within m := by
  induction kinds generalizing n with
  | nil =>
    cases List.mem_singleton.mp member
    exact .self m
  | cons kind kinds ih =>
    obtain ⟨child,ofKind,deeper⟩ := List.mem_flatMap.mp member
    exact .lower (List.mem_of_mem_filter ofKind) (ih deeper)

theorem reachInLine (faithful : Faithful source n) (inLine : n.InLine) :
    (reach kinds n).Pairwise Follows := by
  induction kinds generalizing n with
  | nil => exact List.pairwise_singleton _ _
  | cons kind kinds ih =>
    rw [reach,List.pairwise_flatMap]
    constructor
    · intro child ofKind
      have member := List.mem_of_mem_filter ofKind
      exact ih (faithful.child member) (inLine.child member)
    · refine ((inLine n (.self n)).filter _).imp_of_mem ?_
      intro a b left right follows x first y second
      exact follows.below (faithful.child (List.mem_of_mem_filter left))
        (faithful.child (List.mem_of_mem_filter right)) (reachWithin first) (reachWithin second)

theorem seenWithin (member : m ∈ n.seen.children) : n.Within m := by
  obtain ⟨child,inside,within⟩ := spliceWithin n.children member
  exact .lower inside within

theorem seenFaithful (faithful : Faithful source n) : Faithful source n.seen := by
  have fits := faithful n (.self n)
  refine .of ⟨fits.text,fits.name,fun child member => ?_⟩ fun child member => ?_
  · exact faithful.contains (seenWithin member)
  · exact faithful.within (seenWithin member)

theorem seenInLine (faithful : Faithful source n) (inLine : n.InLine) : n.seen.InLine := by
  refine .of ?_ fun child member => inLine.within (seenWithin member)
  exact spliceInLine n.children (fun child member => faithful.child member)
    (fun child member => inLine.child member) (inLine n (.self n))

end Node

namespace View
open Node (Faithful Follows reach)

variable {source : String} {root n : Node}

theorem listedWithin {v : View} (listed : n ∈ v.nodes (v.compute root)) : root.Within n := by
  have reached : n ∈ reach (v.top :: v.below) root.seen := by
    rw [nodesReach] at listed
    split at listed
    · exact List.mem_of_mem_take listed
    · exact listed
  obtain ⟨top,ofKind,deeper⟩ := List.mem_flatMap.mp reached
  exact (Node.seenWithin (List.mem_of_mem_filter ofKind)).trans (Node.reachWithin deeper)

theorem listedInLine (faithful : Faithful source root) (inLine : root.InLine) (v : View) :
    (v.nodes (v.compute root)).Pairwise Follows := by
  have line : (reach (v.top :: v.below) root.seen).Pairwise Follows :=
    Node.reachInLine (Node.seenFaithful faithful) (Node.seenInLine faithful inLine)
  rw [nodesReach]
  split
  · exact line.sublist (List.take_sublist 1 _)
  · exact line

end View
end DeclViews
