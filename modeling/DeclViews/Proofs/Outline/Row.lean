import DeclViews.Proofs.File.Coherence
import DeclViews.Proofs.View.Occurrence
import DeclViews.View

/-! The rows of an outline. Each view has a category of its own. A node that it lists gives a row if
it has a name; an import gives one in any case, under its path where it has no alias. The rows of
the views stand one view after the other before they are sorted by their starts. The sort is stable,
so rows of one category that are in order beforehand keep the order they have, and rows that start
at one offset stay in the order of the views. All that an outline has to show is read off the tree
as well. -/
namespace DeclViews

def Node.importPath (n : Node) : String :=
  match n.childOf? .importString with
  | some literal => Import.unquote literal.text.value
  | none => ""

def View.category : View → Outline.Category
  | .package => .package
  | .imports => .importSpec
  | .functions => .function
  | .methods => .method
  | .types => .typeSpec
  | .vars => .varDefinition
  | .consts => .constDefinition

namespace Outline
open DeclViews.Node (reach)

def row? : View → Node → Option Item
  | .imports,n => some ⟨.importSpec,n.nameText?.getD n.importPath,n.span⟩
  | v,n => n.nameText?.map fun name => ⟨v.category,name,n.span⟩

def rows (views : (v : View) → v.Value) (v : View) : List Item := (v.nodes (views v)).filterMap (row? v)

variable {views : (v : View) → v.Value} {item : Item}

theorem listedRows (views : (v : View) → v.Value) : listed views = View.all.flatMap (rows views) := by
  have alone : (views .imports).map imported = rows views .imports := by
    rw [rows,View.nodes,List.filterMap_map,← List.filterMap_eq_map]
    rfl
  simp only [listed,alone,View.all,List.flatMap_cons,List.flatMap_nil,rows,View.nodes,List.filterMap_map,
    List.append_assoc,List.append_nil]
  rfl

theorem memRows {v : View} : item ∈ rows views v ↔ ∃ n ∈ v.nodes (views v), row? v n = some item :=
  List.mem_filterMap

theorem memOutline : item ∈ ofViews views ↔ ∃ v, ∃ n ∈ v.nodes (views v), row? v n = some item := by
  simp only [ofViews,List.mem_mergeSort,listedRows,List.mem_flatMap,memRows,View.memAll,true_and]

theorem rowIs {v : View} {n : Node} (row : row? v n = some item) :
    item.category = v.category ∧ item.span = n.span := by
  cases v with
  | imports =>
    cases Option.some.inj row
    exact ⟨rfl,rfl⟩
  | package | functions | methods | types | vars | consts =>
    obtain ⟨name,named,same⟩ := Option.map_eq_some_iff.mp row
    cases same
    exact ⟨rfl,rfl⟩

theorem categoryApart {v w : View} (same : v.category = w.category) : v = w := by
  cases v <;> cases w <;> first | rfl | contradiction

theorem rowsOfCategory (views : (v : View) → v.Value) (v : View) :
    (listed views).filter (·.category == v.category) = rows views v := by
  have own (w : View) : (rows views w).filter (·.category == v.category) =
      if w = v then rows views w else [] := by
    split
    · rename_i same
      rw [← same]
      refine List.filter_eq_self.mpr fun item member => ?_
      obtain ⟨n,-,row⟩ := memRows.mp member
      exact beq_iff_eq.mpr (rowIs row).1
    · rename_i other
      refine List.filter_eq_nil_iff.mpr fun item member same => ?_
      obtain ⟨n,-,row⟩ := memRows.mp member
      exact other (categoryApart ((rowIs row).1.symm.trans (beq_iff_eq.mp same)))
  rw [listedRows,List.filter_flatMap]
  simp only [own]
  cases v <;> simp [View.all]

theorem startsTrans (a b c : Item) (ab : decide (a.span.start ≤ b.span.start) = true)
    (bc : decide (b.span.start ≤ c.span.start) = true) :
    decide (a.span.start ≤ c.span.start) = true :=
  decide_eq_true (Nat.le_trans (of_decide_eq_true ab) (of_decide_eq_true bc))

theorem startsTotal (a b : Item) :
    (decide (a.span.start ≤ b.span.start) || decide (b.span.start ≤ a.span.start)) = true := by
  simpa using Nat.le_total a.span.start b.span.start

theorem sortKeeps {test : Item → Bool}
    (ordered : ((listed views).filter test).Pairwise fun a b => a.span.start ≤ b.span.start) :
    (ofViews views).filter test = (listed views).filter test := by
  have kept : ((listed views).filter test).Sublist (ofViews views) :=
    List.sublist_mergeSort startsTrans startsTotal (ordered.imp fun below => decide_eq_true below)
      List.filter_sublist
  have chosen := kept.filter test
  rw [List.filter_filter] at chosen
  simp only [Bool.and_self] at chosen
  refine (chosen.eq_of_length ?_).symm
  exact ((List.mergeSort_perm _ _).filter test).length_eq.symm

def namedRow? (category : Category) (n : Node) : Option Item :=
  n.nameText?.map fun name => ⟨category,name,n.span⟩

def importedRow (n : Node) : Item := ⟨.importSpec,n.nameText?.getD n.importPath,n.span⟩

def content (root : Node) : List Item :=
  ((reach [.packageClause] root.seen).take 1).filterMap (namedRow? .package) ++
    (reach [.importDecl,.importSpec] root.seen).map importedRow ++
    (reach [.functionDecl] root.seen).filterMap (namedRow? .function) ++
    (reach [.methodDecl] root.seen).filterMap (namedRow? .method) ++
    (reach [.typeDecl,.typeSpec] root.seen).filterMap (namedRow? .typeSpec) ++
    (reach [.varDecl,.varSpec,.varDefinition] root.seen).filterMap (namedRow? .varDefinition) ++
    (reach [.constDecl,.constSpec,.constDefinition] root.seen).filterMap (namedRow? .constDefinition)

theorem rowsReach (root : Node) (v : View) : rows (View.compute root) v =
    (if v = .package then (reach (v.top :: v.below) root.seen).take 1
      else reach (v.top :: v.below) root.seen).filterMap (row? v) := by
  rw [rows,View.nodesReach]

theorem listedContent (root : Node) : listed (View.compute root) = content root := by
  have imports : (reach [.importDecl,.importSpec] root.seen).map importedRow =
      (reach [.importDecl,.importSpec] root.seen).filterMap (row? .imports) := by
    rw [← List.filterMap_eq_map]
    rfl
  rw [listedRows,content,imports]
  simp only [View.all,List.flatMap_cons,List.flatMap_nil,List.append_assoc,List.append_nil,rowsReach,
    reduceCtorEq,if_true,if_false]
  rfl

theorem outlinePerm (views : (v : View) → v.Value) : (ofViews views).Perm (listed views) :=
  List.mergeSort_perm _ _

theorem outlineSorted (views : (v : View) → v.Value) :
    (ofViews views).Pairwise fun a b => a.span.start ≤ b.span.start :=
  (List.pairwise_mergeSort startsTrans startsTotal (listed views)).imp fun below =>
    of_decide_eq_true below

theorem outlineTies (views : (v : View) → v.Value) (start : Nat) :
    (ofViews views).filter (·.span.start == start) = (listed views).filter (·.span.start == start) := by
  refine sortKeeps (List.pairwise_of_forall_mem_list fun a first b second => ?_)
  have left : a.span.start = start := eq_of_beq (List.mem_filter.mp first).2
  have right : b.span.start = start := eq_of_beq (List.mem_filter.mp second).2
  omega

theorem stableByStart (root : Node) :
    (File.outline (File.ofRoot root)).answer.Perm (content root) ∧
    ((File.outline (File.ofRoot root)).answer.map (·.span.start)).Pairwise (· ≤ ·) ∧
    ∀ start, (File.outline (File.ofRoot root)).answer.filter (·.span.start == start) =
      (content root).filter (·.span.start == start) := by
  rw [File.outlineOfRoot,← listedContent]
  exact ⟨outlinePerm _,List.pairwise_map.mpr (outlineSorted _),outlineTies _⟩

end Outline
end DeclViews
