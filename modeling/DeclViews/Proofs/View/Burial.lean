import DeclViews.Declaration
import DeclViews.Proofs.View.Occurrence
import DeclViews.View

/-! Placeholders inside declaration groups. A placeholder at the top of a file is looked through, but
one among the specs of a group, or among the definitions of a spec, is not: what stands under it is
lost to every view, and the rest is listed as before. -/
namespace DeclViews
namespace Node

def Hides (run ns ms : List Node) : Prop :=
  ∃ (before after : List Node) (wrapper : Node), wrapper.kind = .placeholder ∧
    splice wrapper.children = splice run ∧ ns = before ++ run ++ after ∧ ms = before ++ wrapper :: after

/- A group, the group with a run hidden, and the group with nothing but the run. The run is one of
the specs of the group or of the definitions of a var or const spec. -/
inductive Buries : Node → Node → Node → Prop where
  | specs {group : Node} {key : Nat} {run children : List Node}
      (hides : Hides run group.children children) :
      Buries group { group with key, children } { group with children := run }
  | definitions {group spec : Node} {key inner : Nat} {before after run children : List Node}
      (inside : group.children = before ++ spec :: after)
      (ofKind : spec.kind = .varSpec ∨ spec.kind = .constSpec)
      (hides : Hides run spec.children children) :
      Buries group
        { group with key, children := before ++ { spec with key := inner, children } :: after }
        { group with children := [{ spec with children := run }] }

theorem reachAmid (kind : Kind) (kinds : List Kind) (n m : Node) (before after : List Node) :
    reach (kind :: kinds) { n with children := before ++ m :: after } =
      reach (kind :: kinds) { n with children := before } ++
        (if m.kind = kind then reach kinds m else []) ++
        reach (kind :: kinds) { n with children := after } := by
  simp only [reach,childrenOf,List.filter_append,List.filter_cons,List.flatMap_append,beq_iff_eq]
  split <;> simp

end Node

def Lost {α : Type} (stretch whole rest : List α) : Prop :=
  ∃ before after, whole = before ++ stretch ++ after ∧ rest = before ++ after

namespace Lost

variable {α : Type} {stretch whole rest : List α}

theorem nothing (whole : List α) : Lost [] whole whole :=
  ⟨whole,[],by rw [List.append_nil,List.append_nil],(List.append_nil _).symm⟩

theorem amid (lost : Lost stretch whole rest) (before after : List α) :
    Lost stretch (before ++ whole ++ after) (before ++ rest ++ after) := by
  obtain ⟨first,last,rfl,rfl⟩ := lost
  exact ⟨before ++ first,last ++ after,by simp only [List.append_assoc],
    by simp only [List.append_assoc]⟩

theorem sameIff (lost : Lost stretch whole rest) : rest = whole ↔ stretch = [] := by
  obtain ⟨before,after,rfl,rfl⟩ := lost
  constructor
  · intro same
    have lengths := congrArg List.length same
    simp only [List.length_append] at lengths
    exact List.length_eq_zero_iff.mp (by omega)
  · rintro rfl
    rw [List.append_nil]

end Lost

namespace Node

variable {group buried lost : Node} {kind : Kind} {kinds : List Kind}

/- No way down leads through a placeholder, so a hidden run is as good as taken away. -/
theorem hidesReach {n : Node} {run children : List Node} (hides : Hides run n.children children)
    (key : Nat) (visible : kind ≠ .placeholder) (kinds : List Kind) :
    Lost (reach (kind :: kinds) { n with children := run }) (reach (kind :: kinds) n)
      (reach (kind :: kinds) { n with key, children }) := by
  obtain ⟨before,after,wrapper,opens,-,whole,rfl⟩ := hides
  refine ⟨reach (kind :: kinds) { n with children := before },
    reach (kind :: kinds) { n with children := after },?_,?_⟩
  · simp only [reach,childrenOf,whole,List.filter_append,List.flatMap_append]
  · have passed : wrapper.kind ≠ kind := fun same => visible (same.symm.trans opens)
    exact (reachAmid kind kinds { n with key } wrapper before after).trans (by
      rw [if_neg passed,List.append_nil]
      rfl)

theorem buriesReach (buries : Buries group buried lost)
    (visible : ∀ k ∈ kind :: kinds, k ≠ .placeholder)
    (further : kind = .varSpec ∨ kind = .constSpec → kinds ≠ []) :
    Lost (reach (kind :: kinds) lost) (reach (kind :: kinds) group) (reach (kind :: kinds) buried) := by
  cases buries with
  | specs hides => exact hidesReach hides _ (visible kind List.mem_cons_self) kinds
  | @definitions spec key inner before after run children inside ofKind hides =>
    have whole : reach (kind :: kinds) group =
        reach (kind :: kinds) { group with children := before ++ spec :: after } := by
      simp only [reach,childrenOf,inside]
    have alone : reach (kind :: kinds) { group with children := [{ spec with children := run }] } =
        if spec.kind = kind then reach kinds { spec with children := run } else [] :=
      (reachAmid kind kinds group _ [] []).trans (List.append_nil _)
    have renewed :
        reach (kind :: kinds)
            { group with key, children := before ++ { spec with key := inner, children } :: after } =
          reach (kind :: kinds) { group with children := before } ++
            (if spec.kind = kind then reach kinds { spec with key := inner, children } else []) ++
            reach (kind :: kinds) { group with children := after } :=
      reachAmid kind kinds { group with key } _ before after
    have below : Lost (if spec.kind = kind then reach kinds { spec with children := run } else [])
        (if spec.kind = kind then reach kinds spec else [])
        (if spec.kind = kind then reach kinds { spec with key := inner, children } else []) := by
      by_cases same : spec.kind = kind
      · rw [if_pos same,if_pos same,if_pos same]
        cases kinds with
        | nil => exact absurd rfl (further (same ▸ ofKind))
        | cons next kinds => exact hidesReach hides inner (visible next (by simp)) kinds
      · rw [if_neg same,if_neg same,if_neg same]
        exact .nothing []
    rw [whole,reachAmid,alone,renewed]
    exact below.amid _ _

theorem buriesKind (buries : Buries group buried lost) :
    buried.kind = group.kind ∧ lost.kind = group.kind := by
  cases buries <;> exact ⟨rfl,rfl⟩

end Node

namespace View
open Node (splice reach Buries)

variable {group buried lost : Node}

theorem listedBelow (v : View) (buries : Buries group buried lost) (ofGroup : group.kind.isGroup) :
    Lost (if lost.kind = v.top then reach v.below lost else [])
      (if group.kind = v.top then reach v.below group else [])
      (if buried.kind = v.top then reach v.below buried else []) := by
  obtain ⟨stays,alone⟩ := Node.buriesKind buries
  rw [stays,alone]
  by_cases looks : group.kind = v.top
  · rw [if_pos looks,if_pos looks,if_pos looks]
    cases v with
    | package | functions | methods =>
      rw [looks] at ofGroup
      contradiction
    | imports | types | vars | consts =>
      exact Node.buriesReach buries (by decide) (by decide)
  · rw [if_neg looks,if_neg looks,if_neg looks]
    exact .nothing []

theorem groupApart {kind : Kind} (ofGroup : kind.isGroup) :
    kind ≠ .placeholder ∧ kind ≠ .packageClause := by
  revert ofGroup
  cases kind <;> decide

theorem seenAmid (v : View) {root n : Node} {above later : List Node}
    (stands : splice root.children = above ++ n :: later) :
    reach (v.top :: v.below) root.seen =
      reach (v.top :: v.below) { root with children := above } ++
        (if n.kind = v.top then reach v.below n else []) ++
        reach (v.top :: v.below) { root with children := later } := by
  rw [Node.seen,stands]
  exact Node.reachAmid v.top v.below root n above later

/- A run that is hidden in a group is lost to each view, and nothing else is: the view stays as it
was just where it lists nothing of the run. -/
theorem buriedRunLost {root other : Node} {above later : List Node}
    (stands : splice root.children = above ++ group :: later)
    (instead : splice other.children = above ++ buried :: later)
    (buries : Buries group buried lost) (ofGroup : group.kind.isGroup) (v : View) :
    let stretch := v.nodes (v.compute { root with children := [lost] })
    Lost stretch (v.nodes (v.compute root)) (v.nodes (v.compute other)) ∧
      (v.nodes (v.compute other) = v.nodes (v.compute root) ↔ stretch = []) := by
  intro stretch
  obtain ⟨kindBuried,kindAlone⟩ := Node.buriesKind buries
  have spliced : splice [lost] = [] ++ lost :: [] := by
    have looked : lost.kind ≠ .placeholder := by
      rw [kindAlone]
      exact (groupApart ofGroup).1
    rw [splice,Node.splicedEq,if_neg looked]
    rfl
  have alone : reach (v.top :: v.below) ({ root with children := [lost] } : Node).seen =
      if lost.kind = v.top then reach v.below lost else [] :=
    (v.seenAmid spliced).trans (List.append_nil _)
  have gone : Lost stretch (v.nodes (v.compute root)) (v.nodes (v.compute other)) := by
    have own : stretch = _ := v.nodesReach { root with children := [lost] }
    have amid := (v.listedBelow buries ofGroup).amid
      (reach (v.top :: v.below) { root with children := above })
      (reach (v.top :: v.below) { root with children := later })
    rw [own,v.nodesReach,v.nodesReach,alone,v.seenAmid stands,v.seenAmid instead]
    by_cases first : v = .package
    · have aside : group.kind ≠ v.top := by
        rw [first]
        exact (groupApart ofGroup).2
      rw [kindAlone,kindBuried,if_neg aside,if_neg aside,if_neg aside,if_pos first,if_pos first,
        if_pos first]
      exact .nothing _
    · rw [if_neg first,if_neg first,if_neg first]
      exact amid
  exact ⟨gone,gone.sameIff⟩

theorem hiddenVarLost :
    let definition (key : Nat) (name : String) (span : Span) : Node :=
      ⟨key,.varDefinition,span,⟨key,name⟩,some ⟨⟨key,name⟩,span⟩,[]⟩
    let x := definition 3 "x" ⟨4,5⟩
    let y := definition 4 "y" ⟨7,8⟩
    let wrapper (key : Nat) (children : List Node) : Node :=
      ⟨key,.placeholder,⟨7,8⟩,⟨4,"y"⟩,none,children⟩
    let spec (children : List Node) : Node := ⟨2,.varSpec,⟨4,8⟩,⟨2,"x, y"⟩,none,children⟩
    let group (children : List Node) : Node := ⟨1,.varDecl,⟨0,8⟩,⟨1,"var x, y"⟩,none,children⟩
    let file (group : Node) : Node := ⟨0,.file,⟨0,8⟩,⟨0,"var x, y"⟩,none,[group]⟩
    let whole := group [spec [x,y]]
    let hidden := group [spec [x,wrapper 5 [wrapper 6 [y]]]]
    let lost := group [spec [y]]
    splice (file whole).children = [] ++ whole :: [] ∧
      splice (file hidden).children = [] ++ hidden :: [] ∧
      Buries whole hidden lost ∧ whole.kind.isGroup ∧
      let stretch := View.vars.nodes (View.vars.compute (file lost))
      stretch = [y] ∧
        Lost stretch (View.vars.nodes (View.vars.compute (file whole)))
          (View.vars.nodes (View.vars.compute (file hidden))) ∧
        View.vars.nodes (View.vars.compute (file hidden)) ≠
          View.vars.nodes (View.vars.compute (file whole)) := by
  intro definition x y wrapper spec group file whole hidden lost
  have buries : Buries whole hidden lost :=
    @Buries.definitions whole (spec [x,y]) 1 2 [] [] [y] [x,wrapper 5 [wrapper 6 [y]]] rfl (.inl rfl)
      ⟨[x],[],wrapper 5 [wrapper 6 [y]],rfl,rfl,rfl,rfl⟩
  have stretched : View.vars.nodes (View.vars.compute (file lost)) = [y] :=
    View.vars.nodesReach (file lost)
  obtain ⟨gone,same⟩ :=
    @buriedRunLost whole hidden lost (file whole) (file hidden) [] [] rfl rfl buries rfl .vars
  refine ⟨rfl,rfl,buries,rfl,stretched,gone,fun equal => ?_⟩
  have none : View.vars.nodes (View.vars.compute (file lost)) = [] := same.mp equal
  rw [stretched] at none
  contradiction

theorem hiddenImportUnseen :
    let literal : Node := ⟨3,.importString,⟨7,11⟩,⟨3,"\"os\""⟩,none,[]⟩
    let spec : Node := ⟨2,.importSpec,⟨7,11⟩,⟨2,"\"os\""⟩,none,[literal]⟩
    let wrapper : Node := ⟨4,.placeholder,⟨7,11⟩,⟨4,"\"os\""⟩,none,[spec]⟩
    let group (children : List Node) : Node :=
      ⟨1,.importDecl,⟨0,11⟩,⟨1,"import \"os\""⟩,none,children⟩
    let file (group : Node) : Node := ⟨0,.file,⟨0,11⟩,⟨0,"import \"os\""⟩,none,[group]⟩
    let whole := file (group [spec])
    let hidden := file (group [wrapper])
    Buries (group [spec]) (group [wrapper]) (group [spec]) ∧
      (group [spec]).kind.isGroup ∧
      View.imports.compute whole = [⟨spec,rfl⟩] ∧ View.imports.compute hidden = [] ∧
      "os" ∈ Import.Map.ofSpecs (View.imports.compute whole) ∧
      "os" ∉ Import.Map.ofSpecs (View.imports.compute hidden) ∧
      Outline.ofViews (View.compute whole) = [⟨.importSpec,"os",⟨7,11⟩⟩] ∧
      Outline.ofViews (View.compute hidden) = [] := by
  intro literal spec wrapper group file whole hidden
  have buries : Buries (group [spec]) (group [wrapper]) (group [spec]) :=
    @Buries.specs (group [spec]) 1 [spec] [wrapper] ⟨[],[],wrapper,rfl,rfl,rfl,rfl⟩
  have listed : View.imports.compute whole = [⟨spec,rfl⟩] := by
    rw [compute,declarations,Node.transparentSplice]
    rfl
  have missed : View.imports.compute hidden = [] := by
    rw [compute,declarations,Node.transparentSplice]
    rfl
  have bound : Import.binding? ⟨spec,rfl⟩ = some ("os",.path "os") := by
    cbv
  have mapped : Import.Map.ofSpecs [⟨spec,rfl⟩] = Std.ExtTreeMap.insert ∅ "os" (.path "os") := by
    rw [Import.Map.ofSpecs,List.foldl_cons,List.foldl_nil,Import.Map.bind,bound]
  have outlined : Outline.ofViews (View.compute whole) = [⟨.importSpec,"os",⟨7,11⟩⟩] :=
    Outline.ofSorted (by decide +kernel) (by decide)
  have silent : Outline.ofViews (View.compute hidden) = [] :=
    Outline.ofSorted (by decide +kernel) (by decide)
  refine ⟨buries,rfl,listed,missed,?_,?_,outlined,silent⟩
  · rw [listed,mapped]
    exact Std.ExtTreeMap.mem_insert_self
  · rw [missed]
    exact Std.ExtTreeMap.not_mem_empty

end View
end DeclViews
