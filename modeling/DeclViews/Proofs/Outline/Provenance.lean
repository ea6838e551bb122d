import DeclViews.Proofs.Builder.Soundness
import DeclViews.Proofs.File.Coherence
import DeclViews.Proofs.Import.Literal
import DeclViews.Proofs.Outline.Row
import DeclViews.Proofs.View.Occurrence

/-! Where the text of an outline comes from. A tree that was built over a source has its texts and
its names from it, so an outline shows nothing that the source does not have: a row with a name
shows the text under the span of the name, wherever that lies, and an import without an alias shows
a part of the text under its own span. -/
namespace DeclViews
namespace Outline
open DeclViews.Node (Faithful)
open DeclViews.Span (Boundary)

/- What the name of a row was cut out by: the span of a name, or, in an import that has none, the
span of the import and then its quotes. -/
inductive Origin (source : String) (n : Node) (item : Item) : Prop where
  | named {token : Token}
      (named : n.name = some token)
      (cut : token.span.Cuts source item.name) : Origin source n item
  | unaliased {before after : String}
      (category : item.category = .importSpec)
      (unnamed : n.name = none)
      (cut : item.span.Cuts source (before ++ item.name ++ after)) : Origin source n item

structure Traced (source : String) (root : Node) (item : Item) : Prop where
  inside : root.span.Contains item.span
  start : Boundary source item.span.start
  stop : Boundary source item.span.stop
  row : ∃ v : View, ∃ n ∈ v.nodes (v.compute root), row? v n = some item ∧ Origin source n item
  present : ∃ before after, source = before ++ item.name ++ after

variable {source : String} {root n : Node} {item : Item} {v : View}

theorem Origin.present (origin : Origin source n item) :
    ∃ before after, source = before ++ item.name ++ after := by
  cases origin with
  | named named cut => exact cut.present
  | @unaliased before after category unnamed cut =>
    obtain ⟨left,right,same⟩ := cut.present
    refine ⟨left ++ before,after ++ right,?_⟩
    rw [same]
    simp only [String.append_assoc]

theorem importPathPart (faithful : Faithful source n) :
    ∃ before after, n.text.value = before ++ n.importPath ++ after := by
  have around := (faithful n (.self n)).text
  unfold Node.importPath
  cases found : n.childOf? .importString with
  | none => exact ⟨"",n.text.value,by simp⟩
  | some literal =>
    have member : literal ∈ n.children := List.mem_of_find?_eq_some found
    have cut := (faithful.child member literal (.self literal)).text
    obtain ⟨left,right,whole⟩ := around.part cut ((faithful n (.self n)).inside literal member)
    obtain ⟨opening,closing,quoted⟩ := Import.unquotePart literal.text.value
    refine ⟨left ++ opening,closing ++ right,?_⟩
    rw [whole]
    conv => lhs; rw [quoted]
    simp only [String.append_assoc]

theorem rowOrigin (faithful : Faithful source n) (row : row? v n = some item) :
    Origin source n item := by
  have fits := faithful n (.self n)
  have ofToken {token : Token} (named : n.name = some token) (same : token.text = item.name) :
      Origin source n item := .named named (same ▸ fits.name token named)
  cases named : n.name with
  | some token =>
    refine ofToken named ?_
    cases v <;> simp only [row?,Node.nameText?,named,Option.map_some,Option.getD_some] at row <;>
      cases row <;> rfl
  | none =>
    cases v with
    | imports =>
      simp only [row?,Node.nameText?,named,Option.map_none,Option.getD_none] at row
      cases row
      obtain ⟨before,after,part⟩ := importPathPart faithful
      exact .unaliased rfl named (part ▸ fits.text)
    | package | functions | methods | types | vars | consts =>
      simp only [row?,Node.nameText?,named,Option.map_none] at row
      contradiction

theorem showsSource {calls : List Builder.Call}
    (built : ((Builder.ofSource source).run calls).1.root = .ok root) :
    ∀ item ∈ (File.outline (File.ofRoot root)).answer, Traced source root item := by
  intro item listed
  have faithful := Builder.builtFaithful built
  rw [File.outlineOfRoot] at listed
  obtain ⟨v,n,shown,row⟩ := memOutline.mp listed
  have within := View.listedWithin shown
  have origin := rowOrigin (faithful.within within) row
  have cut := (faithful n within).text
  have span := (rowIs row).2
  exact {
    inside := span ▸ faithful.contains within
    start := span ▸ cut.startBoundary
    stop := span ▸ cut.stopBoundary
    row := ⟨v,n,shown,row,origin⟩
    present := origin.present }

theorem aliasFromOutside :
    let source := "import (\"é\" y \"z\")"
    let calls : List Builder.Call :=
      [.start .file 0,.start .importDecl 0,.start .importSpec 8,.leaf .importString ⟨8,12⟩,
        .leaf .importString ⟨9,10⟩,.finish 12,.start .importSpec 15,.name ⟨13,14⟩,
        .leaf .importString ⟨15,18⟩,.finish 18,.finish 19,.finish 19]
    ∃ root, ((Builder.ofSource source).run calls).1.root = .ok root ∧
      (File.outline (File.ofRoot root)).answer =
        [⟨.importSpec,"é",⟨8,12⟩⟩,⟨.importSpec,"y",⟨15,18⟩⟩] ∧
      ∀ item ∈ (File.outline (File.ofRoot root)).answer, Traced source root item := by
  intro source calls
  have found : ((Builder.ofSource source).run calls).1.root.map
      (fun root => listed (View.compute root)) =
      .ok [⟨.importSpec,"é",⟨8,12⟩⟩,⟨.importSpec,"y",⟨15,18⟩⟩] := by decide +kernel
  cases built : ((Builder.ofSource source).run calls).1.root with
  | error e =>
    rw [built] at found
    contradiction
  | ok root =>
    rw [built] at found
    have outlined := ofSorted (Except.ok.inj found) (by decide)
    exact ⟨root,rfl,(File.outlineOfRoot root).trans outlined,showsSource built⟩

end Outline
end DeclViews
