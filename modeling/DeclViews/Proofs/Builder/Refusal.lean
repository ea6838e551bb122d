import DeclViews.Proofs.Builder.Call
import DeclViews.Proofs.Builder.Naming
import DeclViews.Proofs.Builder.Replay

/-! Refused calls leave nothing behind that is ever seen. A builder that was given all the calls and
one that was given the accepted calls alone are alike: they have the same open nodes and the same
roots, but for their allocations and for texts that a refused name has left in the table. Builders
that are alike admit the same calls and stay alike, and what they finish with has the same shape and
shares its names in the same way. -/
namespace DeclViews

def Frame.shape (frame : Frame) : Kind × Nat × Option (String × Span) × List Shape :=
  (frame.kind,frame.start,frame.name.map Token.seen,frame.children.map Node.shape)

namespace Builder

variable {b c d e : Builder} {call : Call}

structure Alike (b c : Builder) : Prop where
  source : b.source = c.source
  frames : b.frames.map Frame.shape = c.frames.map Frame.shape
  roots : b.roots.map Node.shape = c.roots.map Node.shape

theorem Alike.depth (alike : Alike b c) : b.depth = c.depth := by
  simpa [Builder.depth] using congrArg List.length alike.frames

theorem Alike.closed (alike : Alike b c) : b.frames = [] ↔ c.frames = [] := by
  rw [← List.map_eq_nil_iff,alike.frames,List.map_eq_nil_iff]

theorem Alike.opened (alike : Alike b c) {frame : Frame} {outer : List Frame}
    (innermost : b.frames = frame :: outer) :
    ∃ other others, c.frames = other :: others ∧ frame.shape = other.shape ∧
      outer.map Frame.shape = others.map Frame.shape := by
  have frames := alike.frames
  rw [innermost,List.map_cons] at frames
  obtain ⟨other,others,found,same,rest⟩ := List.map_eq_cons_iff.mp frames.symm
  exact ⟨other,others,found,same.symm,rest.symm⟩

theorem Alike.admits (alike : Alike b c) (admitted : b.Admits call) : c.Admits call := by
  cases call with
  | start kind offset => simpa only [Admits,alike.source] using admitted
  | leaf kind span => simpa only [Admits,alike.source] using admitted
  | namedLeaf kind span => simpa only [Admits,alike.source] using admitted
  | name span =>
    obtain ⟨cut,opened⟩ := admitted
    rw [alike.source] at cut
    exact ⟨cut,fun closed => opened (alike.closed.mpr closed)⟩
  | finish offset =>
    obtain ⟨frame,outer,innermost,cut,inside⟩ := admitted
    obtain ⟨other,others,found,same,-⟩ := alike.opened innermost
    simp only [Frame.shape,Prod.mk.injEq] at same
    obtain ⟨-,start,-,children⟩ := same
    rw [alike.source,start] at cut
    refine ⟨other,others,found,cut,fun child member => ?_⟩
    have listed : child.span ∈ frame.children.map Node.span := by
      rw [sameSpans children]
      exact List.mem_map_of_mem member
    obtain ⟨twin,member,span⟩ := List.mem_map.mp listed
    rw [← start,← span]
    exact inside twin member

theorem Alike.attach (alike : Alike b c) {x y : Node} (same : x.shape = y.shape) :
    Alike (b.attach x) (c.attach y) := by
  refine ⟨by rw [attachSource,attachSource,alike.source],?_,?_⟩
  · unfold Builder.attach
    cases opened : b.frames with
    | nil => rw [alike.closed.mp opened]
    | cons frame outer =>
      obtain ⟨other,others,found,shape,rest⟩ := alike.opened opened
      rw [found]
      simp only [Frame.shape,Prod.mk.injEq] at shape
      simp [Frame.shape,shape,same,rest]
  · unfold Builder.attach
    cases opened : b.frames with
    | nil =>
      rw [alike.closed.mp opened]
      simp [same,alike.roots]
    | cons frame outer =>
      obtain ⟨other,others,found,-,-⟩ := alike.opened opened
      rw [found]
      exact alike.roots

theorem Alike.performed (alike : Alike b c) (left : Effect b call d (.ok ()))
    (right : Effect c call e (.ok ())) : Alike d e := by
  cases left with
  | start cut =>
    cases right with
    | start again => exact ⟨alike.source,by simp [Frame.shape,alike.frames],alike.roots⟩
  | @name span text atom names supply frame outer cut interned innermost =>
    cases right with
    | @name _ text' atom' _ _ other others again internedToo innermostToo =>
      obtain ⟨twin,rest,found,shape,same⟩ := alike.opened innermost
      cases found.symm.trans innermostToo
      have texts : atom.value = atom'.value := by
        rw [internedText interned,internedText internedToo]
        exact cut.unique (alike.source ▸ again)
      simp only [Frame.shape,Prod.mk.injEq] at shape
      refine ⟨alike.source,?_,alike.roots⟩
      simp [Frame.shape,shape,same,Token.seen,Token.text,texts]
  | @leaf kind span text atom key supply cut copied grown =>
    cases right with
    | @leaf _ _ text' atom' key' supply' again copiedToo grownToo =>
      have base : Alike { b with supply } { c with supply := supply' } :=
        ⟨alike.source,alike.frames,alike.roots⟩
      refine base.attach (Node.sameShape.mpr ?_)
      simp [Node.nameShape,copied,copiedToo,cut.unique (alike.source ▸ again)]
  | @namedLeaf kind span text atom key names supply later cut interned grown =>
    cases right with
    | @namedLeaf _ _ text' atom' key' names' supply' later' again internedToo grownToo =>
      have base : Alike { b with names, supply := later } { c with names := names', supply := later' } :=
        ⟨alike.source,alike.frames,alike.roots⟩
      refine base.attach (Node.sameShape.mpr ?_)
      simp [Node.nameShape,Token.text,internedText interned,internedText internedToo,
        cut.unique (alike.source ▸ again)]
  | @finish offset text atom key supply frame outer innermost cut inside copied grown =>
    cases right with
    | @finish _ text' atom' key' supply' other others innermostToo again insideToo copiedToo grownToo =>
      obtain ⟨twin,rest,found,shape,same⟩ := alike.opened innermost
      cases found.symm.trans innermostToo
      simp only [Frame.shape,Prod.mk.injEq] at shape
      obtain ⟨kind,start,name,children⟩ := shape
      have base : Alike { b with supply, frames := outer } { c with supply := supply', frames := others } :=
        ⟨alike.source,same,alike.roots⟩
      rw [← start,← alike.source] at again
      refine base.attach (Node.sameShape.mpr ?_)
      have named : frame.name.map (fun t => (t.text,t.span)) = other.name.map fun t => (t.text,t.span) :=
        name
      simp [Node.nameShape,kind,start,named,children,copied,copiedToo,cut.unique again]

theorem Alike.run (alike : Alike b c) (calls : List Call) :
    ∃ d, Runs c (b.kept calls) d ∧ Alike (b.run calls).1 d ∧
      (c.log (b.kept calls)).map Record.depth = (acceptedOf (b.log calls)).map Record.depth := by
  induction calls generalizing b c with
  | nil => exact ⟨c,rfl,alike,rfl⟩
  | cons call rest ih =>
    have effect := b.performEffect call
    have run : (b.run (call :: rest)).1 = ((b.perform call).1.run rest).1 := rfl
    rw [run,kept]
    cases performed : b.perform call with
    | mk after result =>
      rw [performed] at effect
      cases result with
      | error e =>
        obtain ⟨source,frames,roots⟩ := effect.unchanged
        have still : Alike after c := ⟨source.trans alike.source,by rw [frames,alike.frames],
          by rw [roots,alike.roots]⟩
        rw [logRefused performed]
        exact ih still
      | ok =>
        obtain ⟨next,ran,effectToo⟩ := accepted (alike.admits effect.admits)
        have both : Alike after next := alike.performed effect effectToo
        obtain ⟨d,runs,last,depths⟩ := ih both
        have performedToo : c.perform call = (next,.ok ()) := by
          simpa [Runs,Builder.run,Prod.ext_iff] using ran
        rw [logAccepted performed]
        refine ⟨d,ran.append runs,last,?_⟩
        rw [List.map_cons,List.map_cons,log,performedToo,List.map_cons,List.cons.injEq]
        exact ⟨both.depth.symm,depths⟩

inductive SameEnd : Except BuildError Node → Except BuildError Node → Prop where
  | error (e : BuildError) : SameEnd (.error e) (.error e)
  | ok {x y : Node}
      (shape : x.shape = y.shape)
      (names : SharedAlike x.names y.names) : SameEnd (.ok x) (.ok y)

theorem Alike.ends (alike : Alike b c) (left : Named b) (right : Named c) : SameEnd b.root c.root := by
  have depth := alike.depth
  have count : b.roots.length = c.roots.length := by simpa using congrArg List.length alike.roots
  have shared {x : Node} (built : b.root = .ok x) := left.shared built
  have sharedToo {y : Node} (built : c.root = .ok y) := right.shared built
  have ends := b.ending
  have endsToo := c.ending
  generalize b.root = finish at shared ends ⊢
  generalize c.root = finishToo at sharedToo endsToo ⊢
  cases ends with
  | unclosed opened =>
    cases endsToo with
    | unclosed =>
      rw [depth]
      exact .error _
    | noRoot closed | single closed | several closed => omega
  | noRoot closed none =>
    rw [none,List.length_nil] at count
    cases endsToo with
    | noRoot => exact .error _
    | unclosed opened => omega
    | single _ one => rw [one] at count; contradiction
    | several _ many => omega
  | @single x closed one =>
    cases endsToo with
    | @single y _ oneToo =>
      have same := alike.roots
      rw [one,oneToo] at same
      have shape : x.shape = y.shape := List.singleton_inj.mp same
      exact .ok shape (sharedAlikeOfTexts (Node.namesOfShape x y shape) (shared rfl) (sharedToo rfl))
    | unclosed opened => omega
    | noRoot _ none => rw [one,none] at count; contradiction
    | several _ many => rw [one,List.length_singleton] at count; omega
  | several closed many =>
    cases endsToo with
    | several =>
      rw [count]
      exact .error _
    | unclosed opened => omega
    | noRoot _ none => rw [none,List.length_nil] at count; omega
    | single _ one => rw [one,List.length_singleton] at count; omega

theorem refusalsUnseen (source : String) (calls : List Call) :
    let b := ofSource source
    (b.run (b.kept calls)).2 = List.replicate (b.kept calls).length (.ok ()) ∧
      (b.log (b.kept calls)).map Record.depth = (acceptedOf (b.log calls)).map Record.depth ∧
      SameEnd (b.run calls).1.root (b.run (b.kept calls)).1.root ∧
      ∀ before call later error, calls = before ++ call :: later →
        ((b.run before).1.perform call).2 = .error error →
          ((b.run before).1.perform call).1.frames = (b.run before).1.frames ∧
            ((b.run before).1.perform call).1.roots = (b.run before).1.roots := by
  intro b
  have begun : Alike b b := ⟨rfl,rfl,rfl⟩
  obtain ⟨d,runs,alike,depths⟩ := begun.run calls
  have ran : b.run (b.kept calls) = (d,List.replicate (b.kept calls).length (.ok ())) := runs
  have left : Named (b.run calls).1 := runNamed source calls
  have right : Named (b.run (b.kept calls)).1 := runNamed source (b.kept calls)
  refine ⟨by rw [ran],depths,?_,?_⟩
  · rw [ran] at right ⊢
    exact alike.ends left right
  · intro before call later error _ refused
    have effect := (b.run before).1.performEffect call
    rw [refused] at effect
    exact effect.unchanged.2

end Builder
end DeclViews
