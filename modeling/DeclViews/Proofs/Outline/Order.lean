import DeclViews.Proofs.Builder.Soundness
import DeclViews.Proofs.File.Coherence
import DeclViews.Proofs.Node.Faithful
import DeclViews.Proofs.Outline.Row
import DeclViews.Proofs.View.Occurrence

/-! Trees that are built from left to right. A builder does not ask for an order among siblings;
where each node that is attached under another begins behind its last sibling, the finished tree is
in line. What is required is local, one sibling against the next, and since no node ends before it
begins, it carries over to siblings further apart. Every view of such a tree lists its nodes in the
order in which they begin, and the outline, which is sorted by that, shows the rows of each view in
the order of the view. -/
namespace DeclViews

structure Frame.Ordered (frame : Frame) : Prop where
  siblings : frame.children.Pairwise fun newer older => older.Follows newer
  children : ∀ child ∈ frame.children, child.InLine

namespace Builder

variable {source : String} {b c : Builder}

/- The node that was attached last under the innermost open node begins where its last sibling ends,
or later. A node is attached under the node that is innermost after the call. -/
def InTurn (b : Builder) : Prop :=
  ∀ frame ∈ b.frames.head?, (frame.children.take 2).Pairwise fun newer older => older.Follows newer
instance (b : Builder) : Decidable b.InTurn := by
  unfold InTurn; infer_instance

def LeftToRight (b : Builder) : List Call → Prop
  | [] => True
  | call :: rest => (b.perform call).1.InTurn ∧ (b.perform call).1.LeftToRight rest

instance decideLeftToRight (b : Builder) : (calls : List Call) → Decidable (b.LeftToRight calls)
  | [] => inferInstanceAs (Decidable True)
  | call :: rest =>
    have := decideLeftToRight (b.perform call).1 rest
    inferInstanceAs (Decidable ((b.perform call).1.InTurn ∧ (b.perform call).1.LeftToRight rest))

structure Ordered (b : Builder) : Prop where
  frames : ∀ frame ∈ b.frames, frame.Ordered
  roots : ∀ root ∈ b.roots, root.InLine

theorem orderedOfSource (source : String) : Ordered (ofSource source) :=
  ⟨List.forall_mem_nil _,List.forall_mem_nil _⟩

theorem Ordered.innermost {frame : Frame} {outer : List Frame} (ordered : Ordered b)
    (opened : b.frames = frame :: outer) : frame.Ordered ∧ ∀ frame ∈ outer, frame.Ordered := by
  have frames := ordered.frames
  rw [opened] at frames
  exact List.forall_mem_cons.mp frames

theorem inTurnAttach {frame : Frame} {outer : List Frame} {node sibling : Node}
    (opened : b.frames = frame :: outer) (turn : (b.attach node).InTurn)
    (last : frame.children.head? = some sibling) : sibling.Follows node := by
  unfold attach at turn
  rw [opened] at turn
  obtain ⟨older,children⟩ := List.head?_eq_some_iff.mp last
  have line := turn _ rfl
  simp only [children,List.take_succ_cons,List.take_zero,List.pairwise_cons] at line
  exact line.1 sibling (List.mem_singleton_self _)

theorem Ordered.attach {node : Node} (ordered : Ordered b) (sound : Sound source b)
    (inLine : node.InLine) (turn : (b.attach node).InTurn) : Ordered (b.attach node) := by
  have behind {frame outer} (opened : b.frames = frame :: outer) :
      ∀ older ∈ frame.children, older.Follows node := by
    obtain ⟨siblings,-⟩ := (ordered.innermost opened).1
    have faithful := (sound.innermost opened).1.children
    have next {sibling : Node} := @inTurnAttach _ _ _ node sibling opened turn
    cases given : frame.children with
    | nil => exact List.forall_mem_nil _
    | cons sibling others =>
      rw [given] at siblings faithful next
      have last : sibling.Follows node := next rfl
      have extent := (faithful sibling List.mem_cons_self sibling (.self sibling)).text.ordered
      refine List.forall_mem_cons.mpr ⟨last,fun older member => ?_⟩
      have before : older.Follows sibling := (List.pairwise_cons.mp siblings).1 older member
      exact Nat.le_trans before (Nat.le_trans extent last)
  unfold Builder.attach
  cases opened : b.frames with
  | nil => exact ⟨List.forall_mem_nil _,List.forall_mem_cons.mpr ⟨inLine,ordered.roots⟩⟩
  | cons frame outer =>
    obtain ⟨inner,rest⟩ := ordered.innermost opened
    have grown : Frame.Ordered { frame with children := node :: frame.children } :=
      ⟨List.pairwise_cons.mpr ⟨behind opened,inner.siblings⟩,
        List.forall_mem_cons.mpr ⟨inLine,inner.children⟩⟩
    exact ⟨List.forall_mem_cons.mpr ⟨grown,rest⟩,ordered.roots⟩

theorem effectOrdered {call : Call} {result : Result} (effect : Effect b call c result)
    (sound : Sound source b) (ordered : Ordered b) (turn : c.InTurn) : Ordered c := by
  cases effect with
  | @start kind offset text cut =>
    have fresh : Frame.Ordered ⟨kind,offset,none,[]⟩ := ⟨.nil,List.forall_mem_nil _⟩
    exact ⟨List.forall_mem_cons.mpr ⟨fresh,ordered.frames⟩,ordered.roots⟩
  | name cut interned opened =>
    obtain ⟨inner,rest⟩ := ordered.innermost opened
    exact ⟨List.forall_mem_cons.mpr ⟨⟨inner.siblings,inner.children⟩,rest⟩,ordered.roots⟩
  | leaf | namedLeaf =>
    refine @Ordered.attach source _ _ ⟨ordered.frames,ordered.roots⟩
      ⟨sound.sameSource,sound.frames,sound.roots⟩ ?_ turn
    exact .of .nil (List.forall_mem_nil _)
  | finish opened cut inside copied =>
    obtain ⟨inner,rest⟩ := ordered.innermost opened
    refine @Ordered.attach source _ _ ⟨rest,ordered.roots⟩
      ⟨sound.sameSource,(sound.innermost opened).2,sound.roots⟩ (.of ?_ ?_) turn
    · exact List.pairwise_reverse.mpr inner.siblings
    · exact fun child member => inner.children child (List.mem_reverse.mp member)
  | unplaced => exact ⟨ordered.frames,ordered.roots⟩
  | refused => exact ordered

theorem runOrdered {calls : List Call} (sound : Sound source b) (ordered : Ordered b)
    (turns : b.LeftToRight calls) : Ordered (b.run calls).1 := by
  induction calls generalizing b with
  | nil => exact ordered
  | cons call rest ih =>
    have effect := b.performEffect call
    exact ih (effectSound effect sound) (effectOrdered effect sound ordered turns.1) turns.2

theorem builtInLine {calls : List Call} {root : Node}
    (built : ((ofSource source).run calls).1.root = .ok root)
    (turns : (ofSource source).LeftToRight calls) : root.InLine := by
  have ordered := runOrdered (soundOfSource source) (orderedOfSource source) turns
  apply ordered.roots
  rw [(rootOk.mp built).2]
  exact List.mem_singleton_self root

end Builder

namespace Outline
open DeclViews.Node (Faithful)

variable {source : String} {root : Node}

theorem listedRise (faithful : Faithful source root) (inLine : root.InLine) (v : View) :
    (v.nodes (v.compute root)).Pairwise fun a b => a.span.start ≤ b.span.start := by
  refine (View.listedInLine faithful inLine v).imp_of_mem fun listed _ follows => ?_
  have extent := (faithful _ (View.listedWithin listed)).text.ordered
  exact Nat.le_trans extent follows

theorem rowsRise {v : View} (faithful : Faithful source root) (inLine : root.InLine) :
    (rows (View.compute root) v).Pairwise fun a b => a.span.start ≤ b.span.start := by
  refine (listedRise faithful inLine v).filterMap (row? v) fun a b below x left y right => ?_
  rw [(rowIs left).2,(rowIs right).2]
  exact below

theorem rowsInSourceOrder {calls : List Builder.Call}
    (built : ((Builder.ofSource source).run calls).1.root = .ok root)
    (turns : (Builder.ofSource source).LeftToRight calls) (v : View) :
    ((v.nodes (v.compute root)).map (·.span.start)).Pairwise (· ≤ ·) ∧
      (File.outline (File.ofRoot root)).answer.filter (·.category == v.category) =
        (v.nodes (v.compute root)).filterMap (row? v) := by
  have faithful := Builder.builtFaithful built
  have inLine := Builder.builtInLine built turns
  refine ⟨List.pairwise_map.mpr (listedRise faithful inLine v),?_⟩
  have ordered := rowsRise (v := v) faithful inLine
  rw [← rowsOfCategory] at ordered
  rw [File.outlineOfRoot,sortKeeps ordered,rowsOfCategory]
  rfl

theorem salvagedGroupsRise :
    let source := "var a,b\nfunc f()\nvar c"
    let calls : List Builder.Call :=
      [.start .file 0,.start .placeholder 0,.start .varDecl 0,.start .varSpec 4,
        .namedLeaf .varDefinition ⟨4,5⟩,.namedLeaf .varDefinition ⟨6,7⟩,.finish 7,.finish 7,.finish 7,
        .start .functionDecl 8,.name ⟨13,14⟩,.finish 16,.start .placeholder 16,.start .placeholder 17,
        .start .varDecl 17,.start .varSpec 21,.namedLeaf .varDefinition ⟨21,22⟩,
        .finish 22,.finish 22,.finish 22,.finish 22,.finish 22]
    (Builder.ofSource source).LeftToRight calls ∧
      ∃ root, ((Builder.ofSource source).run calls).1.root = .ok root ∧
        (View.vars.nodes (View.vars.compute root)).map (·.span) = [⟨4,5⟩,⟨6,7⟩,⟨21,22⟩] ∧
        ∀ v : View, ((v.nodes (v.compute root)).map (·.span.start)).Pairwise (· ≤ ·) ∧
          (File.outline (File.ofRoot root)).answer.filter (·.category == v.category) =
            (v.nodes (v.compute root)).filterMap (row? v) := by
  intro source calls
  have turns : (Builder.ofSource source).LeftToRight calls := by decide +kernel
  have found : ((Builder.ofSource source).run calls).1.root.map
      (fun root => (View.vars.nodes (View.vars.compute root)).map (·.span)) =
      .ok [⟨4,5⟩,⟨6,7⟩,⟨21,22⟩] := by decide +kernel
  cases built : ((Builder.ofSource source).run calls).1.root with
  | error e =>
    rw [built] at found
    contradiction
  | ok root =>
    rw [built] at found
    exact ⟨turns,root,rfl,Except.ok.inj found,fun v => rowsInSourceOrder built turns v⟩

end Outline
end DeclViews
