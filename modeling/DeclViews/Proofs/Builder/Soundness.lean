import DeclViews.Proofs.Builder.Call

/-! Finished trees agree with their source. An open node promises its name and its children, each
child faithful by itself: whether the children lie inside it is not known before it is closed. The
roots are faithful as they stand. Accepted and refused calls keep these promises alike. -/
namespace DeclViews
open DeclViews.Node (Faithful)

structure Frame.Sound (source : String) (frame : Frame) : Prop where
  name : ∀ token ∈ frame.name, token.span.Cuts source token.text
  children : ∀ child ∈ frame.children, Faithful source child

namespace Builder

structure Sound (source : String) (b : Builder) : Prop where
  sameSource : b.source = source
  frames : ∀ frame ∈ b.frames, frame.Sound source
  roots : ∀ root ∈ b.roots, Faithful source root

variable {source : String} {b c : Builder}

theorem soundOfSource (source : String) : Sound source (ofSource source) :=
  ⟨rfl,List.forall_mem_nil _,List.forall_mem_nil _⟩

theorem Sound.innermost {frame : Frame} {outer : List Frame} (sound : Sound source b)
    (opened : b.frames = frame :: outer) :
    frame.Sound source ∧ ∀ frame ∈ outer, frame.Sound source := by
  have frames := sound.frames
  rw [opened] at frames
  exact List.forall_mem_cons.mp frames

theorem Sound.attach {node : Node} (sound : Sound source b) (faithful : Faithful source node) :
    Sound source (b.attach node) := by
  unfold Builder.attach
  cases opened : b.frames with
  | nil =>
    exact ⟨sound.sameSource,List.forall_mem_nil _,List.forall_mem_cons.mpr ⟨faithful,sound.roots⟩⟩
  | cons frame outer =>
    obtain ⟨inner,rest⟩ := sound.innermost opened
    have grown : Frame.Sound source { frame with children := node :: frame.children } :=
      ⟨inner.name,List.forall_mem_cons.mpr ⟨faithful,inner.children⟩⟩
    exact ⟨sound.sameSource,List.forall_mem_cons.mpr ⟨grown,rest⟩,sound.roots⟩

theorem effectSound {call : Call} {result : Result} (effect : Effect b call c result)
    (sound : Sound source b) : Sound source c := by
  cases sound.sameSource
  cases effect with
  | @start kind offset text cut =>
    have fresh : Frame.Sound b.source ⟨kind,offset,none,[]⟩ := ⟨nofun,List.forall_mem_nil _⟩
    exact ⟨rfl,List.forall_mem_cons.mpr ⟨fresh,sound.frames⟩,sound.roots⟩
  | name cut interned opened =>
    obtain ⟨inner,rest⟩ := sound.innermost opened
    cases internedText interned
    exact ⟨rfl,List.forall_mem_cons.mpr ⟨⟨cut.token,inner.children⟩,rest⟩,sound.roots⟩
  | leaf cut copied =>
    cases copied
    exact Sound.attach ⟨rfl,sound.frames,sound.roots⟩ (.leaf cut nofun)
  | namedLeaf cut interned =>
    cases internedText interned
    exact Sound.attach ⟨rfl,sound.frames,sound.roots⟩ (.leaf cut cut.token)
  | finish opened cut inside copied =>
    obtain ⟨inner,rest⟩ := sound.innermost opened
    cases copied
    refine Sound.attach ⟨rfl,rest,sound.roots⟩ (.of ⟨cut,inner.name,?_⟩ ?_)
    · exact fun child member => inside child (List.mem_reverse.mp member)
    · exact fun child member => inner.children child (List.mem_reverse.mp member)
  | unplaced => exact ⟨rfl,sound.frames,sound.roots⟩
  | refused => exact sound

theorem builtFaithful {calls : List Call} {root : Node}
    (built : ((ofSource source).run calls).1.root = .ok root) : Faithful source root := by
  have sound := runKeeps effectSound (soundOfSource source) calls
  apply sound.roots
  rw [(rootOk.mp built).2]
  exact List.mem_singleton_self root

theorem finishedTreeAgrees {calls : List Call} {root : Node}
    (built : ((ofSource source).run calls).1.root = .ok root) {n : Node} (within : root.Within n) :
    n.span.Cuts source n.text.value ∧ (∀ d, n.Within d → n.span.Contains d.span) ∧
      ∀ token ∈ n.name, token.span.Cuts source token.text := by
  have faithful := (builtFaithful built).within within
  have fits := faithful n (.self n)
  exact ⟨fits.text,fun d below => faithful.contains below,fits.name⟩

theorem mixedRunAgrees :
    let calls : List Call :=
      [.start .file 0,.namedLeaf .varDefinition ⟨0,1⟩,.namedLeaf .varDefinition ⟨0,2⟩,
        .start .placeholder 4,.leaf .other ⟨5,6⟩,.finish 5,.finish 6,.finish 6]
    let seen (n : Node) := (n.kind,n.span,n.text.value,n.nameText?)
    ∃ root, ((ofSource "é = x").run calls).1.root = .ok root ∧
      root.children.map seen =
        [(.varDefinition,⟨0,2⟩,"é",some "é"),(.placeholder,⟨4,6⟩," x",none)] ∧
      ∀ n, root.Within n →
        n.span.Cuts "é = x" n.text.value ∧ (∀ d, n.Within d → n.span.Contains d.span) ∧
          ∀ token ∈ n.name, token.span.Cuts "é = x" token.text := by
  intro calls seen
  have children : ((ofSource "é = x").run calls).1.root.toOption.map (·.children.map seen) =
      some [(.varDefinition,⟨0,2⟩,"é",some "é"),(.placeholder,⟨4,6⟩," x",none)] := by decide +kernel
  cases built : ((ofSource "é = x").run calls).1.root with
  | error e =>
    rw [built] at children
    contradiction
  | ok root =>
    rw [built] at children
    exact ⟨root,rfl,Option.some.inj children,fun n within => finishedTreeAgrees built within⟩

end Builder
end DeclViews
