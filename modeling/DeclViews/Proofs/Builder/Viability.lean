import DeclViews.Proofs.Builder.Listing
import DeclViews.Proofs.Builder.Replay

/-! Which builders can still be finished. A node that begins in front of the open node it is attached
to, an inner node that is opened in front of an outer one, and a second root are all taken without a
complaint and come out later, when an open node cannot be closed or the builder ends with several
roots. A builder is viable when none of this has happened. No call makes a builder viable that was
not; from a viable one it is enough to close the open nodes, each at the end of the source. -/
namespace DeclViews.Builder
open DeclViews.Span (Boundary Cuts)

variable {source : String} {b c : Builder} {frame : Frame} {outer : List Frame}

structure Viable (b : Builder) : Prop where
  children : ∀ frame ∈ b.frames, ∀ child ∈ frame.children, frame.start ≤ child.span.start
  nested : b.frames.Pairwise fun inner outer => outer.start ≤ inner.start
  opened : b.frames ≠ [] → b.roots = []
  closed : b.frames = [] → b.roots.length ≤ 1

instance : Decidable b.Viable :=
  decidable_of_iff ((∀ frame ∈ b.frames, ∀ child ∈ frame.children, frame.start ≤ child.span.start) ∧
      (b.frames.Pairwise fun inner outer => outer.start ≤ inner.start) ∧
      (b.frames ≠ [] → b.roots = []) ∧ (b.frames = [] → b.roots.length ≤ 1))
    ⟨fun ⟨children,nested,opened,closed⟩ => ⟨children,nested,opened,closed⟩,
      fun ⟨children,nested,opened,closed⟩ => ⟨children,nested,opened,closed⟩⟩

theorem Viable.same (viable : b.Viable) (frames : c.frames = b.frames) (roots : c.roots = b.roots) :
    c.Viable := by
  obtain ⟨children,nested,opened,closed⟩ := viable
  rw [← frames,← roots] at *
  exact ⟨children,nested,opened,closed⟩

theorem viableClosed (closed : b.frames = []) : b.Viable ↔ b.roots.length ≤ 1 := by
  refine ⟨fun viable => viable.closed closed,fun few => ?_⟩
  refine ⟨?_,?_,fun opened => absurd closed opened,fun _ => few⟩
  · rw [closed]
    exact List.forall_mem_nil _
  · rw [closed]
    exact .nil

theorem viableOpened (opened : b.frames = frame :: outer) : b.Viable ↔
    (∀ child ∈ frame.children, frame.start ≤ child.span.start) ∧
      (∀ around ∈ outer.head?, around.start ≤ frame.start) ∧
      { b with frames := outer }.Viable ∧ b.roots = [] := by
  constructor
  · rintro ⟨children,nested,single,-⟩
    have none := single (by rw [opened]; exact List.cons_ne_nil _ _)
    rw [opened] at children nested
    obtain ⟨own,others⟩ := List.forall_mem_cons.mp children
    obtain ⟨inside,later⟩ := List.pairwise_cons.mp nested
    exact ⟨own,fun around first => inside around (List.mem_of_mem_head? first),
      ⟨others,later,fun _ => none,fun _ => by rw [none]; exact Nat.zero_le 1⟩,none⟩
  · rintro ⟨own,next,⟨others,later,-,-⟩,none⟩
    refine ⟨?_,?_,fun _ => none,fun closed => ?_⟩
    · rw [opened]
      exact List.forall_mem_cons.mpr ⟨own,others⟩
    · rw [opened]
      refine List.pairwise_cons.mpr ⟨?_,later⟩
      cases outer with
      | nil => exact List.forall_mem_nil _
      | cons around rest =>
        have below : around.start ≤ frame.start := next around rfl
        refine List.forall_mem_cons.mpr ⟨below,fun further member => ?_⟩
        exact Nat.le_trans ((List.pairwise_cons.mp later).1 further member) below
    · rw [opened] at closed
      contradiction

theorem viableAttach {node : Node} : (b.attach node).Viable ↔ b.Viable ∧
    (∀ around ∈ b.frames.head?, around.start ≤ node.span.start) ∧ b.roots = [] := by
  unfold attach
  cases opened : b.frames with
  | nil =>
    rw [viableClosed rfl,viableClosed opened,List.length_cons]
    constructor
    · intro few
      have none : b.roots = [] := List.length_eq_zero_iff.mp (by omega)
      exact ⟨by rw [none]; exact Nat.zero_le 1,nofun,none⟩
    · rintro ⟨-,-,none⟩
      rw [none]
      exact Nat.le_refl 1
  | cons frame outer =>
    rw [viableOpened rfl,viableOpened opened]
    simp only [List.forall_mem_cons,List.head?_cons,Option.mem_some,forall_eq']
    constructor
    · rintro ⟨⟨first,children⟩,next,around,none⟩
      exact ⟨⟨children,next,around,none⟩,first,none⟩
    · rintro ⟨⟨children,next,around,none⟩,first,-⟩
      exact ⟨⟨first,children⟩,next,around,none⟩

/- What is wrong with a builder stays wrong: no call takes a child, an open node or a root away
without leaving another trace of it. -/
theorem effectViable {call : Call} {result : Result} (effect : Effect b call c result)
    (viable : c.Viable) : b.Viable := by
  cases effect with
  | start cut =>
    obtain ⟨-,-,before,-⟩ := (viableOpened rfl).mp viable
    exact before
  | name cut interned opened =>
    obtain ⟨children,next,around,none⟩ := (viableOpened rfl).mp viable
    exact (viableOpened opened).mpr ⟨children,next,around.same rfl rfl,none⟩
  | leaf | namedLeaf =>
    obtain ⟨before,-,-⟩ := viableAttach.mp viable
    exact before.same rfl rfl
  | finish opened cut inside =>
    obtain ⟨around,next,none⟩ := viableAttach.mp viable
    exact (viableOpened opened).mpr
      ⟨fun child member => (inside child member).1,next,around.same rfl rfl,none⟩
  | unplaced => exact viable.same rfl rfl
  | refused => exact viable

theorem runViable (calls : List Call) (viable : (b.run calls).1.Viable) : b.Viable := by
  induction calls generalizing b with
  | nil => exact viable
  | cons call rest ih => exact effectViable (b.performEffect call) (ih viable)

theorem rootViable {root : Node} (built : b.root = .ok root) : b.Viable := by
  obtain ⟨closed,single⟩ := rootOk.mp built
  rw [viableClosed closed,single]
  exact Nat.le_refl 1

structure Grounded (source : String) (b : Builder) : Prop where
  sound : Sound source b
  starts : ∀ frame ∈ b.frames, Boundary source frame.start

theorem startsAttach {node : Node} (starts : ∀ frame ∈ b.frames, Boundary source frame.start) :
    ∀ frame ∈ (b.attach node).frames, Boundary source frame.start := by
  unfold attach
  cases opened : b.frames with
  | nil => exact List.forall_mem_nil _
  | cons frame outer =>
    rw [opened] at starts
    exact List.forall_mem_cons.mpr (List.forall_mem_cons.mp starts)

theorem effectGrounded {call : Call} {result : Result} (effect : Effect b call c result)
    (grounded : Grounded source b) : Grounded source c := by
  have sound := effectSound effect grounded.sound
  have starts := grounded.starts
  refine ⟨sound,?_⟩
  cases effect with
  | start cut =>
    have same := grounded.sound.sameSource
    exact List.forall_mem_cons.mpr ⟨same ▸ cut.startBoundary,starts⟩
  | name cut interned opened =>
    rw [opened] at starts
    exact List.forall_mem_cons.mpr (List.forall_mem_cons.mp starts)
  | leaf | namedLeaf => exact startsAttach starts
  | finish opened =>
    rw [opened] at starts
    exact startsAttach (List.forall_mem_cons.mp starts).2
  | unplaced | refused => exact starts

theorem runGrounded (source : String) (calls : List Call) :
    Grounded source ((ofSource source).run calls).1 :=
  runKeeps effectGrounded ⟨soundOfSource source,List.forall_mem_nil _⟩ calls

theorem cutsToEnd {offset : Nat} (boundary : Boundary source offset) :
    ∃ text, Cuts source ⟨offset,source.utf8ByteSize⟩ text := by
  obtain ⟨before,after,same,size⟩ := Span.boundaryIff.mp boundary
  refine ⟨after,Span.sliceCuts.mp ?_⟩
  have parts := @Span.sliceOfParts ⟨offset,source.utf8ByteSize⟩ before after "" size (by rw [← same])
  rwa [String.append_empty,← same] at parts

theorem closesOne (grounded : Grounded source b) (viable : b.Viable)
    (opened : b.frames = frame :: outer) :
    ∃ c, Runs b [.finish source.utf8ByteSize] c ∧ c.depth = outer.length ∧ Grounded source c ∧
      c.Viable ∧ (outer = [] → ∃ root, c.root = .ok root) := by
  obtain ⟨children,next,around,none⟩ := (viableOpened opened).mp viable
  have same := grounded.sound.sameSource
  have start : Boundary source frame.start := by
    apply grounded.starts
    rw [opened]
    exact List.mem_cons_self
  have inside : ∀ child ∈ frame.children,
      Span.Contains ⟨frame.start,source.utf8ByteSize⟩ child.span := by
    intro child member
    have faithful := (grounded.sound.innermost opened).1.children child member
    exact ⟨children child member,(faithful child (.self child)).text.inBounds⟩
  have admits : b.Admits (.finish source.utf8ByteSize) :=
    ⟨frame,outer,opened,by rw [same]; exact cutsToEnd start,inside⟩
  obtain ⟨c,runs,effect⟩ := accepted admits
  have still := effectGrounded effect grounded
  cases effect with
  | finish again =>
    cases opened.symm.trans again
    refine ⟨_,runs,depthAttach _ _,still,viableAttach.mpr ⟨around.same rfl rfl,next,none⟩,?_⟩
    intro last
    subst last
    exact ⟨_,rootOk.mpr ⟨rfl,by rw [attach,none]⟩⟩

theorem closesAll (grounded : Grounded source b) (viable : b.Viable) (opened : b.frames ≠ []) :
    ∃ c root, Runs b (List.replicate b.depth (.finish source.utf8ByteSize)) c ∧ c.root = .ok root := by
  induction depth : b.depth generalizing b with
  | zero => exact absurd (List.length_eq_zero_iff.mp depth) opened
  | succ further ih =>
    obtain ⟨frame,outer,split⟩ := List.exists_cons_of_ne_nil opened
    obtain ⟨c,runs,left,still,kept,last⟩ := closesOne grounded viable split
    have fewer : outer.length = further := by
      rw [Builder.depth,split,List.length_cons] at depth
      exact Nat.succ.inj depth
    rw [List.replicate_succ]
    by_cases none : outer = []
    · obtain ⟨root,built⟩ := last none
      rw [← fewer,none]
      exact ⟨c,root,runs,built⟩
    · have more : c.frames ≠ [] := by
        intro closed
        rw [Builder.depth,closed] at left
        exact none (List.length_eq_zero_iff.mp left.symm)
      obtain ⟨d,root,rest,built⟩ := ih still kept more (left.trans fewer)
      exact ⟨d,root,runs.append rest,built⟩

theorem viableFinishes (grounded : Grounded source b) (viable : b.Viable) :
    ∃ calls root, (b.run calls).1.root = .ok root := by
  by_cases closed : b.frames = []
  · match roots : b.roots with
    | [] =>
      have start : Boundary b.source 0 :=
        Span.boundaryIff.mpr ⟨"",b.source,String.empty_append.symm,rfl⟩
      have admits : b.Admits (.leaf .other ⟨0,0⟩) := by
        obtain ⟨text,cut⟩ := cutsToEnd start
        exact ⟨"",cut.atStart⟩
      obtain ⟨c,runs,effect⟩ := accepted admits
      cases effect with
      | @leaf _ _ text atom key =>
        refine ⟨[.leaf .other ⟨0,0⟩],⟨key,.other,⟨0,0⟩,atom,none,[]⟩,?_⟩
        rw [runs]
        exact rootOk.mpr (by simp only [attach,closed,roots,and_self])
    | [root] => exact ⟨[],root,rootOk.mpr ⟨closed,roots⟩⟩
    | first :: second :: rest =>
      have few := viable.closed closed
      rw [roots] at few
      contradiction
  · obtain ⟨c,root,runs,built⟩ := closesAll grounded viable closed
    exact ⟨_,root,by rw [runs]; exact built⟩

theorem finishableIff (source : String) (before : List Call) :
    let b := ((ofSource source).run before).1
    let closing := List.replicate b.depth (Call.finish source.utf8ByteSize)
    ((∃ calls root, (b.run calls).1.root = .ok root) ↔ b.Viable) ∧
      (b.Viable → b.frames ≠ [] → (b.run closing).2 = List.replicate b.depth (.ok ()) ∧
        ∃ root, (b.run closing).1.root = .ok root) ∧
      (¬ b.Viable → ∀ calls, ¬ (b.run calls).1.Viable ∧ ∀ root, (b.run calls).1.root ≠ .ok root) := by
  intro b closing
  have grounded : Grounded source b := runGrounded source before
  refine ⟨⟨?_,viableFinishes grounded⟩,?_,?_⟩
  · rintro ⟨calls,root,built⟩
    exact runViable calls (rootViable built)
  · intro viable opened
    obtain ⟨c,root,runs,built⟩ := closesAll grounded viable opened
    rw [runs,List.length_replicate]
    exact ⟨rfl,root,built⟩
  · intro doomed calls
    have still : ¬ (b.run calls).1.Viable := fun viable => doomed (runViable calls viable)
    exact ⟨still,fun root built => still (rootViable built)⟩

example :
    let (b,results) := (ofSource "ab").run [.start .file 1,.leaf .other ⟨0,1⟩,.start .other 2]
    results.all Except.isOk ∧ ¬ b.Viable := by
  decide +kernel

end DeclViews.Builder
