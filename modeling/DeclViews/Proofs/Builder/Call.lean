import DeclViews.Builder
import DeclViews.Proofs.Node.Faithful

/-! What one call does to a builder. `Admits` is the condition under which a call is accepted, and
`Effect` lists all that can happen: an accepted call changes the innermost open node or hangs a new
one under it, and a refused call leaves the source, the open nodes and the roots alone. A name that
no open node takes is refused too, though its text is in the table from then on. The log of a
sequence of calls has the result of each call and the number of nodes that are open after it. -/
namespace DeclViews.Builder
open DeclViews.Span (Cuts)

theorem sliceOk {b : Builder} {span : Span} {text : String} :
    b.slice span = .ok text ↔ span.Cuts b.source text := by
  unfold slice
  constructor
  · intro read
    split at read
    · contradiction
    split at read
    · contradiction
    split at read
    · rename_i found
      cases Except.ok.inj read
      exact Span.sliceCuts.mp found
    · contradiction
  · intro cut
    rw [if_neg (Nat.not_lt.mpr cut.ordered),if_neg (Nat.not_lt.mpr cut.inBounds),
      Span.sliceCuts.mpr cut]

theorem sliceBarred {b : Builder} {span : Span} {error : BuildError}
    (h : b.slice span = .error error) : ¬ ∃ text, span.Cuts b.source text := by
  rintro ⟨text,cut⟩
  rw [sliceOk.mpr cut] at h
  contradiction

theorem strayNone {frame : Frame} {span : Span} :
    frame.stray? span = none ↔ ∀ child ∈ frame.children, span.Contains child.span := by
  simp only [Frame.stray?,List.find?_eq_none,List.mem_reverse,Bool.not_eq_true',
    decide_eq_false_iff_not,Decidable.not_not]

theorem straySome {frame : Frame} {span : Span} {child : Node}
    (h : frame.stray? span = some child) :
    ¬ ∀ child ∈ frame.children, span.Contains child.span := by
  rw [← strayNone,h]
  exact Option.some_ne_none child

def Admits (b : Builder) : Call → Prop
  | .start _ offset => ∃ text, Cuts b.source ⟨offset,offset⟩ text
  | .name span => (∃ text, span.Cuts b.source text) ∧ b.frames ≠ []
  | .leaf _ span | .namedLeaf _ span => ∃ text, span.Cuts b.source text
  | .finish offset => ∃ frame outer, b.frames = frame :: outer ∧
      (∃ text, Cuts b.source ⟨frame.start,offset⟩ text) ∧
      ∀ child ∈ frame.children, Span.Contains ⟨frame.start,offset⟩ child.span

inductive Effect (b : Builder) : Call → Builder → Result → Prop where
  | start {kind offset text}
      (cut : Cuts b.source ⟨offset,offset⟩ text) :
      Effect b (.start kind offset) { b with frames := ⟨kind,offset,none,[]⟩ :: b.frames } (.ok ())
  | name {span text atom names supply frame outer}
      (cut : span.Cuts b.source text)
      (interned : b.names.intern b.supply text = (atom,names,supply))
      (innermost : b.frames = frame :: outer) :
      Effect b (.name span)
        { b with names, supply, frames := { frame with name := some ⟨atom,span⟩ } :: outer } (.ok ())
  | leaf {kind span text atom key supply}
      (cut : span.Cuts b.source text)
      (copied : atom.value = text)
      (grown : b.supply.next ≤ supply.next) :
      Effect b (.leaf kind span)
        ({ b with supply }.attach ⟨key,kind,span,atom,none,[]⟩) (.ok ())
  | namedLeaf {kind span text atom key names supply later}
      (cut : span.Cuts b.source text)
      (interned : b.names.intern b.supply text = (atom,names,supply))
      (grown : supply.next ≤ later.next) :
      Effect b (.namedLeaf kind span)
        ({ b with names, supply := later }.attach ⟨key,kind,span,atom,some ⟨atom,span⟩,[]⟩) (.ok ())
  | finish {offset text atom key supply frame outer}
      (innermost : b.frames = frame :: outer)
      (cut : Cuts b.source ⟨frame.start,offset⟩ text)
      (inside : ∀ child ∈ frame.children, Span.Contains ⟨frame.start,offset⟩ child.span)
      (copied : atom.value = text)
      (grown : b.supply.next ≤ supply.next) :
      Effect b (.finish offset)
        ({ b with supply, frames := outer }.attach
          ⟨key,frame.kind,⟨frame.start,offset⟩,atom,frame.name,frame.children.reverse⟩) (.ok ())
  | unplaced {span text atom names supply}
      (cut : span.Cuts b.source text)
      (interned : b.names.intern b.supply text = (atom,names,supply))
      (closed : b.frames = []) :
      Effect b (.name span) { b with names, supply } (.error (.noOpenNode .name))
  | refused {call error}
      (barred : ¬ b.Admits call) : Effect b call b (.error error)

theorem tokenRead (b : Builder) (span : Span) :
    (∃ error, b.token span = .error error ∧ ¬ ∃ text, span.Cuts b.source text) ∨
      ∃ text atom names supply, span.Cuts b.source text ∧
        b.names.intern b.supply text = (atom,names,supply) ∧
        b.token span = .ok (⟨atom,span⟩,{ b with names, supply }) := by
  unfold token
  cases read : b.slice span with
  | error e => exact .inl ⟨e,rfl,sliceBarred read⟩
  | ok text => exact .inr ⟨text,_,_,_,sliceOk.mp read,rfl,rfl⟩

theorem sliceAtomRead (b : Builder) (span : Span) :
    (∃ error, b.sliceAtom span = .error error ∧ ¬ ∃ text, span.Cuts b.source text) ∨
      ∃ text, span.Cuts b.source text ∧ b.sliceAtom span =
        .ok (⟨b.supply.next,text⟩,{ b with supply := ⟨b.supply.next + 1⟩ }) := by
  unfold sliceAtom
  cases read : b.slice span with
  | error e => exact .inl ⟨e,rfl,sliceBarred read⟩
  | ok text => exact .inr ⟨text,sliceOk.mp read,rfl⟩

theorem startEffect (b : Builder) (kind : Kind) (offset : Nat) :
    Effect b (.start kind offset) (b.start kind offset).1 (b.start kind offset).2 := by
  unfold start
  cases read : b.slice ⟨offset,offset⟩ with
  | error e => exact .refused (sliceBarred read)
  | ok text => exact .start (sliceOk.mp read)

theorem nameEffect (b : Builder) (span : Span) :
    Effect b (.name span) (b.name span).1 (b.name span).2 := by
  unfold name
  obtain ⟨error,read,barred⟩ | ⟨text,atom,names,supply,cut,interned,read⟩ := b.tokenRead span
  · rw [read]
    exact .refused fun admitted => barred admitted.1
  · rw [read]
    cases innermost : b.frames with
    | nil =>
      have effect := Effect.unplaced cut interned innermost
      rw [innermost] at effect
      exact effect
    | cons frame outer => exact .name cut interned innermost

theorem leafEffect (b : Builder) (kind : Kind) (span : Span) :
    Effect b (.leaf kind span) (b.leaf kind span).1 (b.leaf kind span).2 := by
  unfold leaf
  obtain ⟨error,read,barred⟩ | ⟨text,cut,read⟩ := b.sliceAtomRead span
  · rw [read]
    exact .refused barred
  · rw [read]
    exact .leaf cut rfl (Nat.le_add_right _ 2)

theorem namedLeafEffect (b : Builder) (kind : Kind) (span : Span) :
    Effect b (.namedLeaf kind span) (b.namedLeaf kind span).1 (b.namedLeaf kind span).2 := by
  unfold namedLeaf
  obtain ⟨error,read,barred⟩ | ⟨text,atom,names,supply,cut,interned,read⟩ := b.tokenRead span
  · rw [read]
    exact .refused barred
  · rw [read]
    exact .namedLeaf cut interned (Nat.le_add_right _ 2)

theorem finishEffect (b : Builder) (offset : Nat) :
    Effect b (.finish offset) (b.finish offset).1 (b.finish offset).2 := by
  unfold finish
  cases innermost : b.frames with
  | nil =>
    refine .refused ?_
    rintro ⟨frame,outer,opened,_⟩
    rw [innermost] at opened
    contradiction
  | cons frame outer =>
    have only {P : Frame → Prop} : (∃ f outer, b.frames = f :: outer ∧ P f) → P frame := by
      rintro ⟨f,rest,opened,holds⟩
      cases innermost.symm.trans opened
      exact holds
    obtain ⟨error,read,barred⟩ | ⟨text,cut,read⟩ := b.sliceAtomRead ⟨frame.start,offset⟩
    · simp only [read]
      exact .refused fun admitted => barred (only admitted).1
    · simp only [read]
      cases stray : frame.stray? ⟨frame.start,offset⟩ with
      | some child => exact .refused fun admitted => straySome stray (only admitted).2
      | none =>
        have inside := strayNone.mp stray
        have closes (key : Nat) (supply : Supply) (grown : b.supply.next ≤ supply.next) :
            Effect b (.finish offset) ({ b with supply, frames := outer }.attach
              ⟨key,frame.kind,⟨frame.start,offset⟩,⟨b.supply.next,text⟩,frame.name,
                frame.children.reverse⟩) (.ok ()) :=
          .finish innermost cut inside rfl grown
        -- A named node is made twice, so the two cases differ in the allocations they use up.
        cases named : frame.name with
        | none =>
          rw [named] at closes
          exact closes (b.supply.next + 1) ⟨b.supply.next + 2⟩ (Nat.le_add_right _ 2)
        | some token =>
          rw [named] at closes
          exact closes (b.supply.next + 2) ⟨b.supply.next + 3⟩ (Nat.le_add_right _ 3)

theorem performEffect (b : Builder) (call : Call) :
    Effect b call (b.perform call).1 (b.perform call).2 := by
  cases call with
  | start kind offset => exact b.startEffect kind offset
  | name span => exact b.nameEffect span
  | leaf kind span => exact b.leafEffect kind span
  | namedLeaf kind span => exact b.namedLeafEffect kind span
  | finish offset => exact b.finishEffect offset

theorem runKeeps {Holds : Builder → Prop}
    (step : ∀ {b c call result}, Effect b call c result → Holds b → Holds c)
    {b : Builder} (holds : Holds b) (calls : List Call) : Holds (b.run calls).1 := by
  induction calls generalizing b with
  | nil => exact holds
  | cons call rest ih => exact ih (step (b.performEffect call) holds)

theorem internedText {b : Builder} {text atom names supply}
    (interned : b.names.intern b.supply text = (atom,names,supply)) : atom.value = text := by
  rw [← b.names.internText b.supply text,interned]

theorem rootOk {b : Builder} {root : Node} : b.root = .ok root ↔ b.frames = [] ∧ b.roots = [root] := by
  unfold Builder.root
  constructor
  · intro built
    split at built
    · contradiction
    · contradiction
    · rename_i closed single
      cases Except.ok.inj built
      exact ⟨closed,single⟩
    · contradiction
  · rintro ⟨closed,single⟩
    rw [closed,single]

inductive Ending (b : Builder) : Except BuildError Node → Prop where
  | unclosed
      (opened : 0 < b.depth) : Ending b (.error (.unclosed b.depth))
  | noRoot
      (closed : b.depth = 0)
      (none : b.roots = []) : Ending b (.error .noRoot)
  | single {root : Node}
      (closed : b.depth = 0)
      (one : b.roots = [root]) : Ending b (.ok root)
  | several
      (closed : b.depth = 0)
      (many : 2 ≤ b.roots.length) : Ending b (.error (.severalRoots b.roots.length))

theorem ending (b : Builder) : Ending b b.root := by
  obtain ⟨source,supply,names,frames,roots⟩ := b
  cases frames with
  | cons frame outer => exact .unclosed (Nat.succ_pos _)
  | nil =>
    match roots with
    | [] => exact .noRoot rfl rfl
    | [root] => exact .single rfl rfl
    | first :: second :: others => exact .several rfl (Nat.le_add_left 2 others.length)

variable {b c : Builder} {call : Call}

theorem Effect.admits (effect : Effect b call c (.ok ())) : b.Admits call := by
  cases effect with
  | start cut => exact ⟨_,cut⟩
  | name cut interned innermost => exact ⟨⟨_,cut⟩,by rw [innermost]; exact List.cons_ne_nil _ _⟩
  | leaf cut => exact ⟨_,cut⟩
  | namedLeaf cut => exact ⟨_,cut⟩
  | finish innermost cut inside => exact ⟨_,_,innermost,⟨_,cut⟩,inside⟩

theorem Effect.unchanged {error : BuildError} (effect : Effect b call c (.error error)) :
    c.source = b.source ∧ c.frames = b.frames ∧ c.roots = b.roots := by
  cases effect <;> exact ⟨rfl,rfl,rfl⟩

structure Record where
  call : Call
  result : Result
  depth : Nat

def Record.isAccepted (r : Record) : Bool := r.result.isOk

def log (b : Builder) : List Call → List Record
  | [] => []
  | call :: rest =>
    ⟨call,(b.perform call).2,(b.perform call).1.depth⟩ :: (b.perform call).1.log rest

def acceptedOf (records : List Record) : List Record := records.filter Record.isAccepted

def kept (b : Builder) (calls : List Call) : List Call := (acceptedOf (b.log calls)).map Record.call

theorem logAccepted {rest : List Call} (performed : b.perform call = (c,.ok ())) :
    acceptedOf (b.log (call :: rest)) = ⟨call,.ok (),c.depth⟩ :: acceptedOf (c.log rest) := by
  rw [log,performed]
  exact List.filter_cons_of_pos rfl

theorem logRefused {rest : List Call} {error : BuildError}
    (performed : b.perform call = (c,.error error)) :
    acceptedOf (b.log (call :: rest)) = acceptedOf (c.log rest) := by
  rw [log,performed]
  exact List.filter_cons_of_neg Bool.false_ne_true

end DeclViews.Builder
