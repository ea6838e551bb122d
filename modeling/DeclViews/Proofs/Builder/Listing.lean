import DeclViews.Node.Shape
import DeclViews.Proofs.Builder.Call
import DeclViews.Proofs.Builder.Soundness

/-! The nodes of a tree and the calls that made them. The accepted calls of a run, read backwards,
say which node was innermost at each place: a close skips one more start, and the first start that
is not skipped is the one. So the calls alone list the nodes with their kinds, spans and names in
the order in which they were completed, and the finished tree, each node after what is below it, has
exactly that list. -/
namespace DeclViews

structure Label where
  kind : Kind
  span : Span
  name : Option (String × Span)
  deriving DecidableEq, Repr

namespace Node

def label (n : Node) : Label := ⟨n.kind,n.span,n.nameShape⟩

mutual

def postorder : Node → List Label
  | ⟨key,kind,span,text,name,children⟩ =>
    postorderAll children ++ [label ⟨key,kind,span,text,name,children⟩]

def postorderAll : List Node → List Label
  | [] => []
  | n :: rest => n.postorder ++ postorderAll rest

end

theorem postorderIs (n : Node) : n.postorder = postorderAll n.children ++ [n.label] := by
  cases n
  rfl

theorem postorderAllLast (ns : List Node) (last : Node) :
    postorderAll (ns ++ [last]) = postorderAll ns ++ last.postorder := by
  induction ns with
  | nil => exact List.append_nil _
  | cons n rest ih => rw [List.cons_append,postorderAll,postorderAll,ih,List.append_assoc]

end Node

namespace Builder
open DeclViews.Node (postorderAll)

namespace Call

def isStart : Call → Bool
  | .start _ _ => true
  | _ => false

def isFinish : Call → Bool
  | .finish _ => true
  | _ => false

def completes : Call → Bool
  | .leaf _ _ | .namedLeaf _ _ | .finish _ => true
  | .start _ _ | .name _ => false

theorem completesNoStart {call : Call} (completes : call.completes = true) : call.isStart = false := by
  cases call <;> first | rfl | contradiction

end Call

structure Opened where
  kind : Kind
  start : Nat
  name : Option Span
  deriving DecidableEq, Repr

def Opened.named (opened : Opened) (name : Span) : Opened := { opened with name := some name }

/- The node that is open under `skip` others behind the calls, which are given newest first. A name
belongs to the node for which no start is to be skipped, and the newest name stays. -/
def innermost : (skip : Nat) → List Call → Option Opened
  | _,[] => none
  | skip,.finish _ :: past => innermost (skip + 1) past
  | 0,.start kind start :: _ => some ⟨kind,start,none⟩
  | skip + 1,.start _ _ :: past => innermost skip past
  | 0,.name span :: past => (innermost 0 past).map (·.named span)
  | skip + 1,.name _ :: past => innermost (skip + 1) past
  | skip,.leaf _ _ :: past | skip,.namedLeaf _ _ :: past => innermost skip past

def cutOut (source : String) (span : Span) : Option (String × Span) :=
  (span.slice? source).map fun text => (text,span)

theorem cutOutCuts {source text : String} {span : Span} (cut : span.Cuts source text) :
    cutOut source span = some (text,span) := by
  rw [cutOut,Span.sliceCuts.mpr cut,Option.map_some]

def label? (source : String) (past : List Call) : Call → Option Label
  | .leaf kind span => some ⟨kind,span,none⟩
  | .namedLeaf kind span => some ⟨kind,span,cutOut source span⟩
  | .finish stop => (innermost 0 past).map fun opened =>
      ⟨opened.kind,⟨opened.start,stop⟩,opened.name.bind (cutOut source)⟩
  | .start _ _ | .name _ => none

def listing (source : String) : List Call → List Label
  | [] => []
  | call :: past => listing source past ++ (label? source past call).toList

def Record.placesRoot (r : Record) : Bool := r.call.completes && r.depth == 0

def opensOf (records : List Record) : Nat := records.countP (·.call.isStart)

def closesOf (records : List Record) : Nat := records.countP (·.call.isFinish)

def rootsOf (records : List Record) : Nat := records.countP Record.placesRoot

@[simp] theorem opensCons (r : Record) (past : List Record) :
    opensOf (r :: past) = opensOf past + r.call.isStart.toNat := by
  rw [opensOf,List.countP_cons,opensOf]
  cases r.call.isStart <;> rfl

@[simp] theorem closesCons (r : Record) (past : List Record) :
    closesOf (r :: past) = closesOf past + r.call.isFinish.toNat := by
  rw [closesOf,List.countP_cons,closesOf]
  cases r.call.isFinish <;> rfl

def outcome (source : String) (records : List Record) : Except BuildError (List Label) :=
  match opensOf records - closesOf records,rootsOf records with
  | depth + 1,_ => .error (.unclosed (depth + 1))
  | 0,0 => .error .noRoot
  | 0,1 => .ok (listing source (records.map Record.call).reverse)
  | 0,more + 2 => .error (.severalRoots (more + 2))

end Builder

def Frame.opened (frame : Frame) : Builder.Opened :=
  ⟨frame.kind,frame.start,frame.name.map Token.span⟩

namespace Builder
open DeclViews.Node (postorderAll)

variable {source : String} {b c : Builder} {call : Call} {past : List Record}

def completed (b : Builder) : List Label :=
  postorderAll b.roots.reverse ++ b.frames.reverse.flatMap fun f => postorderAll f.children.reverse

theorem completedAttach (b : Builder) (node : Node) :
    (b.attach node).completed = b.completed ++ node.postorder := by
  unfold attach completed
  cases b.frames with
  | nil => simp [Node.postorderAllLast]
  | cons frame outer => simp [Node.postorderAllLast]

theorem openedAttach (b : Builder) (node : Node) :
    (b.attach node).frames.map Frame.opened = b.frames.map Frame.opened := by
  unfold attach
  cases b.frames with
  | nil => rfl
  | cons frame outer => rfl

@[simp] theorem depthAttach (b : Builder) (node : Node) : (b.attach node).depth = b.depth := by
  simpa [depth] using congrArg List.length (b.openedAttach node)

theorem rootsAttach (b : Builder) (node : Node) :
    (b.attach node).roots.length = b.roots.length + if b.depth = 0 then 1 else 0 := by
  unfold attach depth
  cases b.frames with
  | nil => rfl
  | cons frame outer => rfl

/- What the accepted calls, newest first, say of the builder that they lead to. -/
structure Accounts (source : String) (past : List Record) (b : Builder) : Prop where
  sound : Sound source b
  brackets : b.depth + closesOf past = opensOf past
  roots : b.roots.length = rootsOf past
  opened : ∀ skip, innermost skip (past.map Record.call) = (b.frames.map Frame.opened)[skip]?
  listed : listing source (past.map Record.call) = b.completed
  counted : b.completed.length = past.countP (·.call.completes)

theorem accountsOfSource (source : String) : Accounts source [] (ofSource source) :=
  ⟨soundOfSource source,rfl,rfl,fun _ => rfl,rfl,rfl⟩

theorem Accounts.attach (accounts : Accounts source past b) {base : Builder} {node : Node}
    (sound : Sound source (base.attach node))
    (completes : call.completes = true)
    (left : base.depth + call.isFinish.toNat = b.depth)
    (roots : base.roots = b.roots)
    (opened : ∀ skip, innermost skip (call :: past.map Record.call) =
      (base.frames.map Frame.opened)[skip]?)
    (labelled : label? source (past.map Record.call) call = some node.label)
    (below : base.completed ++ postorderAll node.children = b.completed) :
    Accounts source (⟨call,.ok (),(base.attach node).depth⟩ :: past) (base.attach node) := by
  have grown : (base.attach node).completed = b.completed ++ [node.label] := by
    rw [completedAttach,Node.postorderIs,← List.append_assoc,below]
  have brackets := accounts.brackets
  rw [depthAttach]
  refine ⟨sound,?_,?_,?_,?_,?_⟩
  · rw [depthAttach,opensCons,closesCons,Call.completesNoStart completes,Bool.toNat_false]
    simp only
    omega
  · rw [rootsAttach,roots,accounts.roots]
    simp [rootsOf,List.countP_cons,Record.placesRoot,completes]
  · rw [openedAttach]
    exact opened
  · rw [grown,List.map_cons,listing,labelled,accounts.listed,Option.toList_some]
  · rw [grown,List.length_append,accounts.counted]
    simp [completes]

theorem Accounts.accepted (accounts : Accounts source past b) (effect : Effect b call c (.ok ())) :
    Accounts source (⟨call,.ok (),c.depth⟩ :: past) c := by
  have sound := effectSound effect accounts.sound
  have same := accounts.sound.sameSource
  have brackets := accounts.brackets
  cases effect with
  | @start kind offset text cut =>
    refine ⟨sound,?_,?_,?_,?_,?_⟩
    · have opened : depth { b with frames := ⟨kind,offset,none,[]⟩ :: b.frames } = b.depth + 1 := rfl
      rw [opened,opensCons,closesCons]
      simp only [Call.isStart,Call.isFinish,Bool.toNat_true,Bool.toNat_false]
      omega
    · simpa [rootsOf,Record.placesRoot,Call.completes] using accounts.roots
    · intro skip
      cases skip with
      | zero => rfl
      | succ skip => exact accounts.opened skip
    · simp [listing,label?,accounts.listed,completed,postorderAll]
    · simpa [completed,postorderAll,Call.completes] using accounts.counted
  | @name span text atom names supply frame outer cut interned innermost =>
    have opened := accounts.opened
    rw [innermost] at opened
    refine ⟨sound,?_,?_,?_,?_,?_⟩
    · simpa [opensOf,closesOf,Call.isStart,Call.isFinish,depth,innermost] using brackets
    · simpa [rootsOf,Record.placesRoot,Call.completes] using accounts.roots
    · intro skip
      cases skip with
      | zero => simp [Builder.innermost,opened 0,Frame.opened,Opened.named]
      | succ skip => exact opened (skip + 1)
    · simp [listing,label?,accounts.listed,completed,innermost]
    · simpa [completed,Call.completes,innermost] using accounts.counted
  | @leaf kind span text atom key supply cut copied grown =>
    exact accounts.attach sound rfl rfl rfl accounts.opened rfl (List.append_nil _)
  | @namedLeaf kind span text atom key names supply later cut interned grown =>
    refine accounts.attach sound rfl rfl rfl accounts.opened ?_ (List.append_nil _)
    have read : cutOut source span = some (atom.value,span) := by
      rw [internedText interned]
      exact cutOutCuts (same ▸ cut)
    simp [label?,read,Node.label,Node.nameShape,Token.text]
  | @finish offset text atom key supply frame outer innermost cut inside copied grown =>
    have opened := accounts.opened
    rw [innermost] at opened
    refine accounts.attach sound rfl ?_ rfl (fun skip => opened (skip + 1)) ?_ ?_
    · simp [Call.isFinish,depth,innermost]
    · have named : (frame.name.map Token.span).bind (cutOut source) =
          frame.name.map fun t => (t.text,t.span) := by
        cases given : frame.name with
        | none => rfl
        | some token =>
          exact cutOutCuts ((accounts.sound.innermost innermost).1.name token given)
      simp [label?,opened 0,Frame.opened,named,Node.label,Node.nameShape]
    · simp [completed,innermost]

theorem Accounts.refused (accounts : Accounts source past b) {error : BuildError}
    (effect : Effect b call c (.error error)) : Accounts source past c := by
  have sound := effectSound effect accounts.sound
  obtain ⟨-,frames,roots⟩ := effect.unchanged
  have depth : c.depth = b.depth := by rw [depth,depth,frames]
  have completed : c.completed = b.completed := by rw [completed,completed,frames,roots]
  exact ⟨sound,by rw [depth,accounts.brackets],by rw [roots,accounts.roots],
    by rw [frames]; exact accounts.opened,by rw [completed,accounts.listed],
    by rw [completed,accounts.counted]⟩

theorem Accounts.run (accounts : Accounts source past b) (calls : List Call) :
    Accounts source ((acceptedOf (b.log calls)).reverse ++ past) (b.run calls).1 := by
  induction calls generalizing b past with
  | nil => exact accounts
  | cons call rest ih =>
    have effect := b.performEffect call
    have run : (b.run (call :: rest)).1 = ((b.perform call).1.run rest).1 := rfl
    rw [run]
    cases performed : b.perform call with
    | mk after result =>
      rw [performed] at effect
      cases result with
      | error e =>
        rw [logRefused performed]
        exact ih (accounts.refused effect)
      | ok =>
        rw [logAccepted performed,List.reverse_cons,List.append_assoc]
        exact ih (accounts.accepted effect)

theorem completedRoot {root : Node} (built : b.root = .ok root) : b.completed = root.postorder := by
  obtain ⟨closed,single⟩ := rootOk.mp built
  simp [completed,closed,single,postorderAll]

theorem Accounts.forwards {records : List Record} (accounts : Accounts source records.reverse b) :
    b.depth + closesOf records = opensOf records ∧ b.roots.length = rootsOf records ∧
      listing source (records.map Record.call).reverse = b.completed ∧
      b.completed.length = records.countP (·.call.completes) := by
  obtain ⟨-,brackets,roots,-,listed,counted⟩ := accounts
  simp only [opensOf,closesOf,rootsOf,List.countP_reverse,List.map_reverse] at *
  exact ⟨brackets,roots,listed,counted⟩

theorem Accounts.ends {records : List Record} (accounts : Accounts source records.reverse b) :
    b.root.map Node.postorder = outcome source records := by
  obtain ⟨brackets,roots,listed,-⟩ := accounts.forwards
  have left : opensOf records - closesOf records = b.depth := by omega
  rw [outcome,left,← roots,listed]
  have whole {root : Node} (built : b.root = .ok root) := completedRoot built
  have ends := b.ending
  generalize b.root = finish at whole ends ⊢
  cases ends with
  | unclosed opened =>
    obtain ⟨more,depth⟩ := Nat.exists_eq_add_of_le' opened
    rw [depth]
    rfl
  | noRoot closed none =>
    rw [closed,none]
    rfl
  | single closed one =>
    rw [closed,one,whole rfl]
    rfl
  | several closed many =>
    obtain ⟨more,count⟩ := Nat.exists_eq_add_of_le' many
    rw [closed,count]
    rfl

theorem treeListsCalls (source : String) (calls : List Call) :
    let b := ofSource source
    let accepted := acceptedOf (b.log calls)
    (b.run calls).1.depth + closesOf accepted = opensOf accepted ∧
      (b.run calls).1.root.map Node.postorder = outcome source accepted ∧
      (listing source (b.kept calls).reverse).length = accepted.countP (·.call.completes) := by
  intro b accepted
  have accounts : Accounts source (accepted.reverse ++ []) (b.run calls).1 :=
    (accountsOfSource source).run calls
  rw [List.append_nil] at accounts
  obtain ⟨brackets,-,listed,counted⟩ := accounts.forwards
  exact ⟨brackets,accounts.ends,(congrArg List.length listed).trans counted⟩

example :
    let calls : List Call :=
      [.start .file 0,.name ⟨0,1⟩,.start .other 0,.name ⟨1,2⟩,.finish 1,.name ⟨0,2⟩,.finish 2]
    listing "ab" ((ofSource "ab").kept calls).reverse =
      [⟨.other,⟨0,1⟩,some ("b",⟨1,2⟩)⟩,⟨.file,⟨0,2⟩,some ("ab",⟨0,2⟩)⟩] := by decide +kernel

end Builder
end DeclViews
