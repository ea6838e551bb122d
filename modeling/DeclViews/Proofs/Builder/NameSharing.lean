import DeclViews.Proofs.Builder.Listing
import DeclViews.Proofs.Builder.Naming

/-! Which names and texts of a finished tree share an allocation. The nodes of the tree are those
that accepted calls have completed, each at its call, and no other. A name keeps the atom that it
got when it was read, wherever its node ends up, so two names share an allocation when their texts
are equal and only then; and a named leaf has one atom for its text and its name. -/
namespace DeclViews

namespace Node

theorem namesWithin {n d : Node} (within : n.Within d) {token : Token} (named : d.name = some token) :
    token ∈ n.names := by
  induction within with
  | self n => simp [namesIs,named]
  | @lower n child d member rest ih =>
    rw [namesIs]
    exact List.mem_append_right _ (memNamesBelow.mpr ⟨child,member,ih named⟩)

end Node

namespace Builder
open DeclViews.Node (Within withinIff)

variable {b c : Builder} {call : Call} {n : Node}

def Holds (b : Builder) (n : Node) : Prop :=
  (∃ root ∈ b.roots, root.Within n) ∨ ∃ frame ∈ b.frames, ∃ child ∈ frame.children, child.Within n

def newest? (b : Builder) : Option Node :=
  match b.frames with
  | [] => b.roots.head?
  | frame :: _ => frame.children.head?

def madeBy (b : Builder) (call : Call) : Option Node :=
  if call.completes && (b.perform call).2.isOk then (b.perform call).1.newest? else none

def made (b : Builder) : List Call → List (Call × Node)
  | [] => []
  | call :: rest => (b.madeBy call).toList.map (call,·) ++ (b.perform call).1.made rest

@[simp] theorem newestAttach (b : Builder) (node : Node) : (b.attach node).newest? = some node := by
  unfold attach newest?
  cases b.frames <;> rfl

theorem holdsAttach {node : Node} : (b.attach node).Holds n ↔ b.Holds n ∨ node.Within n := by
  unfold attach Holds
  cases b.frames with
  | nil => simp [or_comm]
  | cons frame outer =>
    simp only [List.mem_cons,exists_eq_or_imp]
    grind

theorem effectHolds (effect : Effect b call c (.ok ())) :
    c.Holds n ↔ b.Holds n ∨ call.completes = true ∧ c.newest? = some n := by
  cases effect with
  | start cut => simp [Holds,Call.completes]
  | name cut interned opened => simp [Holds,Call.completes,opened]
  | leaf cut | namedLeaf cut =>
    rw [holdsAttach,newestAttach,withinIff]
    simp [Holds,Call.completes,eq_comm]
  | finish opened cut =>
    rw [holdsAttach,newestAttach,withinIff]
    simp only [Holds,opened,Call.completes,List.mem_cons,List.mem_reverse,exists_eq_or_imp]
    grind

theorem performHolds (b : Builder) (call : Call) :
    (b.perform call).1.Holds n ↔ b.Holds n ∨ b.madeBy call = some n := by
  have effect := b.performEffect call
  unfold madeBy
  cases performed : b.perform call with
  | mk after result =>
    rw [performed] at effect
    cases result with
    | ok => simp [effectHolds effect,Except.isOk,Except.toBool]
    | error e =>
      obtain ⟨-,frames,roots⟩ := effect.unchanged
      have same : after.Holds n ↔ b.Holds n := by rw [Holds,Holds,frames,roots]
      simp [same,Except.isOk,Except.toBool]

theorem runHolds (b : Builder) (calls : List Call) :
    (b.run calls).1.Holds n ↔ b.Holds n ∨ ∃ call, (call,n) ∈ b.made calls := by
  induction calls generalizing b with
  | nil => simp [run,made]
  | cons call rest ih =>
    have run : (b.run (call :: rest)).1 = ((b.perform call).1.run rest).1 := rfl
    rw [run,ih,performHolds]
    simp [made,or_assoc,exists_or]

theorem holdsRoot {root : Node} (built : b.root = .ok root) : b.Holds n ↔ root.Within n := by
  obtain ⟨closed,single⟩ := rootOk.mp built
  simp [Holds,closed,single]

theorem namedLeafText {kind : Kind} {span : Span} (found : b.madeBy (.namedLeaf kind span) = some n) :
    ∃ token, n.name = some token ∧ n.text.Same token.atom := by
  have effect := b.performEffect (.namedLeaf kind span)
  unfold madeBy at found
  generalize b.perform (.namedLeaf kind span) = done at effect found
  obtain ⟨after,result⟩ := done
  cases effect with
  | namedLeaf cut interned =>
    cases found.symm.trans (newestAttach _ _)
    exact ⟨_,rfl,rfl⟩
  | refused => contradiction

theorem madeText {kind : Kind} {span : Span} {calls : List Call}
    (member : (.namedLeaf kind span,n) ∈ b.made calls) :
    ∃ token, n.name = some token ∧ n.text.Same token.atom := by
  induction calls generalizing b with
  | nil => contradiction
  | cons call rest ih =>
    rcases List.mem_append.mp member with now | later
    · obtain ⟨node,found,same⟩ := List.mem_map.mp now
      cases same
      exact namedLeafText (Option.mem_toList.mp found)
    · exact ih later

theorem namesShareTexts {source : String} {calls : List Call} {root : Node}
    (built : ((ofSource source).run calls).1.root = .ok root) :
    (∀ n, root.Within n ↔ ∃ call, (call,n) ∈ (ofSource source).made calls) ∧
    (∀ m n, root.Within m → root.Within n → ∀ x ∈ m.name, ∀ y ∈ n.name,
      (x.atom.Same y.atom ↔ x.text = y.text)) ∧
    ∀ kind span n, (.namedLeaf kind span,n) ∈ (ofSource source).made calls →
      ∃ token, n.name = some token ∧ n.text.Same token.atom := by
  have named := runNamed source calls
  refine ⟨fun n => ?_,?_,fun kind span n member => madeText member⟩
  · rw [← holdsRoot built,runHolds]
    simp [Holds,ofSource]
  · intro m n left right x first y second
    exact named.shared built x (Node.namesWithin left first) y (Node.namesWithin right second)

theorem overruledNameShared :
    let calls : List Call :=
      [.name ⟨0,1⟩,.start .file 0,.name ⟨0,1⟩,.name ⟨1,2⟩,.namedLeaf .functionDecl ⟨2,3⟩,
        .namedLeaf .methodDecl ⟨3,5⟩,.start .placeholder 3,.name ⟨3,4⟩,.finish 4,.finish 4]
    let made := (ofSource "abab").made calls
    ∃ root, ((ofSource "abab").run calls).1.root = .ok root ∧
      root.names.map Token.text = ["b","a","b"] ∧
      (∀ n, root.Within n ↔ ∃ call, (call,n) ∈ made) ∧
      (∀ m n, root.Within m → root.Within n → ∀ x ∈ m.name, ∀ y ∈ n.name,
        (x.atom.Same y.atom ↔ x.text = y.text)) ∧
      ∀ kind span n, (.namedLeaf kind span,n) ∈ made →
        ∃ token, n.name = some token ∧ n.text.Same token.atom := by
  intro calls made
  have texts : ((ofSource "abab").run calls).1.root.toOption.map (·.names.map Token.text) =
      some ["b","a","b"] := by decide +kernel
  cases built : ((ofSource "abab").run calls).1.root with
  | error e =>
    rw [built] at texts
    contradiction
  | ok root =>
    rw [built] at texts
    exact ⟨root,rfl,Option.some.inj texts,namesShareTexts built⟩

end Builder
end DeclViews
