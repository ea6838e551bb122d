import DeclViews.Proofs.View.Occurrence

/-! Walks that stop early. A walk visits the splice of the children from left to right up to the
first node at which its visitor breaks off, and nothing after that; the visitor may go by all that
it has seen before. The package clause is looked for by such a walk, and what is found is the first
one that classifying all children finds. -/
namespace DeclViews
namespace Node

variable {σ β : Type} {visit : σ → Node → σ × Option β} {state final : σ} {ns : List Node}

def step (visit : σ → Node → σ × Option β) (state : σ) (n : Node) : Except (σ × β) σ :=
  match visit state n with
  | (later,none) => .ok later
  | (later,some result) => .error (later,result)

def ending : Except (σ × β) σ → σ × Option β
  | .ok state => (state,none)
  | .error (state,result) => (state,some result)

theorem visitEachFolds (visit : σ → Node → σ × Option β) (state : σ) (ns : List Node) :
    visitEach visit state ns = ending (ns.foldlM (step visit) state) := by
  induction ns generalizing state with
  | nil => rfl
  | cons n rest ih =>
    rw [visitEach,List.foldlM_cons,step]
    obtain ⟨later,result⟩ := visit state n
    cases result with
    | none => exact ih later
    | some result => rfl

inductive Passes (visit : σ → Node → σ × Option β) : σ → List Node → σ → Prop where
  | done (state : σ) : Passes visit state [] state
  | next {state later final : σ} {n : Node} {rest : List Node}
      (on : visit state n = (later,none))
      (further : Passes visit later rest final) : Passes visit state (n :: rest) final

inductive Visits (visit : σ → Node → σ × Option β) (state : σ) (ns : List Node) :
    σ → List Node → Option β → Prop where
  | through {final : σ} (passed : Passes visit state ns final) : Visits visit state ns final ns none
  | broken {before after : List Node} {last : Node} {reached final : σ} {result : β}
      (parts : ns = before ++ last :: after)
      (passed : Passes visit state before reached)
      (breaks : visit reached last = (final,some result)) :
      Visits visit state ns final (before ++ [last]) (some result)

theorem Visits.next {n : Node} {later final : σ} {rest seen : List Node} {result : Option β}
    (on : visit state n = (later,none)) (further : Visits visit later rest final seen result) :
    Visits visit state (n :: rest) final (n :: seen) result := by
  cases further with
  | through passed => exact .through (.next on passed)
  | broken parts passed breaks =>
    subst parts
    exact .broken (List.cons_append ..).symm (.next on passed) breaks

theorem Passes.ends (passed : Passes visit state ns final) :
    visitEach visit state ns = (final,none) := by
  induction passed with
  | done state => rfl
  | next on further ih =>
    rw [visitEach,on]
    exact ih

def noting (visit : σ → Node → σ × Option β) (state : σ × List Node) (n : Node) :
    (σ × List Node) × Option β :=
  (((visit state.1 n).1,state.2 ++ [n]),(visit state.1 n).2)

/- Induction on the nodes with the state left open: what the visitor does at the first node decides
whether it is shown the others at all, and the list of the nodes seen so far goes along. -/
theorem visitEachStops (visit : σ → Node → σ × Option β) (state : σ) (ns : List Node) :
    ∃ seen, Visits visit state ns (visitEach visit state ns).1 seen (visitEach visit state ns).2 ∧
      ∀ before, visitEach (noting visit) (state,before) ns =
        (((visitEach visit state ns).1,before ++ seen),(visitEach visit state ns).2) := by
  induction ns generalizing state with
  | nil => exact ⟨[],.through (.done state),fun before => by simp [visitEach]⟩
  | cons n rest ih =>
    cases outcome : visit state n with
    | mk later result =>
      cases result with
      | some result =>
        have breaks : Visits visit state (n :: rest) later ([] ++ [n]) (some result) :=
          .broken rfl (.done state) outcome
        exact ⟨[n],by simpa [visitEach,outcome] using breaks,
          fun before => by simp [visitEach,noting,outcome]⟩
      | none =>
        obtain ⟨seen,visits,noted⟩ := ih later
        exact ⟨n :: seen,by simpa [visitEach,outcome] using visits.next outcome,
          fun before => by simp [visitEach,noting,outcome,noted]⟩

theorem visitEachPasses (visit : σ → Node → σ × Option β) (state : σ) (ns : List Node) :
    (visitEach visit state ns).2 = none ↔ ∃ final, Passes visit state ns final := by
  constructor
  · intro through
    obtain ⟨seen,visits,-⟩ := visitEachStops visit state ns
    rw [through] at visits
    cases visits with
    | through passed => exact ⟨_,passed⟩
  · rintro ⟨final,passed⟩
    rw [passed.ends]

end Node

namespace Declaration

def package? : Declaration → Option PackageClause
  | .package clause => some clause
  | _ => none

theorem castClassified (n : Node) : Typed.cast? .packageClause n = (classify? n).bind package? := by
  obtain ⟨key,kind,span,text,name,children⟩ := n
  cases kind <;> rfl

end Declaration

namespace View
open Node (splice Visits Passes noting step ending)

theorem packageClassified (root : Node) :
    packageClause? root = (declarations root).findSome? Declaration.package? := by
  rw [packageFirst,declarations,← List.head?_filterMap,← List.head?_filterMap,List.filterMap_filterMap,
    Node.transparentSplice]
  simp only [Declaration.castClassified]

theorem walkEndsAtBreak (root : Node) :
    (∀ {σ β : Type} (visit : σ → Node → σ × Option β) (state : σ),
      root.walk visit state = ending ((splice root.children).foldlM (step visit) state) ∧
      (∃ seen, Visits visit state (splice root.children) (root.walk visit state).1 seen
          (root.walk visit state).2 ∧
        root.walk (noting visit) (state,[]) =
          (((root.walk visit state).1,seen),(root.walk visit state).2)) ∧
      ((root.walk visit state).2 = none ↔
        ∃ final, Passes visit state (splice root.children) final)) ∧
    packageClause? root = (declarations root).findSome? Declaration.package? := by
  refine ⟨fun visit state => ?_,packageClassified root⟩
  rw [Node.walkSplice,Node.walkSplice]
  refine ⟨Node.visitEachFolds visit state _,?_,Node.visitEachPasses visit state _⟩
  obtain ⟨seen,visits,noted⟩ := Node.visitEachStops visit state (splice root.children)
  exact ⟨seen,visits,noted []⟩

end View
end DeclViews
