import DeclViews.Slot.Program

/-! What was done to a slot, in the order in which it was done. A step is done when it answers, and a
step that lets a computation run on the slot answers after every step of that computation. In that
order a program with computations inside computations is one chain: each visit finds the slot, right
before it answers, as the visit before it left the slot, and all it does there is to read it or to
store into it once. A computation that decides by its answers what to do next takes, in one run, the
steps of some program, so nothing is asked of the steps or of the values they bring. -/
namespace DeclViews.Slot

variable {α : Type}

namespace Step

def stamp? : Step α → Option Stamp
  | .get stamp | .store stamp _ | .getOrCompute stamp _ _ => some stamp
  | .peek => none

def brings? : Step α → Option (Stamp × α)
  | .store stamp value | .getOrCompute stamp _ value => some (stamp,value)
  | .get _ | .peek => none

theorem bringsStamp {step : Step α} {own : Stamp × α} (brings : step.brings? = some own) :
    step.stamp? = some own.1 := by
  cases step with
  | get | peek => contradiction
  | store | getOrCompute => cases brings; rfl

end Step

namespace Answer

def value? : Answer α → Option (Shared α)
  | .got value _ => value
  | .stored value _ | .found value _ | .computed _ value _ => some value
  | .peeked _ => none

def isComputed : Answer α → Bool
  | .computed _ _ _ => true
  | .got _ _ | .stored _ _ | .found _ _ | .peeked _ => false

mutual

def inOrder : Answer α → List (Answer α)
  | .got value held => [.got value held]
  | .stored value held => [.stored value held]
  | .found value held => [.found value held]
  | .computed during value held => allInOrder during ++ [.computed during value held]
  | .peeked held => [.peeked held]

def allInOrder : List (Answer α) → List (Answer α)
  | [] => []
  | answer :: rest => answer.inOrder ++ allInOrder rest

end

end Answer

structure Visit (α : Type) where
  entry : Slot α
  step : Step α

namespace Visit

def answer (x : Visit α) : Answer α := (x.entry.perform x.step).1

def after (x : Visit α) : Slot α := (x.entry.perform x.step).2

/- The slot when the answer is made: by then a computation may have moved it. -/
def before (x : Visit α) : Slot α :=
  match x.step with
  | .getOrCompute _ during _ => if x.answer.isComputed then (x.entry.run during).2 else x.entry
  | .get _ | .store _ _ | .peek => x.entry

def supplied? (x : Visit α) : Option (Stamp × α) :=
  match x.step with
  | .store stamp value => some (stamp,value)
  | .getOrCompute stamp _ value => if x.answer.isComputed then some (stamp,value) else none
  | .get _ | .peek => none

def given? (x : Visit α) : Option (Stamp × Shared α) :=
  x.step.stamp?.bind fun stamp => x.answer.value?.map fun shared => (stamp,shared)

theorem givenAsked {x : Visit α} {own : Stamp × Shared α} (given : x.given? = some own) :
    x.step.stamp? = some own.1 := by
  obtain ⟨stamp,asked,rest⟩ := Option.bind_eq_some_iff.mp given
  obtain ⟨shared,-,rfl⟩ := Option.map_eq_some_iff.mp rest
  exact asked

theorem suppliedBrought {x : Visit α} {own : Stamp × α} (supplied : x.supplied? = some own) :
    x.step.brings? = some own := by
  unfold supplied? at supplied
  split at supplied
  · rename_i step
    rwa [step]
  · rename_i step
    rw [step]
    split at supplied
    · exact supplied
    · contradiction
  · contradiction
  · contradiction

end Visit

mutual

def visitsOf (slot : Slot α) : Step α → List (Visit α)
  | .get stamp => [⟨slot,.get stamp⟩]
  | .store stamp value => [⟨slot,.store stamp value⟩]
  | .getOrCompute stamp during value =>
    (if (slot.perform (.getOrCompute stamp during value)).1.isComputed then visits slot during
      else []) ++ [⟨slot,.getOrCompute stamp during value⟩]
  | .peek => [⟨slot,.peek⟩]

def visits (slot : Slot α) : List (Step α) → List (Visit α)
  | [] => []
  | step :: rest => visitsOf slot step ++ visits (slot.perform step).2 rest

end

section Entry

variable {slot : Slot α} {stamp : Stamp} (during : List (Step α)) (value : α)

theorem performFound {shared : Shared α} (hit : slot.get? stamp = some shared) :
    slot.perform (.getOrCompute stamp during value) = (.found shared slot.stamp?,slot) := by
  rw [perform,getOrCompute,hit]

theorem performComputed (miss : slot.get? stamp = none) :
    slot.perform (.getOrCompute stamp during value) =
      (.computed (slot.run during).1 ((slot.run during).2.store stamp value).1
          ((slot.run during).2.store stamp value).2.stamp?,
        ((slot.run during).2.store stamp value).2) := by
  rw [perform,getOrCompute,miss]

theorem getSome {shared : Shared α} :
    slot.get? stamp = some shared ↔ slot.held = some ⟨stamp,shared⟩ := by
  unfold get?
  cases slot.held with
  | none => simp
  | some held =>
    obtain ⟨own,value⟩ := held
    simp [Option.filter]

theorem getNone : slot.get? stamp = none ↔ slot.stamp? ≠ some stamp := by
  unfold get? stamp?
  cases slot.held with
  | none => simp
  | some held => simp [Option.filter]

theorem computedMiss : (slot.perform (.getOrCompute stamp during value)).1.isComputed = true ↔
    slot.get? stamp = none := by
  cases missed : slot.get? stamp with
  | none => simp [performComputed during value missed,Answer.isComputed]
  | some shared => simp [performFound during value missed,Answer.isComputed]

theorem foundVisit {shared : Shared α} (hit : slot.get? stamp = some shared) :
    let x : Visit α := ⟨slot,.getOrCompute stamp during value⟩
    x.before = slot ∧ x.after = slot ∧ x.supplied? = none ∧ x.given? = some (stamp,shared) := by
  simp only [Visit.before,Visit.after,Visit.supplied?,Visit.given?,Visit.answer,Step.stamp?,
    performFound during value hit,Answer.isComputed,Answer.value?,Bool.false_eq_true,if_false,
    Option.bind_some,Option.map_some,and_self]

theorem computedVisit (miss : slot.get? stamp = none) :
    let x : Visit α := ⟨slot,.getOrCompute stamp during value⟩
    x.before = (slot.run during).2 ∧ x.after = (x.before.store stamp value).2 ∧
      x.supplied? = some (stamp,value) ∧
      x.given? = some (stamp,(x.before.store stamp value).1) := by
  simp only [Visit.before,Visit.after,Visit.supplied?,Visit.given?,Visit.answer,Step.stamp?,
    performComputed during value miss,Answer.isComputed,Answer.value?,if_true,Option.bind_some,
    Option.map_some,and_self]

end Entry

/- All that a visit can do to the slot as it is when the answer is made. A store shares the value
that is held under its own stamp, and a store that comes too late passes its value through. -/
inductive Effect (x : Visit α) : Prop where
  | misses
      (brought : x.step.brings? = none)
      (supplied : x.supplied? = none)
      (left : x.after = x.before)
      (given : x.given? = none)
  | shares {held : Held α}
      (kept : x.before.held = some held)
      (supplied : ∀ own ∈ x.supplied?, own.1 = held.stamp)
      (left : x.after = x.before)
      (given : x.given? = some (held.stamp,held.value))
  | keeps {stamp : Stamp} {value : α}
      (newest : ∀ held, x.before.held = some held → held.stamp < stamp)
      (supplied : x.supplied? = some (stamp,value))
      (left : x.after = (x.before.keep stamp value).2)
      (given : x.given? = some (stamp,(x.before.keep stamp value).1))
  | passes {held : Held α} {stamp : Stamp} {value : α}
      (kept : x.before.held = some held)
      (older : stamp < held.stamp)
      (supplied : x.supplied? = some (stamp,value))
      (left : x.after = (x.before.pass value).2)
      (given : x.given? = some (stamp,(x.before.pass value).1))

theorem storingEffect {x : Visit α} {stamp : Stamp} {value : α}
    (supplied : x.supplied? = some (stamp,value))
    (left : x.after = (x.before.store stamp value).2)
    (given : x.given? = some (stamp,(x.before.store stamp value).1)) : Effect x := by
  unfold store at left given
  cases kept : x.before.held with
  | none =>
    rw [kept] at left given
    exact .keeps (fun held some => nomatch kept.symm.trans some) supplied left given
  | some held =>
    rw [kept] at left given
    dsimp only at left given
    by_cases same : held.stamp = stamp
    · rw [if_pos same] at left given
      cases same
      refine .shares kept ?_ left given
      intro own member
      cases supplied.symm.trans member
      rfl
    · rw [if_neg same] at left given
      by_cases older : stamp < held.stamp
      · rw [if_pos older] at left given
        exact .passes kept older supplied left given
      · rw [if_neg older] at left given
        refine .keeps ?_ supplied left given
        intro current some
        cases kept.symm.trans some
        exact Stamp.ltOfNot same older

theorem visitEffect (x : Visit α) : Effect x := by
  obtain ⟨slot,step⟩ := x
  cases step with
  | get stamp =>
    have given : (Visit.mk slot (.get stamp)).given? = (slot.get? stamp).map (stamp,·) := rfl
    cases missed : slot.get? stamp with
    | none => exact .misses rfl rfl rfl (by rw [given,missed]; rfl)
    | some shared => exact .shares (getSome.mp missed) nofun rfl (by rw [given,missed]; rfl)
  | store stamp value => exact storingEffect rfl rfl rfl
  | getOrCompute stamp during value =>
    cases missed : slot.get? stamp with
    | none =>
      obtain ⟨-,after,supplied,given⟩ := computedVisit during value missed
      exact storingEffect supplied after given
    | some shared =>
      obtain ⟨before,after,supplied,given⟩ := foundVisit during value missed
      have kept := getSome.mp missed
      rw [← before] at kept
      refine .shares kept ?_ (after.trans before.symm) given
      rw [supplied]
      nofun
  | peek => exact .misses rfl rfl rfl rfl

inductive Chain : Slot α → List (Visit α) → Slot α → Prop where
  | done (slot : Slot α) : Chain slot [] slot
  | visit {slot last : Slot α} {x : Visit α} {later : List (Visit α)}
      (starts : x.before = slot)
      (rest : Chain x.after later last) : Chain slot (x :: later) last

theorem Chain.one {slot last : Slot α} {x : Visit α} (starts : x.before = slot)
    (ends : x.after = last) : Chain slot [x] last := by
  cases ends
  exact .visit starts (.done _)

theorem Chain.append {slot middle last : Slot α} {xs ys : List (Visit α)}
    (first : Chain slot xs middle) (later : Chain middle ys last) : Chain slot (xs ++ ys) last := by
  induction first with
  | done => exact later
  | visit starts _ ih => exact .visit starts (ih later)

theorem Chain.split {slot last : Slot α} {xs ys : List (Visit α)}
    (chain : Chain slot (xs ++ ys) last) : ∃ middle, Chain slot xs middle ∧ Chain middle ys last := by
  induction xs generalizing slot with
  | nil => exact ⟨slot,.done slot,chain⟩
  | cons x xs ih =>
    cases chain with
    | visit starts rest =>
      obtain ⟨middle,first,later⟩ := ih rest
      exact ⟨middle,.visit starts first,later⟩

theorem Chain.keeps (Holds : List (Visit α) → Slot α → Prop)
    (step : ∀ past x, Holds past x.before → Holds (past ++ [x]) x.after)
    {slot last : Slot α} {past xs : List (Visit α)} (holds : Holds past slot)
    (chain : Chain slot xs last) : Holds (past ++ xs) last := by
  induction chain generalizing past with
  | done => rwa [List.append_nil]
  | @visit slot last x later starts rest ih =>
    cases starts
    rw [List.append_cons]
    exact ih (step past x holds)

mutual

theorem chainOf (slot : Slot α) : (step : Step α) →
    Chain slot (visitsOf slot step) (slot.perform step).2
  | .get _ => .one rfl rfl
  | .store _ _ => .one rfl rfl
  | .getOrCompute stamp during value => by
    rw [visitsOf]
    cases missed : slot.get? stamp with
    | some shared =>
      obtain ⟨before,after,-⟩ := foundVisit during value missed
      rw [performFound during value missed]
      exact .one before after
    | none =>
      obtain ⟨before,-⟩ := computedVisit during value missed
      rw [if_pos ((computedMiss during value).mpr missed)]
      exact (chainOfRun slot during).append (.one before rfl)
  | .peek => .one rfl rfl

theorem chainOfRun (slot : Slot α) : (steps : List (Step α)) →
    Chain slot (visits slot steps) (slot.run steps).2
  | [] => .done slot
  | step :: rest => (chainOf slot step).append (chainOfRun (slot.perform step).2 rest)

end

mutual

theorem answersOf (slot : Slot α) : (step : Step α) →
    (slot.perform step).1.inOrder = (visitsOf slot step).map Visit.answer
  | .get _ => rfl
  | .store _ _ => rfl
  | .getOrCompute stamp during value => by
    rw [visitsOf,List.map_append,List.map_singleton,Visit.answer]
    cases missed : slot.get? stamp with
    | some shared =>
      rw [performFound during value missed]
      rfl
    | none =>
      rw [if_pos ((computedMiss during value).mpr missed),performComputed during value missed,Answer.inOrder,
        answersOfRun slot during]
  | .peek => rfl

theorem answersOfRun (slot : Slot α) : (steps : List (Step α)) →
    Answer.allInOrder (slot.run steps).1 = (visits slot steps).map Visit.answer
  | [] => rfl
  | step :: rest => by
    rw [visits,List.map_append,← answersOf slot step,← answersOfRun (slot.perform step).2 rest]
    rfl

end

end DeclViews.Slot
