import DeclViews.Proofs.Slot.Newest

/-! Who shares a value of a slot. Under one stamp all answers are one allocation, the first that was
stored under it, as long as no store with a greater stamp has been completed. Once one has, the stamp
is overtaken: a look finds nothing, and each value that is brought along for the stamp comes back in
an allocation that no other answer of the run has. -/
namespace DeclViews.Slot

variable {α : Type} {slot : Slot α} {past : List (Visit α)} {x : Visit α} {stamp : Stamp}

def answers (xs : List (Visit α)) : List (Stamp × Shared α) := xs.filterMap Visit.given?

theorem answersOne (past : List (Visit α)) (x : Visit α) :
    answers (past ++ [x]) = answers past ++ x.given?.toList := by
  rw [answers,answers,List.filterMap_append]
  cases given : x.given? <;> simp [given]

structure Remembers (stores : List (Stamp × α)) (answers : List (Stamp × Shared α))
    (slot : Slot α) : Prop where
  settled : Settled stores slot
  brought : ∀ a ∈ answers, (a.1,a.2.value) ∈ stores
  used : ∀ a ∈ answers, a.2.key < slot.supply.next
  heldUsed : ∀ held, slot.held = some held → held.value.key < slot.supply.next
  shares : ∀ held, slot.held = some held → ∀ a ∈ answers, a.1 = held.stamp → a.2 = held.value
  owns : ∀ held, slot.held = some held → ∀ a ∈ answers, a.2.Same held.value → a.1 = held.stamp

variable {stores : List (Stamp × α)} {given : List (Stamp × Shared α)}

theorem remembersEmpty : Remembers [] [] (empty : Slot α) :=
  ⟨settledEmpty,nofun,nofun,nofun,nofun,nofun⟩

theorem onlyHeld {held : Held α} {P : Held α → Prop} (kept : slot.held = some held) (holds : P held) :
    ∀ current, slot.held = some current → P current := by
  intro current some
  cases kept.symm.trans some
  exact holds

theorem oneMore {own : Stamp × Shared α} {P : Stamp × Shared α → Prop} (earlier : ∀ a ∈ given, P a)
    (last : P own) : ∀ a ∈ given ++ [own], P a :=
  List.forall_mem_append.mpr ⟨earlier,List.forall_mem_singleton.mpr last⟩

theorem Remembers.share {held : Held α} {more : List (Stamp × α)} (h : Remembers stores given slot)
    (kept : slot.held = some held) (behind : ∀ own ∈ more, own.1 ≤ held.stamp) :
    Remembers (stores ++ more) (given ++ [(held.stamp,held.value)]) slot where
  settled := h.settled.behind kept behind rfl
  brought := oneMore (fun a inside => List.mem_append_left _ (h.brought a inside))
    (List.mem_append_left _ (h.settled.leads held kept).member)
  used := oneMore h.used (h.heldUsed held kept)
  heldUsed := h.heldUsed
  shares := onlyHeld kept (oneMore (h.shares held kept) fun _ => rfl)
  owns := onlyHeld kept (oneMore (h.owns held kept) fun _ => rfl)

theorem Remembers.keep (h : Remembers stores given slot) (value : α)
    (newest : ∀ held, slot.held = some held → held.stamp < stamp) :
    Remembers (stores ++ [(stamp,value)]) (given ++ [(stamp,(slot.keep stamp value).1)])
      (slot.keep stamp value).2 := by
  have unasked : ∀ a ∈ given, a.1 ≠ stamp := by
    intro a inside same
    obtain ⟨held,kept,most⟩ := h.settled.atMost (h.brought a inside)
    rw [same] at most
    exact Nat.lt_irrefl _ (Nat.lt_of_le_of_lt most (newest held kept))
  have unheld : ∀ a ∈ given, ¬ a.2.Same (slot.keep stamp value).1 :=
    fun a inside => Nat.ne_of_lt (h.used a inside)
  exact {
    settled := h.settled.keep value newest
    brought := oneMore (fun a inside => List.mem_append_left _ (h.brought a inside))
      (List.mem_append_right _ (List.mem_singleton_self _))
    used := oneMore (fun a inside => Nat.lt_succ_of_lt (h.used a inside)) (Nat.lt_succ_self _)
    heldUsed := onlyHeld rfl (Nat.lt_succ_self _)
    shares := onlyHeld rfl (oneMore (fun a inside same => absurd same (unasked a inside)) fun _ => rfl)
    owns := onlyHeld rfl (oneMore (fun a inside same => absurd same (unheld a inside)) fun _ => rfl) }

theorem Remembers.pass {held : Held α} (h : Remembers stores given slot) (value : α)
    (kept : slot.held = some held) (older : stamp < held.stamp) :
    Remembers (stores ++ [(stamp,value)]) (given ++ [(stamp,(slot.pass value).1)])
      (slot.pass value).2 := by
  have differ : stamp ≠ held.stamp := fun same => Nat.ne_of_lt older (congrArg Stamp.count same)
  have unheld : ¬ (slot.pass value).1.Same held.value := Nat.ne_of_gt (h.heldUsed held kept)
  exact {
    settled := h.settled.behind kept (List.forall_mem_singleton.mpr (Nat.le_of_lt older)) rfl
    brought := oneMore (fun a inside => List.mem_append_left _ (h.brought a inside))
      (List.mem_append_right _ (List.mem_singleton_self _))
    used := oneMore (fun a inside => Nat.lt_succ_of_lt (h.used a inside)) (Nat.lt_succ_self _)
    heldUsed := onlyHeld kept (Nat.lt_succ_of_lt (h.heldUsed held kept))
    shares := onlyHeld kept (oneMore (h.shares held kept) fun same => absurd same differ)
    owns := onlyHeld kept (oneMore (h.owns held kept) fun same => absurd same unheld) }

theorem remembersVisit (past : List (Visit α)) (x : Visit α)
    (h : Remembers (supplies past) (answers past) x.before) :
    Remembers (supplies (past ++ [x])) (answers (past ++ [x])) x.after := by
  rw [suppliesOne,answersOne]
  cases visitEffect x with
  | misses brought supplied left given =>
    rw [supplied,left,given,Option.toList_none,Option.toList_none,List.append_nil,List.append_nil]
    exact h
  | shares kept supplied left given =>
    rw [left,given]
    refine h.share kept fun own member => ?_
    exact Nat.le_of_eq (congrArg Stamp.count (supplied own (Option.mem_toList.mp member)))
  | keeps newest supplied left given =>
    rw [supplied,left,given]
    exact h.keep _ newest
  | passes kept older supplied left given =>
    rw [supplied,left,given]
    exact h.pass _ kept older

theorem remembersChain {last : Slot α} {xs : List (Visit α)} (chain : Chain empty xs last) :
    Remembers (supplies xs) (answers xs) last := by
  have begun : Remembers (supplies ([] : List (Visit α))) (answers []) (empty : Slot α) :=
    remembersEmpty
  exact chain.keeps (fun past slot => Remembers (supplies past) (answers past) slot) remembersVisit
    begun

def Overtaken (stores : List (Stamp × α)) (stamp : Stamp) : Prop := ∃ own ∈ stores, stamp < own.1

theorem Settled.overtaken {held : Held α} (settled : Settled stores slot)
    (kept : slot.held = some held) : Overtaken stores stamp ↔ stamp < held.stamp := by
  constructor
  · rintro ⟨own,member,above⟩
    exact Nat.lt_of_lt_of_le above ((settled.leads held kept).largest own member)
  · exact fun above => ⟨_,(settled.leads held kept).member,above⟩

section Answer

variable {a b : Stamp × Shared α} (h : Remembers (supplies past) (answers past) x.before)
include h

/- An allocation is given again under its own stamp only, and only before that is overtaken. -/
theorem givenAgain (earlier : a ∈ answers past) (given : x.given? = some b) (same : a.2.Same b.2) :
    a.1 = b.1 ∧ ¬ Overtaken (supplies past) b.1 := by
  have fresh : b.2.key ≠ x.before.supply.next := by
    rw [← same]
    exact Nat.ne_of_lt (h.used a earlier)
  cases visitEffect x with
  | misses brought supplied left none => nomatch none.symm.trans given
  | shares kept supplied left shared =>
    cases shared.symm.trans given
    refine ⟨h.owns _ kept a earlier same,?_⟩
    rw [h.settled.overtaken kept]
    exact Nat.lt_irrefl _
  | keeps newest supplied left own =>
    cases own.symm.trans given
    exact absurd rfl fresh
  | passes kept older supplied left own =>
    cases own.symm.trans given
    exact absurd rfl fresh

theorem givenOnce (earlier : a ∈ answers past) (given : x.given? = some b) (asked : a.1 = b.1)
    (inTime : ¬ Overtaken (supplies past) b.1) : a.2 = b.2 := by
  cases visitEffect x with
  | misses brought supplied left none => nomatch none.symm.trans given
  | shares kept supplied left shared =>
    cases shared.symm.trans given
    exact h.shares _ kept a earlier asked
  | keeps newest supplied left own =>
    cases own.symm.trans given
    obtain ⟨held,kept,most⟩ := h.settled.atMost (h.brought a earlier)
    rw [asked] at most
    exact absurd (Nat.lt_of_le_of_lt most (newest held kept)) (Nat.lt_irrefl _)
  | passes kept older supplied left own =>
    cases own.symm.trans given
    exact absurd ((h.settled.overtaken kept).mpr older) inTime

theorem givenSupplied (given : x.given? = some b) : (b.1,b.2.value) ∈ supplies (past ++ [x]) := by
  rw [suppliesOne]
  cases visitEffect x with
  | misses brought supplied left none => nomatch none.symm.trans given
  | shares kept supplied left shared =>
    cases shared.symm.trans given
    exact List.mem_append_left _ (h.settled.leads _ kept).member
  | keeps newest supplied left own =>
    cases own.symm.trans given
    rw [supplied]
    exact List.mem_append_right _ (List.mem_singleton_self _)
  | passes kept older supplied left own =>
    cases own.symm.trans given
    rw [supplied]
    exact List.mem_append_right _ (List.mem_singleton_self _)

theorem overtakenPasses (overtaken : Overtaken (supplies past) stamp)
    (asked : x.step.stamp? = some stamp) :
    (x.given? = none ∧ x.step.brings? = none) ∨ ∃ value, x.step.brings? = some (stamp,value) ∧
      x.supplied? = some (stamp,value) ∧ x.after.held = x.before.held ∧
      x.given? = some (stamp,⟨x.before.supply.next,value⟩) := by
  have above : ∃ held, x.before.held = some held ∧ stamp < held.stamp := by
    obtain ⟨own,member,above⟩ := overtaken
    obtain ⟨held,kept,most⟩ := h.settled.atMost member
    exact ⟨held,kept,Nat.lt_of_lt_of_le above most⟩
  obtain ⟨held,kept,above⟩ := above
  cases visitEffect x with
  | misses brought supplied left given => exact .inl ⟨given,brought⟩
  | shares again supplied left given =>
    cases kept.symm.trans again
    cases asked.symm.trans (Visit.givenAsked given)
    exact absurd above (Nat.lt_irrefl _)
  | keeps newest supplied left given =>
    cases asked.symm.trans (Visit.givenAsked given)
    exact absurd (Nat.lt_trans above (newest held kept)) (Nat.lt_irrefl _)
  | passes again older supplied left given =>
    cases asked.symm.trans (Visit.givenAsked given)
    refine .inr ⟨_,Visit.suppliedBrought supplied,supplied,?_,given⟩
    rw [left]
    rfl

end Answer

theorem remembersAt {steps : List (Step α)} {earlier later : List (Visit α)}
    (done : visits empty steps = earlier ++ x :: later) :
    Remembers (supplies earlier) (answers earlier) x.before := by
  have chain := chainOfRun empty steps
  rw [done] at chain
  obtain ⟨middle,first,rest⟩ := chain.split
  cases rest with
  | visit starts =>
    rw [starts]
    exact remembersChain first

theorem Overtaken.append {stamp : Stamp} (overtaken : Overtaken (supplies past) stamp)
    (more : List (Visit α)) : Overtaken (supplies (past ++ more)) stamp := by
  obtain ⟨own,member,above⟩ := overtaken
  rw [supplies,List.filterMap_append]
  exact ⟨own,List.mem_append_left _ member,above⟩

structure Answered (earlier : List (Visit α)) (x : Visit α) (later : List (Visit α))
    (stamp : Stamp) : Prop where
  supplied : ∀ shared, x.given? = some (stamp,shared) →
    (stamp,shared.value) ∈ supplies (earlier ++ [x])
  together : ¬ Overtaken (supplies earlier) stamp → ∀ a b, (stamp,a) ∈ answers earlier →
    x.given? = some (stamp,b) → a = b
  nothing : Overtaken (supplies earlier) stamp → x.step = .get stamp → x.answer.value? = none
  apart : Overtaken (supplies earlier) stamp → ∀ value, x.step.brings? = some (stamp,value) →
    x.supplied? = some (stamp,value) ∧ x.after.held = x.before.held ∧
      ∃ shared, x.given? = some (stamp,shared) ∧ shared.value = value ∧
        ∀ other ∈ answers (earlier ++ later), ¬ other.2.Same shared
  computes : ∀ during value, x.step = .getOrCompute stamp during value →
    (x.answer.isComputed = true ↔ x.entry.stamp? ≠ some stamp)

/- The value of an overtaken stamp is its visit's own: neither an earlier visit nor a later one gives
it, since to give it again a visit would have to come in time. -/
theorem passedApart {steps : List (Step α)} {earlier later : List (Visit α)} {shared : Shared α}
    (done : visits empty steps = earlier ++ x :: later)
    (overtaken : Overtaken (supplies earlier) stamp) (given : x.given? = some (stamp,shared)) :
    ∀ other ∈ answers (earlier ++ later), ¬ other.2.Same shared := by
  intro other member same
  rw [answers,List.filterMap_append] at member
  rcases List.mem_append.mp member with before | after
  · exact (givenAgain (remembersAt done) before given same).2 overtaken
  · obtain ⟨y,inside,again⟩ := List.mem_filterMap.mp after
    obtain ⟨between,rest,rfl⟩ := List.append_of_mem inside
    have split : visits empty steps = (earlier ++ x :: between) ++ y :: rest := by
      rw [done,List.append_assoc,List.cons_append]
    have own : (stamp,shared) ∈ answers (earlier ++ x :: between) :=
      List.mem_filterMap.mpr ⟨x,List.mem_append_right _ List.mem_cons_self,given⟩
    obtain ⟨asked,inTime⟩ := givenAgain (remembersAt split) own again same.symm
    rw [← asked] at inTime
    exact inTime (overtaken.append _)

theorem visitsAnswered (steps : List (Step α)) :
    Answer.allInOrder (empty.run steps).1 = (visits empty steps).map Visit.answer ∧
      ∀ earlier x later stamp, visits empty steps = earlier ++ x :: later →
        Answered earlier x later stamp := by
  refine ⟨answersOfRun empty steps,fun earlier x later stamp done => ?_⟩
  have h := remembersAt done
  refine ⟨fun shared given => givenSupplied h given,?_,?_,?_,?_⟩
  · exact fun inTime a b member given => givenOnce h member given rfl inTime
  · intro overtaken step
    have asked : x.step.stamp? = some stamp := by rw [step]; rfl
    obtain ⟨given,-⟩ | ⟨value,brings,-⟩ := overtakenPasses h overtaken asked
    · rw [Visit.given?,asked] at given
      exact Option.map_eq_none_iff.mp given
    · rw [step] at brings
      contradiction
  · intro overtaken value brings
    obtain ⟨-,nothing⟩ | ⟨own,brought,supplied,held,given⟩ :=
      overtakenPasses h overtaken (Step.bringsStamp brings)
    · rw [brings] at nothing
      contradiction
    · cases brought.symm.trans brings
      exact ⟨supplied,held,_,given,rfl,passedApart done overtaken given⟩
  · intro during value step
    obtain ⟨slot,_⟩ := x
    cases step
    exact (computedMiss during value).trans getNone

theorem overlapShares :
    let second := Stamp.after 2
    let third := Stamp.after 3
    let inner : Step String := .getOrCompute second [] "inner"
    let outer : Step String := .getOrCompute second [inner] "outer"
    let late : Step String := .getOrCompute second [] "late"
    let steps := [outer,.store third "new",late]
    let kept : Slot String := ⟨some ⟨second,⟨0,"inner"⟩⟩,⟨1⟩⟩
    let renewed : Slot String := ⟨some ⟨third,⟨1,"new"⟩⟩,⟨2⟩⟩
    let earlier : List (Visit String) :=
      [⟨.empty,inner⟩,⟨.empty,outer⟩,⟨kept,.store third "new"⟩]
    visits empty steps = earlier ++ [⟨renewed,late⟩] ∧
      Answered [⟨.empty,inner⟩] ⟨.empty,outer⟩ [⟨kept,.store third "new"⟩,⟨renewed,late⟩] second ∧
      (Visit.mk .empty outer).given? = some (second,⟨0,"inner"⟩) ∧
      Overtaken (supplies earlier) second ∧ Answered earlier ⟨renewed,late⟩ [] second ∧
      (Visit.mk renewed late).given? = some (second,⟨2,"late"⟩) := by
  intro second third inner outer late steps kept renewed earlier
  have answered := (visitsAnswered steps).2
  exact ⟨rfl,answered _ _ _ _ rfl,rfl,⟨(third,"new"),by decide,by decide⟩,answered _ _ _ _ rfl,rfl⟩

end DeclViews.Slot
