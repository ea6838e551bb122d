import DeclViews.Proofs.File.Operation

/-! What one look at a view does to a file. A file is timely when no slot holds a value of a later
stamp than its own and no slot will hand out the allocation of its value again. On a timely file a
look finds the value of the current stamp and changes nothing, or it computes one view, counts and
tells of it, and keeps it in an allocation of its own. Whatever looks and replacements keep, every
run of operations keeps. -/
namespace DeclViews.File

variable {file : File} {v : View}

structure Timely (file : File) : Prop where
  newest : ∀ v held, (file.slots.get v).held = some held → held.stamp ≤ file.stamp
  used : ∀ v held, (file.slots.get v).held = some held →
    held.value.key < (file.slots.get v).supply.next

theorem timelyOfRoot (root : Node) : Timely (ofRoot root) := by
  have bare (v : View) : ((ofRoot root).slots.get v).held = none :=
    congrArg Slot.held (Slots.getEmpty v)
  constructor <;> (intro v held kept; rw [bare v] at kept; contradiction)

theorem currentIff : file.isCurrent v = true ↔
    ∃ held, (file.slots.get v).held = some held ∧ held.stamp = file.stamp := by
  simp [isCurrent,Slot.stamp?]

def keepView (v : View) (file : File) : File :=
  { file with
    slots := file.slots.set v ((file.slots.get v).keep file.stamp (v.compute file.root)).2
    computations := file.computations + 1 }

@[simp] theorem keepViewOwn (v : View) (file : File) : (keepView v file).slots.get v =
    ((file.slots.get v).keep file.stamp (v.compute file.root)).2 := Slots.getSet _ _ _

@[simp] theorem keepViewOther {v w : View} (other : w ≠ v) (file : File) :
    (keepView v file).slots.get w = file.slots.get w := Slots.getSetOther _ _ other

theorem keepViewCurrent (v w : View) (file : File) :
    (keepView v file).isCurrent w = true ↔ w = v ∨ file.isCurrent w = true := by
  by_cases same : w = v
  · subst same
    have current : (keepView w file).isCurrent w = true :=
      currentIff.mpr ⟨_,congrArg Slot.held (keepViewOwn w file),rfl⟩
    simp [current]
  · have untouched : (keepView v file).isCurrent w = file.isCurrent w := by
      rw [isCurrent,isCurrent,keepViewOther same]
      rfl
    simp [untouched,same]

inductive Look (v : View) (file : File) : Outcome File (Shared v.Value) → Prop where
  | found {held : Held v.Value}
      (kept : (file.slots.get v).held = some held)
      (current : held.stamp = file.stamp) : Look v file ⟨held.value,file,[]⟩
  | computed
      (stale : ¬ file.isCurrent v = true) :
      Look v file ⟨⟨(file.slots.get v).supply.next,v.compute file.root⟩,keepView v file,
        [.computing v file.stamp]⟩

theorem storeNewest {α : Type} {slot : Slot α} {stamp : Stamp} (value : α)
    (older : ∀ held, slot.held = some held → held.stamp < stamp) :
    slot.store stamp value = slot.keep stamp value := by
  unfold Slot.store
  cases kept : slot.held with
  | none => rfl
  | some held =>
    have below : held.stamp.count < stamp.count := older held kept
    have differ : held.stamp ≠ stamp := fun same => Nat.ne_of_lt below (congrArg Stamp.count same)
    have notAbove : ¬ stamp < held.stamp := Nat.not_lt.mpr (Nat.le_of_lt below)
    simp only [if_neg differ,if_neg notAbove]

theorem look (timely : Timely file) (v : View) : Look v file (view v file) := by
  by_cases current : file.isCurrent v = true
  · obtain ⟨held,kept,same⟩ := currentIff.mp current
    have found : (file.slots.get v).get? file.snapshot.stamp = some held.value := by
      rw [Slot.get?,kept,Option.filter_some]
      exact congrArg (Option.map Held.value) (if_pos (beq_iff_eq.mpr same))
    have result : view v file = ⟨held.value,file,[]⟩ := by
      simp only [view,Slot.getOrCompute,found]
    rw [result]
    exact .found kept same
  · have missing : (file.slots.get v).get? file.snapshot.stamp = none := by
      cases found : (file.slots.get v).get? file.snapshot.stamp with
      | none => rfl
      | some shared =>
        obtain ⟨held,inside,-⟩ := Option.map_eq_some_iff.mp found
        obtain ⟨kept,same⟩ := Option.filter_eq_some_iff.mp inside
        exact absurd (currentIff.mpr ⟨held,kept,eq_of_beq same⟩) current
    have older : ∀ held, (file.slots.get v).held = some held → held.stamp < file.snapshot.stamp := by
      intro held kept
      have differ : file.stamp ≠ held.stamp := fun same => current (currentIff.mpr ⟨held,kept,same.symm⟩)
      exact Nat.lt_of_le_of_ne (timely.newest v held kept) fun same => differ (Stamp.sameCount same.symm)
    have result : view v file = ⟨⟨(file.slots.get v).supply.next,v.compute file.root⟩,keepView v file,
        [.computing v file.stamp]⟩ := by
      simp only [view,Slot.getOrCompute,missing,storeNewest _ older]
      rfl
    rw [result]
    exact .computed current

theorem keepViewTimely (timely : Timely file) (v : View) : Timely (keepView v file) := by
  constructor <;> intro w held kept <;> by_cases same : w = v
  · subst same
    rw [keepViewOwn] at kept
    cases Option.some.inj kept
    exact Nat.le_refl _
  · rw [keepViewOther same] at kept
    exact timely.newest w held kept
  · subst same
    rw [keepViewOwn] at kept ⊢
    cases Option.some.inj kept
    exact Nat.lt_succ_self _
  · rw [keepViewOther same] at kept ⊢
    exact timely.used w held kept

theorem viewTimely (timely : Timely file) (v : View) : Timely (view v file).state := by
  have looked := look timely v
  generalize view v file = outcome at looked ⊢
  cases looked with
  | found => exact timely
  | computed => exact keepViewTimely timely v

theorem replaceTimely (timely : Timely file) (root : Node) : Timely (replaceRoot root file).state where
  newest v held kept := Nat.le_trans (timely.newest v held kept) (Stamp.leNext file.stamp)
  used := timely.used

def Query.views : Query → List View
  | .view v => [v]
  | .packageName => [.package]
  | .importMap => [.imports]
  | .entryFunction => [.functions]
  | .outline => View.all

inductive Looks : {α : Type} → Action File α → List View → Prop where
  | view (v : View) : Looks (view v) [v]
  | pure {α : Type} (answer : α) : Looks (pure answer) []
  | bind {α β : Type} {first : Action File α} {rest : α → Action File β} {xs ys : List View}
      (before : Looks first xs)
      (after : ∀ a, Looks (rest a) ys) : Looks (first >>= rest) (xs ++ ys)

theorem looksAsk (q : Query) : Looks q.ask q.views := by
  cases q with
  | view v => exact (Looks.view v).bind fun _ => .pure _
  | packageName => exact ((Looks.view .package).bind fun _ => .pure _).bind fun _ => .pure _
  | importMap => exact (Looks.view .imports).bind fun _ => .pure _
  | entryFunction => exact (Looks.view .functions).bind fun _ => .pure _
  | outline =>
    exact (Looks.view .package).bind fun _ => (Looks.view .imports).bind fun _ =>
      (Looks.view .functions).bind fun _ => (Looks.view .methods).bind fun _ =>
      (Looks.view .types).bind fun _ => (Looks.view .vars).bind fun _ =>
      (Looks.view .consts).bind fun _ => .pure _

section Run

variable {Holds : File → Prop} (look : ∀ v file, Holds file → Holds (view v file).state)
include look

theorem looksKeep {α : Type} {action : Action File α} {views : List View}
    (looks : Looks action views) (holds : Holds file) : Holds (action file).state := by
  induction looks generalizing file with
  | view v => exact look v file holds
  | pure answer => exact holds
  | bind before after ihBefore ihAfter => exact ihAfter _ (ihBefore holds)

theorem runKeeps (replace : ∀ root file, Holds file → Holds (replaceRoot root file).state)
    (operations : List Operation) (holds : Holds file) :
    Holds (Operation.run operations file).state := by
  induction operations generalizing file with
  | nil => exact holds
  | cons operation rest ih =>
    have next : Holds (operation.perform file).state := by
      cases operation with
      | ask q =>
        have asked : Holds (q.ask file).state := looksKeep look (looksAsk q) holds
        exact asked
      | isCurrent v => exact holds
      | replaceRoot root => exact replace root file holds
    exact ih next

end Run

theorem runTimely (operations : List Operation) (timely : Timely file) :
    Timely (Operation.run operations file).state :=
  @runKeeps file Timely (fun v _ timely => viewTimely timely v)
    (fun root _ timely => replaceTimely timely root) operations timely

/- A value that was handed out under a stamp is the one the slot holds under it, and under no later
stamp does the slot hand out its allocation. -/
structure HandedOut (v : View) (stamp : Stamp) (shared : Shared v.Value) (file : File) : Prop where
  timely : Timely file
  used : shared.key < (file.slots.get v).supply.next
  since : ∃ held, (file.slots.get v).held = some held ∧ stamp ≤ held.stamp ∧
    (held.stamp = stamp → held.value = shared) ∧ (held.stamp ≠ stamp → ¬ shared.Same held.value)

variable {v : View} {stamp : Stamp} {shared : Shared v.Value}

theorem viewHandsOut (timely : Timely file) (v : View) :
    HandedOut v file.stamp (view v file).answer (view v file).state := by
  have looked := look timely v
  have after := viewTimely timely v
  generalize view v file = outcome at looked after ⊢
  cases looked with
  | found kept current =>
    exact ⟨after,timely.used v _ kept,_,kept,Nat.le_of_eq (congrArg Stamp.count current.symm),
      fun _ => rfl,fun differ => absurd current differ⟩
  | computed stale =>
    have kept := keepViewOwn v file
    refine ⟨after,?_,_,congrArg Slot.held kept,Nat.le_refl _,fun _ => rfl,fun differ => absurd rfl differ⟩
    rw [kept]
    exact Nat.lt_succ_self _

theorem HandedOut.view (h : HandedOut v stamp shared file) (w : View) :
    HandedOut v stamp shared (File.view w file).state := by
  have looked := look h.timely w
  have after := viewTimely h.timely w
  generalize File.view w file = outcome at looked after ⊢
  cases looked with
  | found => exact h
  | computed stale =>
    by_cases same : v = w
    · subst same
      have kept := keepViewOwn v file
      obtain ⟨held,before,since,-,-⟩ := h.since
      have newer : stamp < file.stamp := by
        have most := h.timely.newest v held before
        have differ : held.stamp ≠ file.stamp := fun same => stale (currentIff.mpr ⟨held,before,same⟩)
        refine Nat.lt_of_le_of_ne (Nat.le_trans since most) fun same => differ (Stamp.sameCount ?_)
        exact Nat.le_antisymm most (same ▸ since)
      refine ⟨after,?_,_,congrArg Slot.held kept,Nat.le_of_lt newer,?_,fun _ => Nat.ne_of_lt h.used⟩
      · rw [kept]
        exact Nat.lt_succ_of_lt h.used
      · exact fun same => absurd (same ▸ newer) (Nat.lt_irrefl _)
    · have kept := keepViewOther same file
      refine ⟨after,?_,?_⟩
      · rw [kept]
        exact h.used
      · rw [kept]
        exact h.since

theorem HandedOut.replaceRoot (h : HandedOut v stamp shared file) (root : Node) :
    HandedOut v stamp shared (File.replaceRoot root file).state :=
  ⟨replaceTimely h.timely root,h.used,h.since⟩

theorem HandedOut.run (h : HandedOut v stamp shared file) (operations : List Operation) :
    HandedOut v stamp shared (Operation.run operations file).state :=
  @runKeeps file (HandedOut v stamp shared) (fun w _ h => h.view w) (fun root _ h => h.replaceRoot root)
    operations h

theorem HandedOut.again (h : HandedOut v stamp shared file) :
    (file.stamp = stamp → (File.view v file).answer = shared) ∧
      (file.stamp ≠ stamp → ¬ shared.Same (File.view v file).answer) := by
  have looked := look h.timely v
  generalize File.view v file = outcome at looked ⊢
  obtain ⟨held,kept,since,same,apart⟩ := h.since
  cases looked with
  | found again current =>
    cases kept.symm.trans again
    rw [← current]
    exact ⟨same,apart⟩
  | computed stale =>
    refine ⟨fun now => absurd ?_ stale,fun _ => Nat.ne_of_lt h.used⟩
    subst now
    have most := h.timely.newest v held kept
    exact currentIff.mpr ⟨held,kept,Stamp.sameCount (Nat.le_antisymm most since)⟩

end DeclViews.File
