import DeclViews.Proofs.File.Coherence
import DeclViews.Proofs.File.Look
import Mathlib.Data.Finset.Card

/-! What a file says of its own work. A reading is a view with the stamp it was read under. Whatever
was asked and in whichever order, a view is computed under a stamp at the first reading of the two
and never again: the count, the events, the views that are current and the allocations that are
handed out all tell of the same readings. -/
namespace DeclViews

abbrev Reading := View × Stamp

def Event.computing? : Event → Option Reading
  | .computing view stamp => some (view,stamp)
  | _ => none

def Event.replaced? : Event → Option Stamp
  | .rootReplaced stamp => some stamp
  | _ => none

def computed (events : List Event) : List Reading := events.filterMap Event.computing?

def replacements (events : List Event) : List Stamp := events.filterMap Event.replaced?

@[simp] theorem computedAppend (xs ys : List Event) : computed (xs ++ ys) = computed xs ++ computed ys :=
  List.filterMap_append

@[simp] theorem replacementsAppend (xs ys : List Event) :
    replacements (xs ++ ys) = replacements xs ++ replacements ys := List.filterMap_append

namespace File

variable {α : Type} {file : File} {past done : List Reading}

def Operation.views : Operation → List View
  | .ask query => query.views
  | .isCurrent _ | .replaceRoot _ => []

def Reply.stamp? : Reply → Option Stamp
  | .replaced stamp => some stamp
  | .answered _ _ | .current _ => none

def under (stamp : Stamp) (views : List View) : List Reading := views.map fun v => (v,stamp)

theorem underAppend (stamp : Stamp) (xs ys : List View) :
    under stamp (xs ++ ys) = under stamp xs ++ under stamp ys := List.map_append

structure Tally (past done : List Reading) (file : File) : Prop where
  timely : Timely file
  behind : ∀ reading ∈ past, reading.2 ≤ file.stamp
  current : ∀ v, file.isCurrent v = true ↔ (v,file.stamp) ∈ past
  exactly : ∀ reading, reading ∈ done ↔ reading ∈ past
  once : done.Nodup
  ordered : done.Pairwise fun a b => a.2 ≤ b.2
  counted : file.computations = UInt64.ofNat done.length

theorem tallyOfRoot (root : Node) : Tally [] [] (ofRoot root) where
  timely := timelyOfRoot root
  behind := List.forall_mem_nil _
  current v := by cases v <;> simp [isCurrent,ofRoot,Slots.empty,Slots.get,Slot.empty,Slot.stamp?]
  exactly _ := Iff.rfl
  once := .nil
  ordered := .nil
  counted := rfl

theorem Tally.again (h : Tally past done file) {v : View} (current : file.isCurrent v = true) :
    Tally (past ++ [(v,file.stamp)]) done file := by
  have known : (v,file.stamp) ∈ past := (h.current v).mp current
  have same (reading : Reading) : reading ∈ past ++ [(v,file.stamp)] ↔ reading ∈ past := by
    rw [List.mem_append,List.mem_singleton]
    exact ⟨fun either => either.elim id fun new => new ▸ known,.inl⟩
  exact {
    timely := h.timely
    behind := fun reading member => h.behind reading ((same reading).mp member)
    current := fun w => (h.current w).trans (same _).symm
    exactly := fun reading => (h.exactly reading).trans (same reading).symm
    once := h.once
    ordered := h.ordered
    counted := h.counted }

theorem Tally.first (h : Tally past done file) {v : View} (stale : ¬ file.isCurrent v = true) :
    Tally (past ++ [(v,file.stamp)]) (done ++ [(v,file.stamp)]) (keepView v file) := by
  have unread : (v,file.stamp) ∉ past := fun member => stale ((h.current v).mpr member)
  have uncomputed : (v,file.stamp) ∉ done := fun member => unread ((h.exactly _).mp member)
  exact {
    timely := keepViewTimely h.timely v
    behind := List.forall_mem_append.mpr ⟨h.behind,List.forall_mem_singleton.mpr (Nat.le_refl _)⟩
    current := fun w => by
      have stamp : (keepView v file).stamp = file.stamp := rfl
      rw [keepViewCurrent,h.current,stamp,List.mem_append,List.mem_singleton,Prod.mk.injEq,or_comm]
      simp
    exactly := fun reading => by rw [List.mem_append,List.mem_append,h.exactly]
    once := by
      rw [List.nodup_append]
      refine ⟨h.once,List.nodup_singleton _,?_⟩
      rintro a inside b single rfl
      exact uncomputed (List.mem_singleton.mp single ▸ inside)
    ordered := by
      rw [List.pairwise_append]
      refine ⟨h.ordered,List.pairwise_singleton _ _,?_⟩
      rintro a inside b single
      rw [List.mem_singleton.mp single]
      exact h.behind a ((h.exactly a).mp inside)
    counted := by
      have counted : (keepView v file).computations = file.computations + 1 := rfl
      rw [counted,h.counted,List.length_append,List.length_singleton,UInt64.ofNat_add]
      rfl }

theorem looksTally {action : Action File α} {views : List View} (looks : Looks action views)
    (h : Tally past done file) :
    Tally (past ++ under file.stamp views) (done ++ computed (action file).events)
      (action file).state ∧
    (action file).state.snapshot = file.snapshot ∧ replacements (action file).events = [] := by
  induction looks generalizing past done file with
  | view v =>
    have looked := look h.timely v
    generalize view v file = outcome at looked ⊢
    cases looked with
    | found kept current =>
      rw [show computed [] = [] from rfl,List.append_nil]
      exact ⟨h.again (currentIff.mpr ⟨_,kept,current⟩),rfl,rfl⟩
    | computed stale => exact ⟨h.first stale,rfl,rfl⟩
  | pure answer =>
    rw [show under file.stamp [] = [] from rfl,List.append_nil]
    rw [Action.pureRun,show computed [] = [] from rfl,List.append_nil]
    exact ⟨h,rfl,rfl⟩
  | @bind _ _ first rest xs ys before after ihBefore ihAfter =>
    obtain ⟨between,kept,silent⟩ := ihBefore h
    obtain ⟨still,keptAgain,silentAgain⟩ := ihAfter (first file).answer between
    have stamp : (first file).state.stamp = file.stamp := congrArg Snapshot.stamp kept
    rw [stamp,List.append_assoc,List.append_assoc] at still
    rw [Action.bindRun,underAppend,computedAppend,replacementsAppend,silent,silentAgain]
    exact ⟨still,keptAgain.trans kept,rfl⟩

theorem replaceTally (h : Tally past done file) (root : Node)
    (room : file.stamp.count < Stamp.limit) : Tally past done (replaceRoot root file).state := by
  have above : file.stamp < file.stamp.next := Nat.lt_of_lt_of_eq (Nat.lt_succ_self _) (Stamp.nextCount room).symm
  exact {
    timely := replaceTimely h.timely root
    behind := fun reading member => Nat.le_trans (h.behind reading member) (Stamp.leNext file.stamp)
    current := fun v => by
      constructor
      · intro current
        obtain ⟨held,kept,same⟩ := currentIff.mp current
        have old : held.stamp ≤ file.stamp := h.timely.newest v held kept
        rw [same] at old
        exact absurd (Nat.lt_of_lt_of_le above old) (Nat.lt_irrefl _)
      · intro member
        exact absurd (Nat.lt_of_lt_of_le above (h.behind _ member)) (Nat.lt_irrefl _)
    exactly := h.exactly
    once := h.once
    ordered := h.ordered
    counted := h.counted }

namespace Operation

def readings (replaced : Nat) : List Operation → List Reading
  | [] => []
  | operation :: rest => under (.after replaced) operation.views ++
      readings (replaced + operation.root?.toList.length) rest

def stamps (replies : List Reply) : List Stamp := replies.filterMap Reply.stamp?

variable {replaced : Nat}

theorem performTally (h : Tally past done file) (begun : file.stamp = .after replaced)
    (operation : Operation) (room : replaced + operation.root?.toList.length ≤ Stamp.limit) :
    Tally (past ++ under (.after replaced) operation.views)
      (done ++ computed (operation.perform file).events) (operation.perform file).state ∧
    (operation.perform file).state.stamp = .after (replaced + operation.root?.toList.length) ∧
    replacements (operation.perform file).events = (operation.perform file).answer.stamp?.toList ∧
    (operation.perform file).answer.stamp? =
      operation.root?.map fun _ => .after (replaced + 1) := by
  rw [← begun]
  cases operation with
  | ask q =>
    obtain ⟨tally,kept,silent⟩ := looksTally ((looksAsk q).bind fun answer =>
      .pure (Reply.answered q answer)) h
    rw [List.append_nil] at tally
    exact ⟨tally,(congrArg Snapshot.stamp kept).trans begun,silent,rfl⟩
  | isCurrent v =>
    refine ⟨?_,begun,rfl,rfl⟩
    simpa [under,views,computed,perform] using h
  | replaceRoot root =>
    have below : file.stamp.count < Stamp.limit := by
      rw [begun]
      exact Nat.lt_of_le_of_lt (Nat.min_le_left _ _) room
    have next : file.stamp.next = .after (replaced + 1) := by rw [begun,Stamp.afterNext]
    have silent : computed (perform (.replaceRoot root) file).events = [] := rfl
    refine ⟨?_,next,rfl,congrArg some next⟩
    rw [silent,show under file.stamp (views (.replaceRoot root)) = [] from rfl,List.append_nil,
      List.append_nil]
    exact replaceTally h root below

theorem runEvents (operation : Operation) (rest : List Operation) (file : File) :
    (run (operation :: rest) file).events =
      (operation.perform file).events ++ (run rest (operation.perform file).state).events := by
  simp [run]

theorem runTally (operations : List Operation) (h : Tally past done file)
    (begun : file.stamp = .after replaced)
    (room : replaced + (roots operations).length ≤ Stamp.limit) :
    Tally (past ++ readings replaced operations) (done ++ computed (run operations file).events)
      (run operations file).state ∧
    (run operations file).state.stamp = .after (replaced + (roots operations).length) ∧
    replacements (run operations file).events = stamps (run operations file).answer ∧
    stamps (run operations file).answer =
      (List.range' (replaced + 1) (roots operations).length).map Stamp.after := by
  induction operations generalizing past done file replaced with
  | nil =>
    rw [readings,List.append_nil,show computed (run [] file).events = [] from rfl,List.append_nil]
    exact ⟨h,begun,rfl,rfl⟩
  | cons operation rest ih =>
    rw [rootsCons,List.length_append] at room
    obtain ⟨tally,stamp,told,answer⟩ := performTally h begun operation (by omega)
    obtain ⟨still,last,toldAfter,counted⟩ := ih tally stamp (by omega)
    obtain ⟨replies,state⟩ := runCons operation rest file
    have named : stamps (run (operation :: rest) file).answer =
        (operation.perform file).answer.stamp?.toList ++
          stamps (run rest (operation.perform file).state).answer := by
      rw [replies,stamps,selectCons,stamps]
    rw [runEvents,computedAppend,replacementsAppend,state,readings,rootsCons,List.length_append]
    refine ⟨?_,?_,?_,?_⟩
    · rw [List.append_assoc,List.append_assoc] at still
      exact still
    · rw [last,Nat.add_assoc]
    · rw [told,toldAfter,named]
    · rw [named,counted,answer]
      cases operation.root? with
      | none => simp
      | some root => simp [Nat.add_comm 1,List.range'_succ]

theorem memReadings {operations : List Operation} {v : View} {stamp : Stamp} :
    (v,stamp) ∈ readings replaced operations ↔
      ∃ before operation later, operations = before ++ operation :: later ∧
        v ∈ operation.views ∧ stamp = .after (replaced + (roots before).length) := by
  induction operations generalizing replaced with
  | nil => simp [readings]
  | cons first rest ih =>
    rw [readings,List.mem_append,ih]
    constructor
    · rintro (here | ⟨before,operation,later,rfl,reads,rfl⟩)
      · obtain ⟨w,reads,same⟩ := List.mem_map.mp here
        cases same
        exact ⟨[],first,rest,rfl,reads,rfl⟩
      · refine ⟨first :: before,operation,later,rfl,reads,?_⟩
        rw [rootsCons,List.length_append,Nat.add_assoc]
    · rintro ⟨before,operation,later,split,reads,rfl⟩
      cases before with
      | nil =>
        obtain ⟨rfl,rfl⟩ := List.cons.inj split
        exact .inl (List.mem_map.mpr ⟨v,reads,rfl⟩)
      | cons head before =>
        obtain ⟨rfl,rfl⟩ := List.cons.inj split
        refine .inr ⟨before,operation,later,rfl,reads,?_⟩
        rw [rootsCons,List.length_append,Nat.add_assoc]

theorem readsNoRoot {operation : Operation} {v : View} (reads : v ∈ operation.views) :
    operation.root? = none := by
  cases operation with
  | ask q => rfl
  | isCurrent w => rfl
  | replaceRoot root => contradiction

theorem readLast {operations : List Operation} {v : View}
    (few : (roots operations).length ≤ Stamp.limit) :
    (v,Stamp.after (roots operations).length) ∈ readings 0 operations ↔
      ∃ before operation later, operations = before ++ operation :: later ∧
        v ∈ operation.views ∧ roots later = [] := by
  rw [memReadings]
  constructor
  · rintro ⟨before,operation,later,rfl,reads,same⟩
    refine ⟨before,operation,later,rfl,reads,?_⟩
    have counts := congrArg Stamp.count same
    simp only [roots,List.filterMap_append,List.filterMap_cons,readsNoRoot reads,List.length_append,
      Stamp.after] at counts few
    rw [roots,← List.length_eq_zero_iff]
    omega
  · rintro ⟨before,operation,later,rfl,reads,none⟩
    refine ⟨before,operation,later,rfl,reads,?_⟩
    rw [roots] at none
    simp [roots,readsNoRoot reads,none]

theorem afterTimely (root : Node) (operations : List Operation) : Timely (after root operations) :=
  runTimely operations (timelyOfRoot root)

theorem sharedWhileCurrent (root : Node) (v : View) (before between : List Operation) :
    let first := after root before
    let second := after root (before ++ .ask (.view v) :: between)
    (second.stamp = first.stamp → (view v second).answer = (view v first).answer) ∧
      (second.stamp ≠ first.stamp → ¬ (view v first).answer.Same (view v second).answer) := by
  intro first second
  have begun := (viewHandsOut (afterTimely root before) v).run between
  have run : second = (run between (view v first).state).state := afterAppend root before _
  rw [run]
  exact begun.again

structure Booked (root : Node) (operations : List Operation) (outcome : Outcome File (List Reply)) :
    Prop where
  once : (computed outcome.events).Nodup
  exactly : ∀ reading, reading ∈ computed outcome.events ↔ reading ∈ readings 0 operations
  ordered : (computed outcome.events).Pairwise fun a b => a.2 ≤ b.2
  counted : (computed outcome.events).length < UInt64.size →
    outcome.state.computations.toNat = (readings 0 operations).toFinset.card
  told : replacements outcome.events = stamps outcome.answer
  stamped : stamps outcome.answer = (List.range' 1 (roots operations).length).map Stamp.after
  current : ∀ v, outcome.state.isCurrent v = true ↔
    ∃ before operation later, operations = before ++ operation :: later ∧
      v ∈ operation.views ∧ roots later = []
  shared : ∀ v before between later,
    operations = before ++ .ask (.view v) :: (between ++ .ask (.view v) :: later) →
    let first := after root before
    let second := after root (before ++ .ask (.view v) :: between)
    (second.stamp = first.stamp → (view v second).answer = (view v first).answer) ∧
      (second.stamp ≠ first.stamp → ¬ (view v first).answer.Same (view v second).answer)

theorem computedOncePerStamp (root : Node) (operations : List Operation)
    (few : (roots operations).length ≤ Stamp.limit) :
    Booked root operations (run operations (ofRoot root)) := by
  obtain ⟨tally,stamp,told,stamped⟩ :=
    runTally operations (tallyOfRoot root) Stamp.afterNone.symm (Nat.zero_add _ ▸ few)
  rw [List.nil_append,List.nil_append] at tally
  rw [Nat.zero_add] at stamp
  refine {
    once := tally.once
    exactly := tally.exactly
    ordered := tally.ordered
    told := told
    stamped := stamped
    counted := ?_
    current := ?_
    shared := fun v before between _ _ => sharedWhileCurrent root v before between }
  · intro room
    have same : (computed (run operations (ofRoot root)).events).toFinset =
        (readings 0 operations).toFinset := by
      ext reading
      rw [List.mem_toFinset,List.mem_toFinset]
      exact tally.exactly reading
    rw [← same,List.toFinset_card_of_nodup tally.once,tally.counted]
    exact Nat.mod_eq_of_lt room
  · intro v
    rw [tally.current,stamp]
    exact readLast few

theorem mixedReadsBooked :
    let main : Node := ⟨1,.functionDecl,⟨0,11⟩,⟨1,"func main()"⟩,some ⟨⟨2,"main"⟩,⟨5,9⟩⟩,[]⟩
    let root : Node := ⟨0,.file,⟨0,11⟩,⟨0,"func main()"⟩,none,[main]⟩
    let operations := [.ask .entryFunction,.ask .outline,.ask (.view .functions),.isCurrent .vars,
      .replaceRoot root,.isCurrent .functions,.ask .packageName,.ask (.view .functions)]
    (roots operations).length ≤ Stamp.limit ∧ (readings 0 operations).length = 11 ∧
      (readings 0 operations).toFinset.card = 9 ∧
      Booked root operations (run operations (ofRoot root)) := by
  intro main root operations
  have few : (roots operations).length ≤ Stamp.limit := by decide
  exact ⟨few,rfl,by decide,computedOncePerStamp root operations few⟩

end Operation
end File
end DeclViews
