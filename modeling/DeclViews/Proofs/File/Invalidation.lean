import DeclViews.Proofs.File.Bookkeeping
import DeclViews.Proofs.Node.Cursor

/-! What a replacement makes stale. The snapshot of a file depends on the roots that were put in
place and on nothing that was read. While there is a larger stamp left, a replacement takes it, so
that no slot holds a value of the stamp that the file has from then on and each view is computed
again. The largest stamp is kept by the replacements that come after it: there a view that was
current stays current, and reads of it do not see the new root. -/
namespace DeclViews

theorem Snapshot.advanceStamp (roots : List Node) {snapshot : Snapshot} {replaced : Nat}
    (begun : snapshot.stamp = .after replaced) :
    (roots.foldl advance snapshot).stamp = .after (replaced + roots.length) := by
  induction roots generalizing snapshot replaced with
  | nil => exact begun
  | cons root rest ih =>
    have next : (snapshot.advance root).stamp = .after (replaced + 1) := by
      rw [Stamp.afterNext,← begun]
      rfl
    rw [List.foldl_cons,ih next,List.length_cons,Nat.add_assoc,Nat.add_comm 1]

namespace File

variable {file : File} {v : View}

theorem viewSnapshot (v : View) (file : File) : (view v file).state.snapshot = file.snapshot := by
  unfold view
  dsimp only
  split <;> rfl

theorem askSnapshot (query : Query) (file : File) :
    (query.ask file).state.snapshot = file.snapshot :=
  @looksKeep file (fun after => after.snapshot = file.snapshot)
    (fun v after same => (viewSnapshot v after).trans same) _ _ _ (looksAsk query) rfl

theorem viewCurrent (timely : Timely file) (v : View) : (view v file).state.isCurrent v = true := by
  have looked := look timely v
  generalize view v file = outcome at looked ⊢
  cases looked with
  | found kept current => exact currentIff.mpr ⟨_,kept,current⟩
  | computed => exact (keepViewCurrent v v file).mpr (.inl rfl)

theorem replaceFull (full : file.stamp.count = Stamp.limit) (root : Node) :
    (replaceRoot root file).answer = file.stamp ∧
      ∀ v, (replaceRoot root file).state.isCurrent v = file.isCurrent v := by
  have same : file.stamp.next = file.stamp := Stamp.nextFull full
  refine ⟨same,fun v => ?_⟩
  exact congrArg (fun stamp => (file.slots.get v).stamp? == some stamp) same

theorem viewFull (timely : Timely file) (full : file.stamp.count = Stamp.limit)
    (current : file.isCurrent v = true) (root : Node) :
    let replaced := (replaceRoot root file).state
    view v replaced = ⟨(view v file).answer,replaced,[]⟩ := by
  intro replaced
  have still : replaced.isCurrent v = true := ((replaceFull full root).2 v).trans current
  have before := look timely v
  have after := look (replaceTimely timely root) v
  generalize view v file = outcome at before ⊢
  generalize view v replaced = again at after ⊢
  cases before with
  | computed stale => exact absurd current stale
  | found kept =>
    cases after with
    | computed stale => exact absurd still stale
    | found keptAgain =>
      cases kept.symm.trans keptAgain
      rfl

theorem askComputes {past done : List Reading} (tally : Tally past done file) {query : Query}
    (reads : v ∈ query.views) (unread : (v,file.stamp) ∉ past) :
    Event.computing v file.stamp ∈ (query.ask file).events := by
  obtain ⟨still,-,-⟩ := looksTally (looksAsk query) tally
  have read : (v,file.stamp) ∈ past ++ under file.stamp query.views :=
    List.mem_append_right _ (List.mem_map.mpr ⟨v,reads,rfl⟩)
  rcases List.mem_append.mp ((still.exactly _).mpr read) with before | now
  · exact absurd ((tally.exactly _).mp before) unread
  · obtain ⟨event,told,names⟩ := List.mem_filterMap.mp now
    cases event <;> cases names
    exact told

namespace Operation

theorem runSnapshot (operations : List Operation) (file : File) :
    (run operations file).state.snapshot = (roots operations).foldl Snapshot.advance file.snapshot := by
  induction operations generalizing file with
  | nil => rfl
  | cons operation rest ih =>
    have step : (operation.perform file).state.snapshot =
        operation.root?.toList.foldl Snapshot.advance file.snapshot := by
      cases operation with
      | ask query => exact askSnapshot query file
      | isCurrent v => rfl
      | replaceRoot root => rfl
    rw [(runCons operation rest file).2,ih,step,rootsCons,List.foldl_append]

theorem afterStamp (root : Node) (operations : List Operation) :
    (after root operations).stamp = .after (roots operations).length := by
  have begun : (Snapshot.ofRoot root).stamp = .after 0 := Stamp.afterNone.symm
  have advanced := Snapshot.advanceStamp (roots operations) begun
  rw [Nat.zero_add] at advanced
  exact (congrArg Snapshot.stamp (runSnapshot operations (ofRoot root))).trans advanced

section Quiet

variable {published : List Node} {past done : List Reading} {later : List Operation}
  (quiet : roots later = [])
include quiet

theorem quietSnapshot (file : File) : (run later file).state.snapshot = file.snapshot := by
  rw [runSnapshot,quiet]
  rfl

theorem quietAnswers (coherent : Coherent published file) (query : Query) :
    (query.ask (run later file).state).answer = query.plain file.root := by
  have room : file.stamp.count + (roots later).length ≤ Stamp.limit := by
    rw [quiet]
    exact file.stamp.inRange
  obtain ⟨told,-,-⟩ := askReads query _ _ (runCoherent later coherent room).2
  rw [told,root,root,quietSnapshot quiet]

theorem quietComputes {replaced : Nat} (tally : Tally past done file)
    (begun : file.stamp = .after replaced) (few : replaced ≤ Stamp.limit)
    (unread : (v,file.stamp) ∉ past) (untouched : ∀ operation ∈ later, v ∉ operation.views)
    {query : Query} (reads : v ∈ query.views) :
    Event.computing v file.stamp ∈ (query.ask (run later file).state).events := by
  have stamp : (run later file).state.stamp = file.stamp :=
    congrArg Snapshot.stamp (quietSnapshot quiet file)
  have room : replaced + (roots later).length ≤ Stamp.limit := by
    rw [quiet]
    exact few
  obtain ⟨still,-⟩ := runTally later tally begun room
  rw [← stamp] at unread ⊢
  refine askComputes still reads fun early => ?_
  rcases List.mem_append.mp early with before | since
  · exact unread before
  · obtain ⟨xs,operation,ys,split,again,-⟩ := memReadings.mp since
    exact untouched operation (split ▸ List.mem_append_right _ List.mem_cons_self) again

end Quiet

theorem afterTally (root : Node) {operations : List Operation}
    (few : (roots operations).length ≤ Stamp.limit) :
    ∃ done, Tally (readings 0 operations) done (after root operations) := by
  obtain ⟨tally,-,-,-⟩ :=
    runTally operations (tallyOfRoot root) Stamp.afterNone.symm (Nat.zero_add _ ▸ few)
  exact ⟨_,tally⟩

theorem afterCount (root : Node) {operations : List Operation}
    (few : (roots operations).length ≤ Stamp.limit) :
    (after root operations).stamp.count = (roots operations).length := by
  rw [afterStamp]
  exact Nat.min_eq_left few

theorem replacementRises {root : Node} {before operations : List Operation}
    (earlier : before <+: operations) (room : (roots operations).length < Stamp.limit) (next : Node) :
    (after root before).stamp < (File.replaceRoot next (after root operations)).answer := by
  have fewer : (roots before).length ≤ (roots operations).length := (earlier.filterMap root?).length_le
  have old := afterCount root (Nat.le_trans fewer (Nat.le_of_lt room))
  have last := afterCount root (Nat.le_of_lt room)
  have new : (after root operations).stamp.next.count = (after root operations).stamp.count + 1 :=
    Stamp.nextCount (last ▸ room)
  have above : (after root before).stamp.count < (after root operations).stamp.next.count := by omega
  exact above

theorem replacementInvalidates (root : Node) (operations : List Operation) (next : Node)
    (room : (roots operations).length < Stamp.limit) :
    let replaced := File.replaceRoot next (after root operations)
    (∀ before, before <+: operations → (after root before).stamp < replaced.answer) ∧
      (∀ v, replaced.state.isCurrent v = false) ∧
      ∀ (later : List Operation) (query : Query), roots later = [] →
        let asked := query.ask (run later replaced.state).state
        asked.answer = query.plain next ∧
          ∀ v ∈ query.views, (∀ operation ∈ later, v ∉ operation.views) →
            Event.computing v replaced.answer ∈ asked.events := by
  intro replaced
  have few := Nat.le_of_lt room
  have last : (after root operations).stamp.count < Stamp.limit := afterCount root few ▸ room
  have rises : (after root operations).stamp < replaced.answer :=
    replacementRises (List.prefix_refl operations) room next
  have begun : replaced.answer = .after ((roots operations).length + 1) := by
    rw [Stamp.afterNext,← afterStamp root]
    rfl
  have coherent := replaceCoherent (afterCoherent root few) next last
  obtain ⟨done,before⟩ := afterTally root few
  have tally : Tally (readings 0 operations) done replaced.state := replaceTally before next last
  have unread (v : View) : (v,replaced.answer) ∉ readings 0 operations := fun read =>
    Nat.lt_irrefl _ (Nat.lt_of_lt_of_le rises (before.behind _ read))
  refine ⟨fun before earlier => replacementRises earlier room next,?_,?_⟩
  · intro v
    rw [Bool.eq_false_iff]
    exact fun current => unread v ((tally.current v).mp current)
  · intro later query quiet asked
    refine ⟨quietAnswers quiet coherent query,fun v reads untouched => ?_⟩
    exact quietComputes quiet tally begun room (unread v) untouched reads

theorem returnInvalidates :
    let main : Node := ⟨1,.functionDecl,⟨0,11⟩,⟨1,"func main()"⟩,some ⟨⟨2,"main"⟩,⟨5,9⟩⟩,[]⟩
    let first : Node := ⟨0,.file,⟨0,11⟩,⟨0,"func main()"⟩,none,[main]⟩
    let second : Node := ⟨2,.file,⟨0,0⟩,⟨3,""⟩,none,[]⟩
    let operations := [.ask .outline,.replaceRoot second,.ask (.view .functions)]
    let replaced := File.replaceRoot first (after first operations)
    let later := [.isCurrent .functions,.ask .packageName]
    let asked := Query.ask .entryFunction (run later replaced.state).state
    (roots operations).length < Stamp.limit ∧ (after first operations).stamp < replaced.answer ∧
      replaced.state.isCurrent .functions = false ∧
      asked.answer = Query.plain first .entryFunction ∧
      Event.computing .functions replaced.answer ∈ asked.events := by
  intro main first second operations replaced later asked
  have room : (roots operations).length < Stamp.limit := by decide
  obtain ⟨rises,stale,next⟩ := replacementInvalidates first operations first room
  obtain ⟨answer,computes⟩ := next later .entryFunction rfl
  have untouched : ∀ operation ∈ later, View.functions ∉ operation.views := by decide
  exact ⟨room,rises operations (List.prefix_refl _),stale .functions,answer,
    computes .functions (List.mem_singleton_self _) untouched⟩

theorem lastStampHolds (root next : Node) (v : View) {operations : List Operation}
    (full : (roots operations).length = Stamp.limit) :
    let file := after root (operations ++ [.ask (.view v)])
    let replaced := File.replaceRoot next file
    replaced.answer = file.stamp ∧ replaced.state.isCurrent v = true ∧
      (view v replaced.state).events = [] ∧
      (view v replaced.state).answer.value = v.compute (after root operations).root := by
  intro file replaced
  have reached : file = (view v (after root operations)).state := afterAppend root operations _
  have snapshot : file.snapshot = (after root operations).snapshot := reached ▸ viewSnapshot _ _
  have current : file.isCurrent v = true := reached ▸ viewCurrent (afterTimely root operations) v
  have last : file.stamp.count = Stamp.limit := by
    rw [File.stamp,snapshot,← full]
    exact afterCount root (Nat.le_of_eq full)
  have coherent : Coherent (root :: roots operations) file :=
    reached ▸ (viewCoherent (afterCoherent root (Nat.le_of_eq full)) v).2.2
  have value : (view v file).answer.value = v.compute (after root operations).root := by
    rw [(viewCoherent coherent v).1,File.root,snapshot]
    rfl
  obtain ⟨same,kept⟩ := replaceFull last next
  have read : view v replaced.state = ⟨(view v file).answer,replaced.state,[]⟩ :=
    viewFull (afterTimely root _) last current next
  rw [read]
  exact ⟨same,(kept v).trans current,rfl,value⟩

def givenAgain (times : Nat) (root : Node) : List Operation := List.replicate times (.replaceRoot root)

theorem rootsGivenAgain (times : Nat) (root : Node) :
    roots (givenAgain times root) = List.replicate times root := List.filterMap_replicate_of_some rfl

theorem rootGivenAgain {times : Nat} (few : times ≤ Stamp.limit) (root : Node) :
    (after root (givenAgain times root)).root = root := by
  have same := rootsGivenAgain times root
  have length : (roots (givenAgain times root)).length = times := by rw [same,List.length_replicate]
  have published := List.mem_of_getElem? (afterCoherent root (length.trans_le few)).root
  rw [same,← List.replicate_succ] at published
  exact List.eq_of_mem_replicate published

/- The file has been given its root as often as there are stamps. A replacement after that is not told
apart from the one before, and a view of the old root is read as one of the new root. The number of
times is a variable, so that it is nowhere counted down. -/
theorem staleAtLastStamp {first second : Node} {v : View} {times : Nat} (full : times = Stamp.limit)
    (differ : v.compute first ≠ v.compute second) :
    let file := after first (givenAgain times first ++ [.ask (.view v)])
    let replaced := File.replaceRoot second file
    ¬ file.stamp < replaced.answer ∧ replaced.state.isCurrent v = true ∧
      (view v replaced.state).events = [] ∧
      (view v replaced.state).answer.value ≠ v.compute second := by
  intro file replaced
  have length : (roots (givenAgain times first)).length = Stamp.limit := by
    rw [rootsGivenAgain,List.length_replicate,full]
  obtain ⟨same,current,silent,value⟩ := lastStampHolds first second v length
  rw [rootGivenAgain (Nat.le_of_eq full)] at value
  refine ⟨?_,current,silent,fun seen => differ (value.symm.trans seen)⟩
  rw [same]
  exact Nat.lt_irrefl _

theorem lastStampStale :
    let main : Node := ⟨1,.functionDecl,⟨0,11⟩,⟨1,"func main()"⟩,some ⟨⟨2,"main"⟩,⟨5,9⟩⟩,[]⟩
    let first : Node := ⟨0,.file,⟨0,11⟩,⟨0,"func main()"⟩,none,[main]⟩
    let second : Node := ⟨2,.file,⟨0,0⟩,⟨3,""⟩,none,[]⟩
    let file := after first (givenAgain Stamp.limit first ++ [.ask (.view .functions)])
    let replaced := File.replaceRoot second file
    ¬ file.stamp < replaced.answer ∧ replaced.state.isCurrent .functions = true ∧
      (view .functions replaced.state).events = [] ∧
      (view .functions replaced.state).answer.value ≠ View.functions.compute second := by
  intro main first second
  have differ : View.functions.compute first ≠ View.functions.compute second := by
    simp only [View.compute,declarations,Node.transparentSplice]
    exact List.cons_ne_nil _ _
  exact staleAtLastStamp rfl differ

end Operation
end File
end DeclViews
