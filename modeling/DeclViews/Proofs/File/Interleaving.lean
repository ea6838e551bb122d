import DeclViews.Proofs.File.Coherence

/-! Reads that overlap with other reads and with replacements. A read of a view takes a snapshot,
asks the slot, computes the view of its snapshot if the slot has nothing for it, and stores what it
has computed; between any two of these steps other readers and writers may do any number of theirs.
Still no slot ever holds a view of another root than the one of its stamp, and each read gives the
view of its own snapshot, after at most three turns. -/
namespace DeclViews.File

inductive Phase (v : View) where
  | looking
  | missed
  | computed (value : v.Value)
  | returned (shared : Shared v.Value)

def Phase.left {v : View} : Phase v → Nat
  | .looking => 3
  | .missed => 2
  | .computed _ => 1
  | .returned _ => 0

structure Read where
  view : View
  snapshot : Snapshot
  phase : Phase view

namespace Read

def start (v : View) : Action File Read := fun file => ⟨⟨v,file.snapshot,.looking⟩,file,[]⟩

def turn : Read → Action File Read
  | ⟨v,snapshot,.looking⟩ => fun file =>
    match (file.slots.get v).get? snapshot.stamp with
    | some shared => ⟨⟨v,snapshot,.returned shared⟩,file,[]⟩
    | none => ⟨⟨v,snapshot,.missed⟩,file,[]⟩
  | ⟨v,snapshot,.missed⟩ => fun file =>
    ⟨⟨v,snapshot,.computed (v.compute snapshot.root)⟩,
      { file with computations := file.computations + 1 },[.computing v snapshot.stamp]⟩
  | ⟨v,snapshot,.computed value⟩ => fun file =>
    let (shared,slot) := (file.slots.get v).store snapshot.stamp value
    ⟨⟨v,snapshot,.returned shared⟩,{ file with slots := file.slots.set v slot },[]⟩
  | ⟨v,snapshot,.returned shared⟩ => fun file => ⟨⟨v,snapshot,.returned shared⟩,file,[]⟩

theorem alone (v : View) (file : File) :
    (start v >>= turn >>= turn >>= turn) file =
      ⟨⟨v,file.snapshot,.returned (File.view v file).answer⟩,(File.view v file).state,
        (File.view v file).events⟩ := by
  simp only [Action.bindRun,start,turn,File.view,Slot.getOrCompute]
  cases looked : (file.slots.get v).get? file.snapshot.stamp <;> rfl

def left (read : Read) : Nat := read.phase.left

theorem turnKeeps (read : Read) (file : File) :
    (read.turn file).answer.snapshot = read.snapshot ∧
      (read.turn file).answer.left ≤ read.left - 1 ∧
      (read.turn file).state.snapshot = file.snapshot := by
  obtain ⟨v,snapshot,phase⟩ := read
  cases phase with
  | looking =>
    unfold turn
    dsimp only
    split
    · exact ⟨rfl,Nat.zero_le _,rfl⟩
    · exact ⟨rfl,Nat.le_refl _,rfl⟩
  | missed => exact ⟨rfl,Nat.le_refl _,rfl⟩
  | computed value => exact ⟨rfl,Nat.le_refl _,rfl⟩
  | returned shared => exact ⟨rfl,Nat.le_refl _,rfl⟩

/- What a read has seen and computed belongs to a root that was published under its stamp. -/
structure Right (published : List Node) (read : Read) : Prop where
  seen : published[read.snapshot.stamp.count]? = some read.snapshot.root
  computed : ∀ value, read.phase = .computed value →
    value = read.view.compute read.snapshot.root
  returned : ∀ shared, read.phase = .returned shared →
    shared.value = read.view.compute read.snapshot.root

variable {published : List Node} {file : File} {read : Read}

theorem Right.more (right : Right published read) (roots : List Node) :
    Right (published ++ roots) read := by
  have inside := (List.getElem?_eq_some_iff.mp right.seen).1
  exact ⟨(List.getElem?_append_left inside).trans right.seen,right.computed,right.returned⟩

theorem Right.viewOf {value : read.view.Value} (right : Right published read)
    (of : ViewOf published read.view read.snapshot.stamp value) :
    value = read.view.compute read.snapshot.root := by
  obtain ⟨root,found,same⟩ := of
  cases Option.some.inj (found.symm.trans right.seen)
  exact same

theorem startRight (coherent : Coherent published file) (v : View) :
    Right published (start v file).answer := ⟨coherent.root,nofun,nofun⟩

/- A slot that is asked under a stamp may hold a newer value by the time of the store: what is given
then is the value that was computed, and what the slot holds is left. -/
theorem turnRight (coherent : Coherent published file) (right : Right published read) :
    Right published (read.turn file).answer ∧ Coherent published (read.turn file).state := by
  obtain ⟨v,snapshot,phase⟩ := read
  cases phase with
  | looking =>
    unfold turn
    dsimp only
    split
    · rename_i shared found
      have value := right.viewOf (Slot.getRight (coherent.held v) found)
      refine ⟨⟨right.seen,nofun,fun given same => ?_⟩,coherent⟩
      cases same
      exact value
    · exact ⟨⟨right.seen,nofun,nofun⟩,coherent⟩
  | missed =>
    refine ⟨⟨right.seen,fun value same => ?_,nofun⟩,coherent.count,coherent.root,coherent.held⟩
    cases same
    rfl
  | computed value =>
    have own : ViewOf published v snapshot.stamp value :=
      ⟨snapshot.root,right.seen,right.computed value rfl⟩
    obtain ⟨given,kept⟩ := Slot.storeRight (coherent.held v) own
    refine ⟨⟨right.seen,nofun,fun shared same => ?_⟩,coherent.set kept⟩
    cases same
    exact right.viewOf given
  | returned shared => exact ⟨right,coherent⟩

end Read

structure Scene where
  file : File
  reads : List Read

inductive Move where
  | replaceRoot (root : Node)
  | start (view : View)
  | turn (read : Nat)

namespace Move

def perform : Move → Action Scene Unit
  | .replaceRoot root => fun scene =>
    let outcome := File.replaceRoot root scene.file
    ⟨(),{ scene with file := outcome.state },outcome.events⟩
  | .start v => fun scene =>
    let outcome := Read.start v scene.file
    ⟨(),⟨outcome.state,scene.reads ++ [outcome.answer]⟩,outcome.events⟩
  | .turn place => fun scene =>
    match scene.reads[place]? with
    | none => ⟨(),scene,[]⟩
    | some read =>
      let outcome := read.turn scene.file
      ⟨(),⟨outcome.state,scene.reads.set place outcome.answer⟩,outcome.events⟩

def run : List Move → Action Scene Unit
  | [] => return ()
  | move :: rest => do
    move.perform
    run rest

def root? : Move → Option Node
  | .replaceRoot root => some root
  | .start _ | .turn _ => none

def roots (moves : List Move) : List Node := moves.filterMap root?

def isTurn (place : Nat) : Move → Bool
  | .turn other => other == place
  | .replaceRoot _ | .start _ => false

end Move

namespace Scene
open Move (roots)

def ofRoot (root : Node) : Scene := ⟨.ofRoot root,[]⟩

def after (scene : Scene) (moves : List Move) : Scene := (Move.run moves scene).state

variable {published : List Node} {scene : Scene}

structure Right (published : List Node) (scene : Scene) : Prop where
  file : Coherent published scene.file
  reads : ∀ read ∈ scene.reads, read.Right published

theorem rightOfRoot (root : Node) : Right [root] (ofRoot root) :=
  ⟨coherentOfRoot root,List.forall_mem_nil _⟩

theorem Right.tagged (right : Right published scene) (v : View) (held : Held v.Value)
    (kept : (scene.file.slots.get v).held = some held) :
    held.stamp ≤ scene.file.stamp ∧ ViewOf published v held.stamp held.value.value := by
  obtain ⟨root,found,same⟩ := right.file.held v held kept
  have inside := (List.getElem?_eq_some_iff.mp found).1
  exact ⟨Nat.le_of_lt_succ (Nat.lt_of_lt_of_eq inside right.file.count),root,found,same⟩

theorem performRight (right : Right published scene) (move : Move)
    (room : scene.file.stamp.count + move.root?.toList.length ≤ Stamp.limit) :
    Right (published ++ move.root?.toList) (move.perform scene).state := by
  cases move with
  | replaceRoot root =>
    exact ⟨replaceCoherent right.file root room,fun read member => (right.reads read member).more _⟩
  | start v =>
    rw [Move.root?,Option.toList_none,List.append_nil]
    refine ⟨right.file,List.forall_mem_append.mpr ⟨right.reads,?_⟩⟩
    exact List.forall_mem_singleton.mpr (Read.startRight right.file v)
  | turn place =>
    rw [Move.root?,Option.toList_none,List.append_nil]
    unfold Move.perform
    dsimp only
    split
    · exact right
    · rename_i read found
      obtain ⟨turned,file⟩ :=
        Read.turnRight right.file (right.reads read (List.mem_of_getElem? found))
      refine ⟨file,fun other member => ?_⟩
      rcases List.mem_or_eq_of_mem_set member with old | rfl
      · exact right.reads other old
      · exact turned

theorem afterRight (right : Right published scene) (moves : List Move)
    (room : scene.file.stamp.count + (roots moves).length ≤ Stamp.limit) :
    Right (published ++ roots moves) (scene.after moves) := by
  induction moves generalizing published scene with
  | nil =>
    rw [roots,List.filterMap_nil,List.append_nil]
    exact right
  | cons move rest ih =>
    rw [roots,selectCons,List.length_append] at room
    have next := performRight right move (by omega)
    have counted := right.file.counted next.file
    rw [roots,selectCons,← List.append_assoc]
    exact ih next (by rw [roots]; omega)

theorem getAppendOne {reads : List Read} {new read : Read} {place : Nat}
    (found : (reads ++ [new])[place]? = some read) : reads[place]? = some read ∨ read = new := by
  rcases Nat.lt_or_ge place reads.length with inside | outside
  · rw [List.getElem?_append_left inside] at found
    exact .inl found
  · rw [List.getElem?_append_right outside] at found
    exact .inr (List.mem_singleton.mp (List.mem_of_getElem? found))

structure Since (count floor : Nat) (scene : Scene) : Prop where
  file : floor ≤ scene.file.stamp.count
  reads : ∀ place read, count ≤ place → scene.reads[place]? = some read →
    floor ≤ read.snapshot.stamp.count

theorem performSince {count floor : Nat} (since : Since count floor scene) (move : Move) :
    Since count floor (move.perform scene).state := by
  cases move with
  | replaceRoot root => exact ⟨Nat.le_trans since.file (Stamp.leNext _),since.reads⟩
  | start v =>
    refine ⟨since.file,fun place read above found => ?_⟩
    obtain old | rfl := getAppendOne found
    · exact since.reads place read above old
    · exact since.file
  | turn turned =>
    unfold Move.perform
    dsimp only
    split
    · exact since
    · rename_i read found
      obtain ⟨sameRead,-,sameFile⟩ := read.turnKeeps scene.file
      refine ⟨?_,fun place other above there => ?_⟩
      · rw [stamp,sameFile]
        exact since.file
      · dsimp only at there
        rw [List.getElem?_set] at there
        split at there
        · rename_i same
          cases same
          split at there
          · cases Option.some.inj there
            rw [sameRead]
            exact since.reads turned read above found
          · contradiction
        · exact since.reads place other above there

theorem afterSince {count floor : Nat} (since : Since count floor scene) (moves : List Move) :
    Since count floor (scene.after moves) := by
  induction moves generalizing scene with
  | nil => exact since
  | cons move rest ih => exact ih (performSince since move)

theorem sinceNow (scene : Scene) : Since scene.reads.length scene.file.stamp.count scene where
  file := Nat.le_refl _
  reads place read above found := by
    rw [List.getElem?_eq_none above] at found
    contradiction

theorem Right.lateView {count floor : Nat} (right : Right published scene)
    (since : Since count floor scene) {place : Nat} {read : Read} (above : count ≤ place)
    (found : scene.reads[place]? = some read) {shared : Shared read.view.Value}
    (returned : read.phase = .returned shared) :
    ∃ latest ∈ published.drop floor, shared.value = read.view.compute latest := by
  have sound := right.reads read (List.mem_of_getElem? found)
  refine ⟨read.snapshot.root,?_,sound.returned shared returned⟩
  apply List.mem_of_getElem?
  rw [List.getElem?_drop,Nat.add_sub_cancel' (since.reads place read above found)]
  exact sound.seen

theorem performBrings {place : Nat} {read : Read} (found : scene.reads[place]? = some read)
    (move : Move) : ∃ later, (move.perform scene).state.reads[place]? = some later ∧
      later.left ≤ read.left - if move.isTurn place then 1 else 0 := by
  have inside := (List.getElem?_eq_some_iff.mp found).1
  cases move with
  | replaceRoot root => exact ⟨read,found,Nat.le_refl _⟩
  | start v => exact ⟨read,(List.getElem?_append_left inside).trans found,Nat.le_refl _⟩
  | turn turned =>
    rw [Move.isTurn]
    unfold Move.perform
    dsimp only
    by_cases same : turned = place
    · cases same
      rw [found]
      refine ⟨_,List.getElem?_set_self inside,?_⟩
      rw [if_pos (beq_self_eq_true place)]
      exact (read.turnKeeps scene.file).2.1
    · rw [if_neg (fun equal => same (eq_of_beq equal))]
      refine ⟨read,?_,Nat.le_refl _⟩
      split
      · exact found
      · exact (List.getElem?_set_ne same).trans found

theorem afterBrings {place : Nat} {read : Read} (found : scene.reads[place]? = some read)
    (moves : List Move) : ∃ later, (scene.after moves).reads[place]? = some later ∧
      later.left ≤ read.left - moves.countP (Move.isTurn place) := by
  induction moves generalizing scene read with
  | nil => exact ⟨read,found,Nat.le_refl _⟩
  | cons move rest ih =>
    obtain ⟨next,there,fewer⟩ := performBrings found move
    obtain ⟨later,final,least⟩ := ih there
    refine ⟨later,final,?_⟩
    rw [List.countP_cons]
    omega

theorem returnedOfNoneLeft {read : Read} (none : read.left = 0) :
    ∃ shared, read.phase = .returned shared := by
  obtain ⟨v,snapshot,phase⟩ := read
  cases phase with
  | looking | missed | computed => contradiction
  | returned shared => exact ⟨shared,rfl⟩

theorem leftAtMost (read : Read) : read.left ≤ 3 := by
  obtain ⟨v,snapshot,phase⟩ := read
  cases phase with
  | looking => exact Nat.le_refl 3
  | missed => exact Nat.le_succ 2
  | computed value => exact Nat.le_add_left 1 2
  | returned shared => exact Nat.zero_le 3

theorem threeTurnsReturn {place : Nat} (inside : place < scene.reads.length) (moves : List Move)
    (turns : 3 ≤ moves.countP (Move.isTurn place)) :
    ∃ read shared, (scene.after moves).reads[place]? = some read ∧
      read.phase = .returned shared := by
  obtain ⟨read,there,least⟩ := afterBrings (List.getElem?_eq_getElem inside) moves
  have most := leftAtMost scene.reads[place]
  have none : read.left = 0 := by omega
  obtain ⟨shared,returned⟩ := returnedOfNoneLeft none
  exact ⟨read,shared,there,returned⟩

/- Whatever comes between the turns of the reads, every slot holds nothing or the view of the root of
its stamp, and every read gives the view of the root that it has seen. After some moves, what begins
gives a view of the root that was put in place last by then or of a later one; and what has begun
gives its view once it has had three more turns. -/
theorem readsNeverTorn (root : Node) (before later : List Move)
    (few : (roots (before ++ later)).length ≤ Stamp.limit) :
    let between := (ofRoot root).after before
    let scene := between.after later
    let published := root :: roots (before ++ later)
    published[scene.file.stamp.count]? = some scene.file.root ∧
      (∀ v held, (scene.file.slots.get v).held = some held →
        held.stamp ≤ scene.file.stamp ∧ ViewOf published v held.stamp held.value.value) ∧
      (∀ read ∈ scene.reads, published[read.snapshot.stamp.count]? = some read.snapshot.root ∧
        ∀ shared, read.phase = .returned shared →
          shared.value = read.view.compute read.snapshot.root) ∧
      (∀ place read shared, between.reads.length ≤ place → scene.reads[place]? = some read →
        read.phase = .returned shared → ∃ latest ∈ published.drop (roots before).length,
          shared.value = read.view.compute latest) ∧
      ∀ place, place < between.reads.length → 3 ≤ later.countP (Move.isTurn place) →
        ∃ read shared, scene.reads[place]? = some read ∧ read.phase = .returned shared := by
  intro between scene published
  have split : roots (before ++ later) = roots before ++ roots later := List.filterMap_append
  rw [split,List.length_append] at few
  have started : (ofRoot root).file.stamp.count = 0 := rfl
  have half : Right ([root] ++ roots before) between :=
    afterRight (rightOfRoot root) before (by omega)
  have counted : between.file.stamp.count = (roots before).length := by
    have count := half.file.count
    rw [List.length_append,List.length_singleton] at count
    omega
  have right : Right published scene := by
    have whole := afterRight half later (by omega)
    rw [List.append_assoc,← split] at whole
    exact whole
  have since : Since between.reads.length (roots before).length scene := by
    have now := afterSince (sinceNow between) later
    rwa [counted] at now
  refine ⟨right.file.root,right.tagged,fun read member => ?_,?_,?_⟩
  · exact ⟨(right.reads read member).seen,(right.reads read member).returned⟩
  · exact fun place read shared above found returned => right.lateView since above found returned
  · exact fun place inside turns => threeTurnsReturn inside later turns

/- The first read misses before the root is replaced and stores after the second read has: it still
gives the view of the first root, and the slot keeps that of the second. -/
theorem lateStoreHarmless :
    let main : Node := ⟨1,.functionDecl,⟨0,11⟩,⟨1,"func main()"⟩,some ⟨⟨2,"main"⟩,⟨5,9⟩⟩,[]⟩
    let first : Node := ⟨0,.file,⟨0,11⟩,⟨0,"func main()"⟩,none,[main]⟩
    let second : Node := ⟨2,.file,⟨0,0⟩,⟨3,""⟩,none,[]⟩
    let before (root : Node) : List Move := [.start .functions,.turn 0,.replaceRoot root]
    let later : List Move := [.start .functions,.turn 1,.turn 0,.turn 1,.turn 1,.turn 0,.turn 0]
    (roots (before second ++ later)).length ≤ Stamp.limit ∧ 3 ≤ later.countP (Move.isTurn 0) ∧
      ∃ scene old new, scene = ((ofRoot first).after (before second)).after later ∧
        scene.reads =
          [⟨.functions,⟨.initial,first⟩,.returned old⟩,⟨.functions,⟨.after 1,second⟩,.returned new⟩] ∧
        old.value = View.functions.compute first ∧ new.value = View.functions.compute second ∧
        (scene.file.slots.get .functions).held = some ⟨.after 1,new⟩ ∧
        ∃ read shared, scene.reads[0]? = some read ∧ read.phase = .returned shared := by
  intro main first second before later
  have few : (roots (before second ++ later)).length ≤ Stamp.limit := by decide
  have turns : 3 ≤ later.countP (Move.isTurn 0) := by decide
  obtain ⟨-,-,own,-,ends⟩ := readsNeverTorn first (before second) later few
  have ended (a b : Node) : (((ofRoot a).after (before b)).after later).reads =
        [⟨.functions,⟨.initial,a⟩,.returned ⟨1,View.functions.compute a⟩⟩,
          ⟨.functions,⟨.after 1,b⟩,.returned ⟨0,View.functions.compute b⟩⟩] ∧
      ((((ofRoot a).after (before b)).after later).file.slots.get .functions).held =
        some ⟨.after 1,⟨0,View.functions.compute b⟩⟩ := by
    dsimp only [before,later]
    constructor <;> cbv
  obtain ⟨both,held⟩ := ended first second
  have begun : 0 < ((ofRoot first).after (before second)).reads.length := Nat.one_pos
  rw [both] at own
  obtain ⟨old,others⟩ := List.forall_mem_cons.mp own
  have new := List.forall_mem_singleton.mp others
  refine ⟨few,turns,_,_,_,rfl,both,?_,?_,held,ends 0 begun turns⟩
  · exact old.2 _ rfl
  · exact new.2 _ rfl

end Scene
end DeclViews.File
