import DeclViews.Proofs.File.Operation
import DeclViews.Slot.Program

/-! What a slot may hold. A property of stamps and values is kept by a slot when the value it holds
has the property under its stamp. Storing a value that has it keeps it, whichever of the two values
stays, and every answer under a stamp then has it under that stamp. So memoised files answer as
files that keep nothing. The roots that a file has had stand in a list, the first one first; a stamp
counts replacements, so it is the place of its root in the list. A file is coherent with the list
when each slot holds nothing or the view of the root of its own stamp. Reads keep that, and so do
replacements as long as the stamps last. -/
namespace DeclViews.Slot

variable {α : Type} {Right : Stamp → α → Prop} {slot : Slot α} {stamp : Stamp} {value : α}

def Keeps (Right : Stamp → α → Prop) (slot : Slot α) : Prop :=
  ∀ held, slot.held = some held → Right held.stamp held.value.value

theorem keepsEmpty : (empty : Slot α).Keeps Right := nofun

theorem getRight {shared : Shared α} (keeps : slot.Keeps Right)
    (found : slot.get? stamp = some shared) : Right stamp shared.value := by
  obtain ⟨held,current,same⟩ := Option.map_eq_some_iff.mp found
  obtain ⟨kept,current⟩ := Option.filter_eq_some_iff.mp current
  cases same
  cases eq_of_beq current
  exact keeps held kept

theorem keepRight (right : Right stamp value) :
    Right stamp (slot.keep stamp value).1.value ∧ (slot.keep stamp value).2.Keeps Right := by
  refine ⟨right,?_⟩
  intro held kept
  cases Option.some.inj kept
  exact right

theorem storeRight (keeps : slot.Keeps Right) (right : Right stamp value) :
    Right stamp (slot.store stamp value).1.value ∧ (slot.store stamp value).2.Keeps Right := by
  unfold store
  split
  · exact keepRight right
  · rename_i held kept
    split
    · rename_i same
      exact ⟨same ▸ keeps held kept,keeps⟩
    · split
      · exact ⟨right,keeps⟩
      · exact keepRight right

theorem getOrComputeRight {β : Type} (told : β) (keeps : slot.Keeps Right) (right : Right stamp value) :
    Right stamp (slot.getOrCompute stamp fun slot => (told,value,slot)).2.1.value ∧
      (slot.getOrCompute stamp fun slot => (told,value,slot)).2.2.Keeps Right := by
  unfold getOrCompute
  split
  · rename_i found
    exact ⟨getRight keeps found,keeps⟩
  · exact storeRight keeps right

end DeclViews.Slot

namespace DeclViews.File

variable {α β : Type} {published : List Node} {file : File}

def ViewOf (published : List Node) (v : View) (stamp : Stamp) (value : v.Value) : Prop :=
  ∃ root, published[stamp.count]? = some root ∧ value = v.compute root

structure Coherent (published : List Node) (file : File) : Prop where
  count : published.length = file.stamp.count + 1
  root : published[file.stamp.count]? = some file.root
  held : ∀ v, (file.slots.get v).Keeps (ViewOf published v)

theorem coherentOfRoot (root : Node) : Coherent [root] (ofRoot root) where
  count := rfl
  root := rfl
  held v := by
    have bare : (ofRoot root).slots.get v = .empty := Slots.getEmpty v
    rw [bare]
    exact Slot.keepsEmpty

theorem Coherent.counted {more : List Node} {next : File} (h : Coherent published file)
    (after : Coherent (published ++ more) next) :
    next.stamp.count = file.stamp.count + more.length := by
  have count := after.count
  rw [List.length_append,h.count] at count
  omega

theorem Coherent.computed {v : View} {value : v.Value} (h : Coherent published file)
    (of : ViewOf published v file.stamp value) : value = v.compute file.root := by
  obtain ⟨root,found,same⟩ := of
  cases Option.some.inj (found.symm.trans h.root)
  exact same

theorem Coherent.set {v : View} {slot : Slot v.Value} {computations : UInt64}
    (h : Coherent published file) (kept : slot.Keeps (ViewOf published v)) :
    Coherent published { file with slots := file.slots.set v slot, computations } where
  count := h.count
  root := h.root
  held w := by
    by_cases same : w = v
    · cases same
      simpa using kept
    · simpa [same] using h.held w

theorem viewCoherent (h : Coherent published file) (v : View) :
    (view v file).answer.value = v.compute file.root ∧
      (view v file).state.snapshot = file.snapshot ∧ Coherent published (view v file).state := by
  have right : ViewOf published v file.stamp (v.compute file.root) := ⟨file.root,h.root,rfl⟩
  obtain ⟨answer,kept⟩ :=
    Slot.getOrComputeRight (Event.computing v file.stamp) (h.held v) right
  have value := h.computed answer
  unfold view
  cases outcome : (file.slots.get v).getOrCompute file.snapshot.stamp fun slot =>
      (Event.computing v file.snapshot.stamp,v.compute file.snapshot.root,slot) with
  | mk told rest =>
    obtain ⟨shared,slot⟩ := rest
    rw [stamp,root,outcome] at value kept
    dsimp only
    rw [outcome]
    cases told with
    | none => exact ⟨value,rfl,h⟩
    | some event => exact ⟨value,rfl,h.set kept⟩

def Reads (action : Action File α) (Tells : Node → α → Prop) : Prop :=
  ∀ published file, Coherent published file →
    Tells file.root (action file).answer ∧ (action file).state.snapshot = file.snapshot ∧
      Coherent published (action file).state

theorem readsView (v : View) : Reads (view v) fun root shared => shared.value = v.compute root :=
  fun _ _ coherent => viewCoherent coherent v

theorem readsPure {Tells : Node → α → Prop} {answer : α} (tells : ∀ root, Tells root answer) :
    Reads (pure answer) Tells := fun _ _ coherent => ⟨tells _,rfl,coherent⟩

theorem Reads.bind {first : Action File α} {rest : α → Action File β}
    {Told : Node → α → Prop} {Tells : Node → β → Prop} (before : Reads first Told)
    (after : ∀ a, Reads (rest a) fun root b => Told root a → Tells root b) :
    Reads (first >>= rest) Tells := by
  intro published file coherent
  obtain ⟨told,kept,between⟩ := before published file coherent
  obtain ⟨tells,keptAgain,still⟩ :=
    after (first file).answer published (first file).state between
  have root : (first file).state.root = file.root := congrArg Snapshot.root kept
  rw [root] at tells
  exact ⟨tells told,keptAgain.trans kept,still⟩

theorem packageReads : Reads package fun root clause => clause = packageClause? root :=
  (readsView .package).bind fun _ => readsPure fun _ told => told

theorem askReads (q : Query) : Reads q.ask fun root answer => answer = q.plain root := by
  cases q with
  | view v =>
    refine (readsView v).bind fun shared => readsPure ?_
    intro root told
    exact told
  | packageName =>
    refine packageReads.bind fun clause => readsPure ?_
    intro root told
    rw [told]
    rfl
  | importMap =>
    refine (readsView .imports).bind fun shared => readsPure ?_
    intro root told
    rw [told]
    rfl
  | entryFunction =>
    refine (readsView .functions).bind fun shared => readsPure ?_
    intro root told
    rw [told]
    rfl
  | outline =>
    refine (readsView .package).bind fun package => (readsView .imports).bind fun imports =>
      (readsView .functions).bind fun functions => (readsView .methods).bind fun methods =>
      (readsView .types).bind fun types => (readsView .vars).bind fun vars =>
      (readsView .consts).bind fun consts => readsPure ?_
    intro root consts vars types methods functions imports package
    refine congrArg Outline.ofViews (funext fun v => ?_)
    cases v <;> assumption

@[simp] theorem outlineOfRoot (root : Node) :
    (outline (ofRoot root)).answer = Outline.ofViews (View.compute root) :=
  (askReads .outline [root] (ofRoot root) (coherentOfRoot root)).1

/- Slots are left as they are: what they hold stands under the stamps of roots that came before. -/
theorem replaceCoherent (coherent : Coherent published file) (root : Node)
    (room : file.stamp.count < Stamp.limit) :
    Coherent (published ++ [root]) (replaceRoot root file).state := by
  have counted : (replaceRoot root file).state.stamp.count = file.stamp.count + 1 :=
    Stamp.nextCount room
  refine ⟨?_,?_,?_⟩
  · rw [counted,List.length_append,coherent.count]
    rfl
  · rw [counted,← coherent.count,List.getElem?_concat_length]
    rfl
  · intro v held kept
    obtain ⟨earlier,found,same⟩ := coherent.held v held kept
    have inside := (List.getElem?_eq_some_iff.mp found).1
    exact ⟨earlier,(List.getElem?_append_left inside).trans found,same⟩

namespace Operation

theorem runCons (operation : Operation) (rest : List Operation) (file : File) :
    (run (operation :: rest) file).answer =
        (operation.perform file).answer :: (run rest (operation.perform file).state).answer ∧
      (run (operation :: rest) file).state = (run rest (operation.perform file).state).state :=
  ⟨rfl,rfl⟩

theorem performCoherent (coherent : Coherent published file) (operation : Operation)
    (room : file.stamp.count + operation.root?.toList.length ≤ Stamp.limit) :
    Coherent (published ++ operation.root?.toList) (operation.perform file).state := by
  cases operation with
  | ask query =>
    obtain ⟨-,-,still⟩ := askReads query published file coherent
    rw [root?,Option.toList_none,List.append_nil]
    exact still
  | isCurrent view =>
    rw [root?,Option.toList_none,List.append_nil]
    exact coherent
  | replaceRoot root => exact replaceCoherent coherent root room

theorem performAnswers (coherent : Coherent published file) (operation : Operation)
    (rest : List Operation) :
    plainAnswers file.root (operation :: rest) =
      (operation.perform file).answer.answer? ::
        plainAnswers (operation.perform file).state.root rest := by
  cases operation with
  | ask query =>
    obtain ⟨told,kept,-⟩ := askReads query published file coherent
    have reply : (perform (.ask query) file).answer = .answered query (query.ask file).answer := rfl
    have root : (perform (.ask query) file).state.root = file.root := congrArg Snapshot.root kept
    rw [reply,told,root]
    rfl
  | isCurrent view => rfl
  | replaceRoot root => rfl

theorem runCoherent (operations : List Operation) (coherent : Coherent published file)
    (room : file.stamp.count + (roots operations).length ≤ Stamp.limit) :
    (run operations file).answer.map Reply.answer? = plainAnswers file.root operations ∧
      Coherent (published ++ roots operations) (run operations file).state := by
  induction operations generalizing published file with
  | nil =>
    refine ⟨rfl,?_⟩
    rw [roots,List.filterMap_nil,List.append_nil]
    exact coherent
  | cons operation rest ih =>
    rw [rootsCons,List.length_append] at room
    have next := performCoherent coherent operation (by omega)
    have counted := coherent.counted next
    obtain ⟨answers,still⟩ := ih next (by omega)
    obtain ⟨replies,state⟩ := runCons operation rest file
    refine ⟨?_,?_⟩
    · rw [replies,List.map_cons,answers,performAnswers coherent]
    · rw [state,rootsCons,← List.append_assoc]
      exact still

theorem afterCoherent (root : Node) {operations : List Operation}
    (few : (roots operations).length ≤ Stamp.limit) :
    Coherent (root :: roots operations) (after root operations) := by
  have begun : (ofRoot root).stamp.count = 0 := rfl
  exact (runCoherent operations (coherentOfRoot root) (by omega)).2

/- The number of replacements is that of the stamps: one more, and two roots share the last. -/
theorem answersPlain (root : Node) (operations : List Operation)
    (few : (roots operations).length ≤ Stamp.limit) :
    (run operations (ofRoot root)).answer.map Reply.answer? = plainAnswers root operations := by
  have room : (ofRoot root).stamp.count + (roots operations).length ≤ Stamp.limit := by
    rw [show (ofRoot root).stamp.count = 0 from rfl,Nat.zero_add]
    exact few
  exact (runCoherent operations (coherentOfRoot root) room).1

theorem answersPlainAfterReturn :
    let main : Node := ⟨1,.functionDecl,⟨0,11⟩,⟨1,"func main()"⟩,some ⟨⟨2,"main"⟩,⟨5,9⟩⟩,[]⟩
    let first : Node := ⟨0,.file,⟨0,11⟩,⟨0,"func main()"⟩,none,[main]⟩
    let second : Node := ⟨2,.file,⟨0,0⟩,⟨3,""⟩,none,[]⟩
    let operations := [.ask .entryFunction,.ask .outline,.isCurrent .functions,.replaceRoot second,
      .ask .entryFunction,.replaceRoot first,.ask .packageName,.ask .entryFunction]
    (roots operations).length ≤ Stamp.limit ∧
      (run operations (ofRoot first)).answer.map Reply.answer? =
        [some ⟨.entryFunction,Query.plain first .entryFunction⟩,
          some ⟨.outline,Query.plain first .outline⟩,none,none,
          some ⟨.entryFunction,Query.plain second .entryFunction⟩,none,
          some ⟨.packageName,Query.plain first .packageName⟩,
          some ⟨.entryFunction,Query.plain first .entryFunction⟩] := by
  intro main first second operations
  have few : (roots operations).length ≤ Stamp.limit := by decide
  exact ⟨few,answersPlain first operations few⟩

end Operation
end DeclViews.File
