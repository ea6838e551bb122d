import DeclViews.Proofs.Slot.History

/-! What a slot holds in the end. Of all stores that were completed on a slot, in whatever nesting of
computations, it holds the first one among those with the largest stamp; where none was completed it
holds nothing. So its stamp only ever rises, and it does not depend on the order of plain stores. -/
namespace DeclViews.Slot

variable {α : Type} {slot other : Slot α} {stores : List (Stamp × α)}

def supplies (xs : List (Visit α)) : List (Stamp × α) := xs.filterMap Visit.supplied?

@[simp] theorem suppliesOne (past : List (Visit α)) (x : Visit α) :
    supplies (past ++ [x]) = supplies past ++ x.supplied?.toList := by
  rw [supplies,supplies,List.filterMap_append]
  cases supplied : x.supplied? <;> simp [supplied]

def Leads (stores : List (Stamp × α)) (stamp : Stamp) (value : α) : Prop :=
  ∃ earlier later, stores = earlier ++ (stamp,value) :: later ∧
    (∀ own ∈ earlier, own.1 < stamp) ∧ ∀ own ∈ later, own.1 ≤ stamp

theorem Leads.member {stamp : Stamp} {value : α} (leads : Leads stores stamp value) :
    (stamp,value) ∈ stores := by
  obtain ⟨earlier,later,rfl,-,-⟩ := leads
  exact List.mem_append_right earlier List.mem_cons_self

theorem Leads.largest {stamp : Stamp} {value : α} (leads : Leads stores stamp value) :
    ∀ own ∈ stores, own.1 ≤ stamp := by
  obtain ⟨earlier,later,rfl,before,after⟩ := leads
  refine List.forall_mem_append.mpr ⟨fun own member => Nat.le_of_lt (before own member),?_⟩
  exact List.forall_mem_cons.mpr ⟨Nat.le_refl stamp.count,after⟩

theorem Leads.append {stamp : Stamp} {value : α} {more : List (Stamp × α)}
    (leads : Leads stores stamp value) (behind : ∀ own ∈ more, own.1 ≤ stamp) :
    Leads (stores ++ more) stamp value := by
  obtain ⟨earlier,later,rfl,before,after⟩ := leads
  refine ⟨earlier,later ++ more,List.append_assoc _ _ _,before,?_⟩
  exact List.forall_mem_append.mpr ⟨after,behind⟩

structure Settled (stores : List (Stamp × α)) (slot : Slot α) : Prop where
  bare : slot.held = none → stores = []
  leads : ∀ held, slot.held = some held → Leads stores held.stamp held.value.value

theorem settledEmpty : Settled [] (empty : Slot α) := ⟨fun _ => rfl,nofun⟩

theorem Settled.atMost (settled : Settled stores slot) {own : Stamp × α} (member : own ∈ stores) :
    ∃ held, slot.held = some held ∧ own.1 ≤ held.stamp := by
  cases kept : slot.held with
  | none =>
    rw [settled.bare kept] at member
    contradiction
  | some held => exact ⟨held,rfl,(settled.leads held kept).largest own member⟩

theorem Settled.keep (settled : Settled stores slot) {stamp : Stamp} (value : α)
    (newest : ∀ held, slot.held = some held → held.stamp < stamp) :
    Settled (stores ++ [(stamp,value)]) (slot.keep stamp value).2 where
  bare := nofun
  leads held kept := by
    cases Option.some.inj kept
    refine ⟨stores,[],rfl,fun own member => ?_,List.forall_mem_nil _⟩
    obtain ⟨held,kept,most⟩ := settled.atMost member
    exact Nat.lt_of_le_of_lt most (newest held kept)

theorem Settled.behind {held : Held α} {more : List (Stamp × α)} (settled : Settled stores slot)
    (kept : slot.held = some held) (behind : ∀ own ∈ more, own.1 ≤ held.stamp)
    (same : other.held = slot.held) : Settled (stores ++ more) other where
  bare none := nomatch (same.trans kept).symm.trans none
  leads current some := by
    cases (same.trans kept).symm.trans some
    exact (settled.leads held kept).append behind

theorem settledVisit (past : List (Visit α)) (x : Visit α)
    (settled : Settled (supplies past) x.before) : Settled (supplies (past ++ [x])) x.after := by
  rw [suppliesOne]
  cases visitEffect x with
  | misses brought supplied left given =>
    rw [supplied,left,Option.toList_none,List.append_nil]
    exact settled
  | shares kept supplied left given =>
    rw [left]
    refine settled.behind kept (fun own member => ?_) rfl
    exact Nat.le_of_eq (congrArg Stamp.count (supplied own (Option.mem_toList.mp member)))
  | keeps newest supplied left given =>
    rw [supplied,left]
    exact settled.keep _ newest
  | passes kept older supplied left given =>
    rw [supplied,left]
    exact settled.behind kept (List.forall_mem_singleton.mpr (Nat.le_of_lt older)) rfl

theorem settledChain {last : Slot α} {xs : List (Visit α)} (chain : Chain empty xs last) :
    Settled (supplies xs) last := by
  have begun : Settled (supplies ([] : List (Visit α))) (empty : Slot α) := settledEmpty
  exact chain.keeps (fun past slot => Settled (supplies past) slot) settledVisit begun

theorem stampsTrans {a b c : Option Stamp} (first : a ≤ b) (second : b ≤ c) : a ≤ c := by
  cases a with
  | none => exact Option.none_le
  | some a =>
    cases b with
    | none => exact absurd first Option.not_some_le_none
    | some b =>
      cases c with
      | none => exact absurd second Option.not_some_le_none
      | some c =>
        exact Option.some_le_some.mpr
          (Nat.le_trans (Option.some_le_some.mp first) (Option.some_le_some.mp second))

theorem stampsSame (a : Option Stamp) : a ≤ a := by
  cases a with
  | none => exact Option.none_le
  | some a => exact Option.some_le_some.mpr (Nat.le_refl a.count)

theorem visitRaises (x : Visit α) : x.before.stamp? ≤ x.after.stamp? := by
  cases visitEffect x with
  | misses brought supplied left given => rw [left]; exact stampsSame _
  | shares kept supplied left given => rw [left]; exact stampsSame _
  | keeps newest supplied left given =>
    rw [left]
    cases kept : x.before.held with
    | none =>
      rw [stamp?,kept]
      exact Option.none_le
    | some held =>
      rw [stamp?,kept]
      exact Option.some_le_some.mpr (Nat.le_of_lt (newest held kept))
  | passes kept older supplied left given => rw [left]; exact stampsSame _

theorem answerHeld (x : Visit α) : x.answer.held = x.after.stamp? := by
  obtain ⟨slot,step⟩ := x
  cases step with
  | get | store | peek => rfl
  | getOrCompute stamp during value =>
    rw [Visit.answer,Visit.after]
    cases missed : slot.get? stamp with
    | none => rw [performComputed during value missed,Answer.held]
    | some shared => rw [performFound during value missed,Answer.held]

theorem chainRises {last : Slot α} {xs : List (Visit α)} (chain : Chain slot xs last) :
    (∀ x ∈ xs, slot.stamp? ≤ x.after.stamp?) ∧ xs.Pairwise fun x y => x.after.stamp? ≤ y.after.stamp? := by
  induction chain with
  | done => exact ⟨List.forall_mem_nil _,.nil⟩
  | @visit slot last x later starts rest ih =>
    cases starts
    refine ⟨List.forall_mem_cons.mpr ⟨visitRaises x,fun y member => ?_⟩,.cons ih.1 ih.2⟩
    exact stampsTrans (visitRaises x) (ih.1 y member)

def Newest (stores : List (Stamp × α)) (stamp : Stamp) : Prop :=
  (∃ own ∈ stores, own.1 = stamp) ∧ ∀ own ∈ stores, own.1 ≤ stamp

theorem Settled.stampIs (settled : Settled stores slot) (stamp : Stamp) :
    slot.stamp? = some stamp ↔ Newest stores stamp := by
  rw [stamp?,Newest,Option.map_eq_some_iff]
  constructor
  · rintro ⟨held,kept,rfl⟩
    have leads := settled.leads held kept
    exact ⟨⟨_,leads.member,rfl⟩,leads.largest⟩
  · rintro ⟨⟨own,member,rfl⟩,largest⟩
    obtain ⟨held,kept,most⟩ := settled.atMost member
    have least := largest _ (settled.leads held kept).member
    exact ⟨held,kept,Stamp.sameCount (Nat.le_antisymm least most)⟩

def plain (stores : List (Stamp × α)) : List (Step α) := stores.map fun own => .store own.1 own.2

theorem plainSupplies (stores : List (Stamp × α)) (slot : Slot α) :
    supplies (visits slot (plain stores)) = stores := by
  induction stores generalizing slot with
  | nil => rfl
  | cons own rest ih => exact congrArg (own :: ·) (ih _)

theorem plainOrder {others : List (Stamp × α)} (perm : stores.Perm others) :
    (empty.run (plain stores)).2.stamp? = (empty.run (plain others)).2.stamp? := by
  have settled (stores : List (Stamp × α)) : Settled stores (empty.run (plain stores)).2 := by
    have all := settledChain (chainOfRun empty (plain stores))
    rwa [plainSupplies] at all
  apply Option.ext
  intro stamp
  rw [(settled stores).stampIs,(settled others).stampIs]
  simp only [Newest,perm.mem_iff]

theorem holdsFirstOfNewest (steps : List (Step α)) :
    let done := visits empty steps
    let slot := (empty.run steps).2
    (slot.held = none ↔ supplies done = []) ∧
      (∀ held, slot.held = some held → Leads (supplies done) held.stamp held.value.value) ∧
      (∀ stamp, slot.stamp? = some stamp ↔ Newest (supplies done) stamp) ∧
      ((Answer.allInOrder (empty.run steps).1).Pairwise fun a b => a.held ≤ b.held) ∧
      ∀ stores others : List (Stamp × α), stores.Perm others →
        (empty.run (plain stores)).2.stamp? = (empty.run (plain others)).2.stamp? := by
  intro done slot
  have chain := chainOfRun empty steps
  have settled := settledChain chain
  refine ⟨⟨settled.bare,fun none => ?_⟩,settled.leads,settled.stampIs,?_,fun _ _ perm => plainOrder perm⟩
  · cases kept : slot.held with
    | none => rfl
    | some held =>
      have member := (settled.leads held kept).member
      rw [none] at member
      contradiction
  · rw [answersOfRun,List.pairwise_map]
    simpa only [answerHeld] using (chainRises chain).2

theorem lateValuesDropped :
    let first := Stamp.after 1
    let second := Stamp.after 2
    let third := Stamp.after 3
    let steps : List (Step String) :=
      [.store first "a",
        .getOrCompute second [.store first "b",.getOrCompute second [.store third "c"] "d"] "e",
        .store third "f",.peek]
    let done := visits empty steps
    let slot := (empty.run steps).2
    supplies done = [(first,"a"),(first,"b"),(third,"c"),(second,"d"),(second,"e"),(third,"f")] ∧
      slot.held = some ⟨third,⟨1,"c"⟩⟩ ∧ Leads (supplies done) third "c" ∧
      slot.stamp? = some third ∧ Newest (supplies done) third ∧
      ((Answer.allInOrder (empty.run steps).1).Pairwise fun a b => a.held ≤ b.held) ∧
      (empty.run (plain [(first,"a"),(third,"c"),(second,"d")])).2.stamp? =
        (empty.run (plain [(third,"c"),(second,"d"),(first,"a")])).2.stamp? := by
  intro first second third steps done slot
  obtain ⟨-,leads,newest,rises,orders⟩ := holdsFirstOfNewest steps
  have held : slot.held = some ⟨third,⟨1,"c"⟩⟩ := by decide
  have stamp : slot.stamp? = some third := congrArg (Option.map Held.stamp) held
  exact ⟨by decide,held,leads _ held,stamp,(newest third).mp stamp,rises,orders _ _ (by decide)⟩

end DeclViews.Slot
