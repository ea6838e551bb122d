import DeclViews.Proofs.Atom.Origin
import Mathlib.Data.Finset.Card
import Mathlib.Data.Finset.Dedup

/-! Which atoms of a run share an allocation. Those that come from one origin do: an atom and all
that share it, the atoms that are made of one held text, and the atoms of one text in one table,
with all that share them. No others do, so an atom that has the allocation of another one has its
text too, and a table has as many atoms as it has been given different texts. -/
namespace DeclViews.Atom.Pool

variable {pool : Pool} {step : Step} {texts : List String} {steps : List Step} {i : Nat}
  {text : String} {origin : Origin} {owners : List Origin}

def Step.textIn? (table : Nat) : Step → Option String
  | .intern index text => if index = table then some text else none
  | _ => none

def textsIn (table : Nat) (steps : List Step) : List String := steps.filterMap (·.textIn? table)

theorem memTexts {table : Nat} : text ∈ textsIn table steps ↔ .intern table text ∈ steps := by
  rw [textsIn,List.mem_filterMap]
  constructor
  · rintro ⟨step,member,found⟩
    cases step with
    | intern index own =>
      simp only [Step.textIn?,Option.ite_none_right_eq_some,Option.some.injEq] at found
      rw [← found.1,← found.2]
      exact member
    | make | wrap | share => contradiction
  · exact fun member => ⟨_,member,by simp [Step.textIn?]⟩

section Run

variable {j : Nat} {a b : Atom} (owned : Owned texts steps pool owners)
include owned

theorem Owned.sameIff (left : pool.atoms[i]? = some a) (right : pool.atoms[j]? = some b) :
    a.Same b ↔ ∃ origin, ComesFrom texts steps i origin ∧ ComesFrom texts steps j origin := by
  obtain ⟨origin,one⟩ := owned.atoms i a left
  obtain ⟨other,two⟩ := owned.atoms j b right
  constructor
  · intro same
    have owner := one.owner
    rw [same,two.owner] at owner
    cases Option.some.inj owner
    exact ⟨_,one.comes,two.comes⟩
  · rintro ⟨own,first,second⟩
    cases first.unique one.comes
    cases second.unique two.comes
    exact owned.oneKey one.owner two.owner

theorem Owned.textOf (there : pool.atoms[i]? = some a) (comes : ComesFrom texts steps i origin) :
    a.value = origin.text := by
  obtain ⟨own,rooted⟩ := owned.atoms i a there
  rw [comes.unique rooted.comes,rooted.text]

theorem Owned.sameText (left : a ∈ pool.atoms) (right : b ∈ pool.atoms) (same : a.Same b) :
    a.value = b.value := by
  obtain ⟨i,one⟩ := Array.mem_iff_getElem?.mp left
  obtain ⟨j,two⟩ := Array.mem_iff_getElem?.mp right
  obtain ⟨origin,first,second⟩ := (owned.sameIff one two).mp same
  rw [owned.textOf one first,owned.textOf two second]

theorem Owned.oneTable {index : Nat} {other : String} (left : pool.atoms[i]? = some a)
    (right : pool.atoms[j]? = some b) (first : ComesFrom texts steps i (.entry index text))
    (second : ComesFrom texts steps j (.entry index other)) : a.Same b ↔ a.value = b.value := by
  constructor
  · exact owned.sameText (Array.mem_of_getElem? left) (Array.mem_of_getElem? right)
  · intro same
    rw [owned.textOf left first,owned.textOf right second] at same
    cases same
    exact (owned.sameIff left right).mpr ⟨_,first,second⟩

theorem Owned.atomOf (there : steps[i]? = some step) : ∃ a, pool.atoms[i]? = some a := by
  have inside := (List.getElem?_eq_some_iff.mp there).1
  rw [← owned.count] at inside
  exact ⟨_,Array.getElem?_eq_getElem inside⟩

theorem Owned.entryIff {index : Nat} : .entry index text ∈ owners ↔ .intern index text ∈ steps := by
  constructor
  · exact owned.given _
  · intro member
    obtain ⟨i,step⟩ := List.mem_iff_getElem?.mp member
    obtain ⟨a,there⟩ := owned.atomOf step
    obtain ⟨origin,rooted⟩ := owned.atoms i a there
    cases rooted.comes.unique (.interned step)
    exact List.mem_of_getElem? rooted.owner

theorem Owned.wrapped {index : Nat} (held : pool.held[index]? = some b) (left : pool.atoms[i]? = some a) :
    a.Same b ↔ ComesFrom texts steps i (.held index b.value) := by
  obtain ⟨origin,rooted⟩ := owned.atoms i a left
  obtain ⟨-,owner⟩ := owned.held index b held
  constructor
  · intro same
    have own := rooted.owner
    rw [same,owner] at own
    cases Option.some.inj own
    exact rooted.comes
  · intro comes
    cases comes.unique rooted.comes
    exact owned.oneKey rooted.owner owner

theorem Owned.tableSize {index : Nat} {table : Table} (there : pool.tables[index]? = some table) :
    table.size = (textsIn index steps).toFinset.card := by
  have indexed := owned.tables index table there
  have distinct : (table.atoms.map (·.value)).Nodup := by
    refine indexed.single.map_on ?_
    rintro ⟨key,value⟩ left ⟨other,_⟩ right rfl
    have one := (indexed.entries _).mp left
    have two := (indexed.entries _).mp right
    cases owned.oneKey one two
    rfl
  have listed : ∀ text, text ∈ table.atoms.map (·.value) ↔ text ∈ textsIn index steps := by
    intro text
    rw [memTexts,← owned.entryIff,List.mem_map]
    constructor
    · rintro ⟨a,listed,rfl⟩
      exact List.mem_of_getElem? ((indexed.entries a).mp listed)
    · intro member
      obtain ⟨key,owner⟩ := List.mem_iff_getElem?.mp member
      exact ⟨⟨key,text⟩,(indexed.entries _).mpr owner,rfl⟩
  rw [Table.size,← List.length_map,← List.toFinset_card_of_nodup distinct]
  congr 1
  ext text
  rw [List.mem_toFinset,List.mem_toFinset,listed]

end Run

theorem ComesFrom.unshared {j : Nat} (left : ComesFrom texts steps i origin)
    (right : ComesFrom texts steps j origin) (apart : i ≠ j)
    (first : ∀ earlier, steps[i]? ≠ some (.share earlier))
    (second : ∀ earlier, steps[j]? ≠ some (.share earlier)) :
    (∃ index text, steps[i]? = some (.intern index text) ∧ steps[j]? = some (.intern index text)) ∨
      ∃ index, steps[i]? = some (.wrap index) ∧ steps[j]? = some (.wrap index) := by
  cases left with
  | made step =>
    cases right with
    | made => contradiction
    | shared again => exact absurd again (second _)
  | wrapped step =>
    cases right with
    | wrapped again => exact .inr ⟨_,step,again⟩
    | shared again => exact absurd again (second _)
  | interned step =>
    cases right with
    | interned again => exact .inl ⟨_,_,step,again⟩
    | shared again => exact absurd again (second _)
  | shared step => exact absurd step (first _)

structure Traced (texts : List String) (count : Nat) (steps : List Step) (pool : Pool) : Prop where
  atoms : pool.atoms.size = steps.length
  origins : ∀ i a, pool.atoms[i]? = some a →
    ∃ origin, ComesFrom texts steps i origin ∧ a.value = origin.text
  same : ∀ i j a b, pool.atoms[i]? = some a → pool.atoms[j]? = some b →
    (a.Same b ↔ ∃ origin, ComesFrom texts steps i origin ∧ ComesFrom texts steps j origin)
  equal : ∀ a ∈ pool.atoms, ∀ b ∈ pool.atoms, (a.Same b → a.value = b.value) ∧
    (a.alike b = true ↔ a.value = b.value) ∧ (a.order b = .eq ↔ a.value = b.value)
  interned : ∀ (i : Nat) index text, steps[i]? = some (.intern index text) →
    ∃ a, pool.atoms[i]? = some a ∧ a.value = text
  oneTable : ∀ i j index s t a b, ComesFrom texts steps i (.entry index s) →
    ComesFrom texts steps j (.entry index t) → pool.atoms[i]? = some a → pool.atoms[j]? = some b →
    (a.Same b ↔ a.value = b.value)
  apart : ∀ (i j : Nat) a b, pool.atoms[i]? = some a → pool.atoms[j]? = some b → i ≠ j → a.Same b →
    (∀ earlier, steps[i]? ≠ some (.share earlier)) →
    (∀ earlier, steps[j]? ≠ some (.share earlier)) →
    (∃ index text, steps[i]? = some (.intern index text) ∧ steps[j]? = some (.intern index text)) ∨
      ∃ index, steps[i]? = some (.wrap index) ∧ steps[j]? = some (.wrap index)
  held : pool.held.map (·.value) = texts
  wrapped : ∀ i index a (b : Atom), pool.atoms[i]? = some a → pool.held[index]? = some b →
    (a.Same b ↔ ComesFrom texts steps i (.held index b.value))
  tables : pool.tables.size = count
  sizes : ∀ index table, pool.tables[index]? = some table →
    table.size = (textsIn index steps).toFinset.card

theorem Owned.equal {a b : Atom} (owned : Owned texts steps pool owners) (left : a ∈ pool.atoms)
    (right : b ∈ pool.atoms) : a.alike b = true ↔ a.value = b.value := by
  rw [alike,Bool.or_eq_true,beq_iff_eq,beq_iff_eq]
  exact or_iff_right_of_imp (owned.sameText left right)

theorem sharedByOrigin (texts : List String) (count : Nat) (steps : List Step) :
    ((∃ pool, (withHeld texts count).run? steps = some pool) ↔ Runnable texts.length count 0 steps) ∧
    ∀ pool, (withHeld texts count).run? steps = some pool → Traced texts count steps pool := by
  constructor
  · have runnable := runKnown (withHeld texts count) steps
    rw [withHeld,List.length_mapIdx,Array.size_replicate] at runnable
    exact runnable
  · intro pool ran
    obtain ⟨owners,owned⟩ := runOwned ran (ownedStart texts count)
    obtain ⟨held,tables⟩ := runFixed ran
    rw [List.nil_append] at owned
    exact {
      atoms := owned.count
      origins := by
        intro i a there
        obtain ⟨origin,rooted⟩ := owned.atoms i a there
        exact ⟨origin,rooted.comes,rooted.text⟩
      same := fun i j a b => owned.sameIff
      equal := fun a left b right =>
        ⟨owned.sameText left right,owned.equal left right,Std.compare_eq_iff_eq⟩
      interned := by
        intro i index text step
        obtain ⟨a,there⟩ := owned.atomOf step
        exact ⟨a,there,owned.textOf there (.interned step)⟩
      oneTable := fun i j index s t a b first second left right =>
        owned.oneTable left right first second
      apart := by
        intro i j a b left right apart same first second
        obtain ⟨origin,one,two⟩ := (owned.sameIff left right).mp same
        exact one.unshared two apart first second
      held := by
        rw [held]
        exact List.ext_getElem? fun index => by simp [withHeld,Function.comp_def]
      wrapped := fun i index a b left held => owned.wrapped held left
      tables := by simpa [withHeld] using tables
      sizes := fun index table => owned.tableSize }

theorem oneTextManyAtoms :
    let steps : List Step := [.intern 0 "err",.make "err",.intern 1 "err",.share 2,.intern 1 "größe",
      .share 3,.wrap 0,.intern 0 "err",.make "",.wrap 0]
    ∃ pool, (withHeld ["err"] 2).run? steps = some pool ∧ Runnable 1 2 0 steps ∧
      pool.held.map (·.key) = [0] ∧ pool.atoms.toList.map (·.key) = [1,2,3,3,4,3,0,1,5,0] ∧
      pool.tables.toList.map Table.size = [1,2] ∧ Traced ["err"] 2 steps pool := by
  intro steps
  obtain ⟨runs,traced⟩ := sharedByOrigin ["err"] 2 steps
  exact ⟨_,rfl,runs.mp ⟨_,rfl⟩,rfl,rfl,rfl,traced _ rfl⟩

/- Both atoms of a held text are in its allocation, though neither is shared from the other. -/
theorem heldTextShared :
    let steps : List Step := [.wrap 0,.wrap 0]
    ∃ pool a b, (withHeld ["err"] 0).run? steps = some pool ∧ pool.atoms[0]? = some a ∧
      pool.atoms[1]? = some b ∧ a.Same b ∧ ∀ earlier, .share earlier ∉ steps :=
  ⟨_,_,_,rfl,rfl,rfl,rfl,by simp⟩

end DeclViews.Atom.Pool
