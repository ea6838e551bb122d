import DeclViews.Atom.Pool
import Mathlib.Data.List.Nodup

/-! Where the allocations of atoms come from. A step makes an allocation or takes an atom that is
there, so each atom of a run goes back to an origin: the step that has made it by itself, the held
text that it was made of, or the entry of its text in a table. An atom that shares another one has
the origin of that. Every allocation belongs to one origin and every origin has one allocation, so
two atoms share an allocation when they come from one origin and only then. -/
namespace DeclViews.Atom
namespace Pool

variable {pool after : Pool} {step : Step} {atom : Atom} {steps : List Step}

inductive Effect (pool : Pool) : Step → Atom → Pool → Prop where
  | make (text : String) : Effect pool (.make text) ⟨pool.supply.next,text⟩
      { pool with
        supply := ⟨pool.supply.next + 1⟩, atoms := pool.atoms.push ⟨pool.supply.next,text⟩ }
  | wrap {index atom} (there : pool.held[index]? = some atom) :
      Effect pool (.wrap index) atom { pool with atoms := pool.atoms.push atom }
  | share {index atom} (there : pool.atoms[index]? = some atom) :
      Effect pool (.share index) atom { pool with atoms := pool.atoms.push atom }
  | known {index table text atom} (there : pool.tables[index]? = some table)
      (found : table.find? text = some atom) :
      Effect pool (.intern index text) atom { pool with atoms := pool.atoms.push atom }
  | enter {index table text} (there : pool.tables[index]? = some table)
      (absent : table.find? text = none) :
      Effect pool (.intern index text) ⟨pool.supply.next,text⟩
        { pool with
          supply := ⟨pool.supply.next + 1⟩, atoms := pool.atoms.push ⟨pool.supply.next,text⟩
          tables := pool.tables.setIfInBounds index ⟨⟨pool.supply.next,text⟩ :: table.atoms⟩ }

theorem tablesKept {index : Nat} {table : Table} (there : pool.tables[index]? = some table) :
    pool.tables.setIfInBounds index table = pool.tables := by
  apply Array.ext_getElem?
  intro other
  rw [Array.getElem?_setIfInBounds]
  split
  · rename_i same
    have inside := (Array.getElem?_eq_some_iff.mp there).1
    rw [if_pos inside,← same,there]
  · rfl

theorem stepEffect (result : pool.step? step = some (atom,after)) : Effect pool step atom after := by
  cases step with
  | make text =>
    cases Option.some.inj result
    exact .make text
  | wrap index =>
    obtain ⟨there,found,last⟩ := Option.bind_eq_some_iff.mp result
    cases Option.some.inj last
    exact .wrap found
  | share index =>
    obtain ⟨there,found,last⟩ := Option.bind_eq_some_iff.mp result
    cases Option.some.inj last
    exact .share found
  | intern index text =>
    obtain ⟨table,there,last⟩ := Option.bind_eq_some_iff.mp result
    cases found : table.find? text with
    | some known =>
      simp only [Table.intern,found,tablesKept there] at last
      cases Option.some.inj last
      exact .known there found
    | none =>
      simp only [Table.intern,found] at last
      cases Option.some.inj last
      exact .enter there found

def Step.Known (held tables atoms : Nat) : Step → Prop
  | .make _ => True
  | .wrap index => index < held
  | .share index => index < atoms
  | .intern index _ => index < tables

def Runnable (held tables atoms : Nat) : List Step → Prop
  | [] => True
  | step :: rest => step.Known held tables atoms ∧ Runnable held tables (atoms + 1) rest

structure Grows (pool after : Pool) : Prop where
  held : after.held = pool.held
  tables : after.tables.size = pool.tables.size
  atoms : after.atoms.size = pool.atoms.size + 1

theorem effectGrows (effect : Effect pool step atom after) : Grows pool after := by
  cases effect <;> exact ⟨rfl,by simp,by simp⟩

theorem stepKnown : (∃ made, pool.step? step = some made) ↔
    step.Known pool.held.length pool.tables.size pool.atoms.size := by
  rw [← Option.isSome_iff_exists]
  cases step with
  | make text => simp [step?,Step.Known]
  | wrap index => by_cases there : index < pool.held.length <;> simp [step?,Step.Known,there]
  | share index => by_cases there : index < pool.atoms.size <;> simp [step?,Step.Known,there]
  | intern index text => by_cases there : index < pool.tables.size <;> simp [step?,Step.Known,there]

theorem runKnown (pool : Pool) (steps : List Step) :
    (∃ after, pool.run? steps = some after) ↔
      Runnable pool.held.length pool.tables.size pool.atoms.size steps := by
  induction steps generalizing pool with
  | nil => simp [run?,Runnable]
  | cons step rest ih =>
    rw [Runnable,← stepKnown]
    constructor
    · rintro ⟨after,ran⟩
      obtain ⟨⟨atom,next⟩,stepped,ran⟩ := Option.bind_eq_some_iff.mp ran
      have grows := effectGrows (stepEffect stepped)
      refine ⟨⟨_,stepped⟩,?_⟩
      rw [← grows.held,← grows.tables,← grows.atoms]
      exact (ih next).mp ⟨after,ran⟩
    · rintro ⟨⟨⟨atom,next⟩,stepped⟩,runnable⟩
      have grows := effectGrows (stepEffect stepped)
      rw [← grows.held,← grows.tables,← grows.atoms] at runnable
      obtain ⟨after,ran⟩ := (ih next).mpr runnable
      exact ⟨after,by simp [run?,stepped,ran]⟩

theorem runFixed (ran : pool.run? steps = some after) :
    after.held = pool.held ∧ after.tables.size = pool.tables.size := by
  induction steps generalizing pool with
  | nil =>
    cases Option.some.inj ran
    exact ⟨rfl,rfl⟩
  | cons step rest ih =>
    obtain ⟨⟨atom,next⟩,stepped,ran⟩ := Option.bind_eq_some_iff.mp ran
    have grows := effectGrows (stepEffect stepped)
    rw [← grows.held,← grows.tables]
    exact ih ran

end Pool

inductive Origin where
  | alone (step : Nat) (text : String)
  | held (index : Nat) (text : String)
  | entry (table : Nat) (text : String)
  deriving DecidableEq, Repr

def Origin.text : Origin → String
  | .alone _ text | .held _ text | .entry _ text => text

namespace Pool

/- The origin of the atom that a step makes, behind as many shared atoms as there are. -/
inductive ComesFrom (texts : List String) (steps : List Step) : Nat → Origin → Prop where
  | made {i text} (step : steps[i]? = some (.make text)) : ComesFrom texts steps i (.alone i text)
  | wrapped {i index text} (step : steps[i]? = some (.wrap index))
      (there : texts[index]? = some text) : ComesFrom texts steps i (.held index text)
  | interned {i table text} (step : steps[i]? = some (.intern table text)) :
      ComesFrom texts steps i (.entry table text)
  | shared {i earlier origin} (step : steps[i]? = some (.share earlier))
      (comes : ComesFrom texts steps earlier origin) : ComesFrom texts steps i origin

variable {pool after : Pool} {step : Step} {atom : Atom} {texts : List String}
  {steps past : List Step} {i : Nat} {text : String} {origin : Origin} {owners : List Origin}

theorem ComesFrom.unique {other : Origin} (one : ComesFrom texts steps i origin)
    (two : ComesFrom texts steps i other) : origin = other := by
  induction one with
  | made step =>
    cases two with
    | made again => cases step.symm.trans again; rfl
    | wrapped again | interned again | shared again => cases step.symm.trans again
  | wrapped step there =>
    cases two with
    | wrapped again same =>
      cases step.symm.trans again
      cases there.symm.trans same
      rfl
    | made again | interned again | shared again => cases step.symm.trans again
  | interned step =>
    cases two with
    | interned again => cases step.symm.trans again; rfl
    | made again | wrapped again | shared again => cases step.symm.trans again
  | shared step comes ih =>
    cases two with
    | shared again comes => cases step.symm.trans again; exact ih comes
    | made again | wrapped again | interned again => cases step.symm.trans again

def Given (texts : List String) (steps : List Step) : Origin → Prop
  | .alone own text => steps[own]? = some (.make text)
  | .held index text => texts[index]? = some text
  | .entry table text => .intern table text ∈ steps

theorem ComesFrom.given (comes : ComesFrom texts steps i origin) : Given texts steps origin := by
  induction comes with
  | made step => exact step
  | wrapped step there => exact there
  | interned step => exact List.mem_of_getElem? step
  | shared step comes ih => exact ih

theorem stillThere {α : Type} {xs : List α} {x : α} (there : xs[i]? = some x) (more : List α) :
    (xs ++ more)[i]? = some x := by
  rw [List.getElem?_append_left (List.getElem?_eq_some_iff.mp there).1,there]

theorem ComesFrom.append (comes : ComesFrom texts past i origin) (more : List Step) :
    ComesFrom texts (past ++ more) i origin := by
  induction comes with
  | made step => exact .made (stillThere step more)
  | wrapped step there => exact .wrapped (stillThere step more) there
  | interned step => exact .interned (stillThere step more)
  | shared step comes ih => exact .shared (stillThere step more) ih

theorem Given.append (given : Given texts past origin) (more : List Step) :
    Given texts (past ++ more) origin := by
  cases origin with
  | alone own text => exact stillThere given more
  | held index text => exact given
  | entry table text => exact List.mem_append_left more given

structure Rooted (texts : List String) (steps : List Step) (owners : List Origin) (i : Nat) (atom : Atom)
    (origin : Origin) : Prop where
  comes : ComesFrom texts steps i origin
  owner : owners[atom.key]? = some origin
  text : atom.value = origin.text

structure Indexed (owners : List Origin) (index : Nat) (table : Table) : Prop where
  single : table.atoms.Nodup
  entries : ∀ a, a ∈ table.atoms ↔ owners[a.key]? = some (.entry index a.value)

/- The allocations so far, each with the origin that it was made for. -/
structure Owned (texts : List String) (past : List Step) (pool : Pool) (owners : List Origin) :
    Prop where
  next : pool.supply.next = owners.length
  distinct : owners.Nodup
  given : ∀ origin ∈ owners, Given texts past origin
  count : pool.atoms.size = past.length
  atoms : ∀ i a, pool.atoms[i]? = some a → ∃ origin, Rooted texts past owners i a origin
  tables : ∀ index table, pool.tables[index]? = some table → Indexed owners index table
  held : ∀ index (a : Atom), pool.held[index]? = some a →
    texts[index]? = some a.value ∧ owners[a.key]? = some (.held index a.value)

theorem ownedStart (texts : List String) (count : Nat) :
    Owned texts [] (withHeld texts count) (texts.mapIdx .held) where
  next := List.length_mapIdx.symm
  distinct := by
    refine List.pairwise_iff_getElem.mpr fun left right _ _ below same => ?_
    rw [List.getElem_mapIdx,List.getElem_mapIdx] at same
    exact Nat.ne_of_lt below (Origin.held.inj same).1
  given := by
    intro origin member
    obtain ⟨index,inside,same⟩ := List.mem_mapIdx.mp member
    rw [← same]
    exact List.getElem?_eq_getElem inside
  count := rfl
  atoms := nofun
  tables := by
    intro index table there
    rw [withHeld,Array.getElem?_replicate] at there
    split at there
    · cases there
      exact ⟨List.nodup_nil,fun a => by simp [Table.empty]⟩
    · contradiction
  held := by
    intro index a there
    simp only [withHeld,List.getElem?_mapIdx] at there
    obtain ⟨text,found,rfl⟩ := Option.map_eq_some_iff.mp there
    exact ⟨found,by simp [found]⟩

theorem Owned.oneKey (owned : Owned texts past pool owners) {left right : Nat}
    (one : owners[left]? = some origin) (two : owners[right]? = some origin) : left = right := by
  have inside := (List.getElem?_eq_some_iff.mp one).1
  exact (List.getElem?_inj inside owned.distinct).mp (one.trans two.symm)

theorem ownerAdded {key : Nat} {added : Origin} :
    (owners ++ [added])[key]? = some origin ↔
      owners[key]? = some origin ∨ key = owners.length ∧ added = origin := by
  rw [List.getElem?_append]
  grind

theorem Rooted.more {a : Atom} (rooted : Rooted texts past owners i a origin) (steps : List Step)
    (others : List Origin) : Rooted texts (past ++ steps) (owners ++ others) i a origin :=
  ⟨rooted.comes.append steps,stillThere rooted.owner others,rooted.text⟩

theorem Owned.push (owned : Owned texts past pool owners) (others : List Origin)
    (last : Rooted texts (past ++ [step]) (owners ++ others) past.length atom origin) :
    ∀ i a, (pool.atoms.push atom)[i]? = some a →
      ∃ origin, Rooted texts (past ++ [step]) (owners ++ others) i a origin := by
  intro i a there
  rw [Array.getElem?_push] at there
  split at there
  · rename_i newest
    cases there
    rw [newest,owned.count]
    exact ⟨origin,last⟩
  · obtain ⟨own,rooted⟩ := owned.atoms i a there
    exact ⟨own,rooted.more _ _⟩

theorem Owned.again (owned : Owned texts past pool owners)
    (last : Rooted texts (past ++ [step]) owners past.length atom origin) :
    Owned texts (past ++ [step]) { pool with atoms := pool.atoms.push atom } owners where
  next := owned.next
  distinct := owned.distinct
  given origin member := (owned.given origin member).append _
  count := by simp [owned.count]
  atoms := by
    have pushed := owned.push [] (by simpa using last)
    simpa using pushed
  tables := owned.tables
  held := owned.held

theorem Owned.fresh (owned : Owned texts past pool owners) {tables : Array Table} (new : origin ∉ owners)
    (comes : ComesFrom texts (past ++ [step]) past.length origin)
    (indexed : ∀ index table, tables[index]? = some table →
      Indexed (owners ++ [origin]) index table) :
    Owned texts (past ++ [step])
      ⟨⟨pool.supply.next + 1⟩,pool.atoms.push ⟨pool.supply.next,origin.text⟩,tables,pool.held⟩
      (owners ++ [origin]) where
  next := by simp [owned.next]
  distinct := by
    rw [← List.concat_eq_append]
    exact owned.distinct.concat new
  given := by
    intro other member
    rcases List.mem_append.mp member with old | own
    · exact (owned.given other old).append _
    · cases List.mem_singleton.mp own
      exact comes.given
  count := by simp [owned.count]
  atoms := owned.push [origin] ⟨comes,ownerAdded.mpr (.inr ⟨owned.next,rfl⟩),rfl⟩
  tables := indexed
  held := fun index a there => (owned.held index a there).imp_right fun owner => stillThere owner _

theorem Indexed.other {index : Nat} {table : Table} (indexed : Indexed owners index table)
    (apart : ∀ text, origin ≠ .entry index text) : Indexed (owners ++ [origin]) index table := by
  refine ⟨indexed.single,fun a => ?_⟩
  rw [indexed.entries,ownerAdded]
  simp [apart]

theorem Indexed.enter {index : Nat} {table : Table} (indexed : Indexed owners index table) :
    Indexed (owners ++ [.entry index text]) index ⟨⟨owners.length,text⟩ :: table.atoms⟩ := by
  constructor
  · refine List.nodup_cons.mpr ⟨?_,indexed.single⟩
    intro member
    have old := (indexed.entries _).mp member
    simp at old
  · rintro ⟨key,value⟩
    rw [List.mem_cons,indexed.entries,ownerAdded,Shared.mk.injEq,Origin.entry.injEq]
    grind

theorem Owned.unlisted {index : Nat} {table : Table} (owned : Owned texts past pool owners)
    (there : pool.tables[index]? = some table) (absent : table.find? text = none) :
    .entry index text ∉ owners := by
  intro member
  obtain ⟨key,owner⟩ := List.mem_iff_getElem?.mp member
  have listed := ((owned.tables index table there).entries ⟨key,text⟩).mpr owner
  exact Table.findNone absent _ listed rfl

theorem Owned.unmade (owned : Owned texts past pool owners) : .alone past.length text ∉ owners := by
  intro member
  have step : past[past.length]? = some (.make text) := owned.given _ member
  simp at step

theorem effectOwned (effect : Effect pool step atom after) (owned : Owned texts past pool owners) :
    ∃ others, Owned texts (past ++ [step]) after others := by
  cases effect with
  | make text =>
    refine ⟨_,owned.fresh owned.unmade (.made (by simp)) ?_⟩
    exact fun index table there => (owned.tables index table there).other nofun
  | @wrap index _ there =>
    obtain ⟨text,owner⟩ := owned.held index atom there
    exact ⟨_,owned.again ⟨.wrapped (by simp) text,owner,rfl⟩⟩
  | @share index _ there =>
    obtain ⟨origin,rooted⟩ := owned.atoms index atom there
    have comes := rooted.comes.append [.share index]
    exact ⟨_,owned.again ⟨.shared (by simp) comes,rooted.owner,rooted.text⟩⟩
  | @known index table text _ there found =>
    obtain ⟨member,value⟩ := Table.findSome found
    have owner := ((owned.tables index table there).entries atom).mp member
    rw [value] at owner
    exact ⟨_,owned.again ⟨.interned (by simp),owner,value⟩⟩
  | @enter index table text there absent =>
    refine ⟨_,owned.fresh (owned.unlisted there absent) (.interned (by simp)) ?_⟩
    intro other found known
    rw [Array.getElem?_setIfInBounds] at known
    -- either the table in which the entry is new, or another one, whose entries stay as they are
    split at known
    · rename_i same
      split at known
      · cases known
        rw [← same,owned.next]
        exact (owned.tables index table there).enter
      · contradiction
    · rename_i apart
      refine (owned.tables other found known).other ?_
      intro text same
      exact apart (Origin.entry.inj same).1

theorem runOwned (ran : pool.run? steps = some after) (owned : Owned texts past pool owners) :
    ∃ others, Owned texts (past ++ steps) after others := by
  induction steps generalizing past pool owners with
  | nil =>
    cases Option.some.inj ran
    exact ⟨owners,by simpa using owned⟩
  | cons step rest ih =>
    obtain ⟨⟨atom,next⟩,stepped,ran⟩ := Option.bind_eq_some_iff.mp ran
    obtain ⟨more,owned⟩ := effectOwned (stepEffect stepped) owned
    obtain ⟨all,owned⟩ := ih ran owned
    exact ⟨all,by simpa using owned⟩

end Pool
end DeclViews.Atom
