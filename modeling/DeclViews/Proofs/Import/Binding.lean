import DeclViews.Declaration
import DeclViews.Proofs.Import.DefaultName
import Mathlib.Data.Finset.Card
import Mathlib.Data.Finset.Dedup

/-! What an alias map holds. An import binds its alias or, without one, the last segment of its path;
one that has neither binds nothing. Of several imports that bind one name the last one stays, so the
map is settled by the imports that bind each name, in their order, and by nothing else. -/
namespace DeclViews
namespace ImportSpec

def written? (spec : ImportSpec) : Option String :=
  (spec.node.children.find? (·.kind == .importString)).map fun literal =>
    Import.unquote literal.text.value

def bound? (spec : ImportSpec) : Option String :=
  match spec.node.name with
  | some token => some token.text
  | none => spec.written?.bind fun path =>
    (Import.segments path.toList).getLast?.map String.ofList

def binds (name : String) (spec : ImportSpec) : Bool := spec.bound? == some name

def target (spec : ImportSpec) : Import.Target :=
  if spec.node.name.isSome then .spec spec else .path (spec.written?.getD "")

theorem pathWritten (spec : ImportSpec) : spec.path = spec.written?.getD "" := by
  rw [path,literal?,Node.childOf?,written?]
  cases spec.node.children.find? (·.kind == .importString) <;> rfl

end ImportSpec

namespace Import
open ImportSpec (binds)

variable {specs : List ImportSpec} {name : String}

theorem bindingBound (spec : ImportSpec) :
    binding? spec = spec.bound?.map fun name => (name,spec.target) := by
  cases named : spec.node.name with
  | some token =>
    simp [binding?,ImportSpec.bound?,ImportSpec.target,Typed.name?,Node.nameText?,named]
  | none =>
    simp only [binding?,ImportSpec.bound?,ImportSpec.target,Typed.name?,Node.nameText?,named,
      ImportSpec.pathWritten,defaultNameSegment]
    cases spec.written? with
    | some path => rfl
    | none => rfl

theorem bindLookup (map : Map) (spec : ImportSpec) (name : String) :
    (map.bind spec)[name]? = if binds name spec then some spec.target else map[name]? := by
  rw [Map.bind,bindingBound]
  cases bound : spec.bound? with
  | none => simp [binds,bound]
  | some other => simp [binds,bound,Std.ExtTreeMap.getElem?_insert]

theorem foldLookup (map : Map) (specs : List ImportSpec) (name : String) :
    (specs.foldl Map.bind map)[name]? =
      ((specs.filter (binds name)).getLast?.map ImportSpec.target).or map[name]? := by
  induction specs generalizing map with
  | nil => rfl
  | cons spec rest ih =>
    rw [List.foldl_cons,ih,bindLookup,List.filter_cons]
    split
    · rw [List.getLast?_cons]
      cases (rest.filter (binds name)).getLast? <;> rfl
    · rfl

theorem mapLookup (specs : List ImportSpec) (name : String) :
    (Map.ofSpecs specs)[name]? = (specs.filter (binds name)).getLast?.map ImportSpec.target := by
  rw [Map.ofSpecs,foldLookup,Std.ExtTreeMap.getElem?_empty,Option.or_none]

def LastOf (specs : List ImportSpec) (name : String) (spec : ImportSpec) : Prop :=
  ∃ before after, specs = before ++ spec :: after ∧ spec.bound? = some name ∧
    ∀ later ∈ after, later.bound? ≠ some name

theorem lastOfIff {spec : ImportSpec} :
    (specs.filter (binds name)).getLast? = some spec ↔ LastOf specs name spec := by
  rw [List.getLast?_filter,List.find?_eq_some_iff_append]
  simp only [binds,beq_iff_eq]
  constructor
  · rintro ⟨bound,after,before,reversed,later⟩
    refine ⟨before.reverse,after.reverse,?_,bound,?_⟩
    · simpa using congrArg List.reverse reversed
    · simpa using later
  · rintro ⟨before,after,whole,bound,later⟩
    exact ⟨bound,after.reverse,before.reverse,by simp [whole],by simpa using later⟩

theorem lookupSome {target : Target} :
    (Map.ofSpecs specs)[name]? = some target ↔
      ∃ spec, LastOf specs name spec ∧ target = spec.target := by
  rw [mapLookup,Option.map_eq_some_iff]
  constructor
  · rintro ⟨spec,last,same⟩
    exact ⟨spec,lastOfIff.mp last,same.symm⟩
  · rintro ⟨spec,last,same⟩
    exact ⟨spec,lastOfIff.mpr last,same.symm⟩

theorem lookupNone :
    (Map.ofSpecs specs)[name]? = none ↔ ∀ spec ∈ specs, spec.bound? ≠ some name := by
  simp [mapLookup,binds]

theorem lookupAppend (specs more : List ImportSpec) (name : String) :
    (Map.ofSpecs (specs ++ more))[name]? = (Map.ofSpecs more)[name]?.or (Map.ofSpecs specs)[name]? := by
  simp only [mapLookup,List.filter_append,List.getLast?_append,Option.map_or]

theorem memKeys : name ∈ (Map.ofSpecs specs).keys ↔ name ∈ specs.filterMap ImportSpec.bound? := by
  have absent : (Map.ofSpecs specs)[name]? = none ↔ ∀ spec ∈ specs, spec.bound? ≠ some name :=
    lookupNone
  rw [Std.ExtTreeMap.mem_keys,Std.ExtTreeMap.mem_iff_isSome_getElem?,Option.isSome_iff_ne_none,ne_eq,
    absent]
  simp

theorem sizeDistinct (specs : List ImportSpec) :
    (Map.ofSpecs specs).size = (specs.filterMap ImportSpec.bound?).toFinset.card := by
  have distinct : (Map.ofSpecs specs).keys.Nodup := by
    refine Std.ExtTreeMap.distinct_keys.imp ?_
    intro a b apart same
    subst same
    exact apart Std.ReflCmp.compare_self
  rw [← Std.ExtTreeMap.length_keys,← List.toFinset_card_of_nodup distinct]
  congr 1
  ext name
  rw [List.mem_toFinset,List.mem_toFinset,memKeys]

/- The imports in another order, in which those that bind one name follow each other as before. -/
structure Reorders (specs other : List ImportSpec) : Prop where
  perm : other.Perm specs
  kept : ∀ name, other.filter (binds name) = specs.filter (binds name)

theorem Reorders.map {other : List ImportSpec} (reorders : Reorders specs other) :
    Map.ofSpecs other = Map.ofSpecs specs := by
  apply Std.ExtTreeMap.ext_getElem?
  intro name
  rw [mapLookup,mapLookup,reorders.kept]

theorem mapHoldsLast (specs : List ImportSpec) :
    (∀ (name : String) (target : Target), (Map.ofSpecs specs)[name]? = some target ↔
      ∃ spec, LastOf specs name spec ∧ target = spec.target) ∧
    (∀ name : String, (Map.ofSpecs specs)[name]? = none ↔
      ∀ spec ∈ specs, spec.bound? ≠ some name) ∧
    (Map.ofSpecs specs).size = (specs.filterMap ImportSpec.bound?).toFinset.card ∧
    (∀ (more : List ImportSpec) (name : String), (Map.ofSpecs (specs ++ more))[name]? =
      (Map.ofSpecs more)[name]?.or (Map.ofSpecs specs)[name]?) ∧
    ∀ other : List ImportSpec, Reorders specs other → Map.ofSpecs other = Map.ofSpecs specs :=
  ⟨fun _ _ => lookupSome,fun _ => lookupNone,sizeDistinct specs,lookupAppend specs,
    fun _ reorders => reorders.map⟩

theorem slashedPathOverAlias :
    let literal := fun text => Node.mk 0 .importString .zero ⟨0,text⟩ none []
    let spec := fun name literals => (⟨Node.mk 0 .importSpec .zero ⟨0,""⟩
      (name.map fun text => ⟨⟨0,text⟩,.zero⟩) literals,rfl⟩ : ImportSpec)
    let first := spec none [literal "'a/x'"]
    let short := spec (some "x") [literal "`b`"]
    let bare := spec (some "") []
    let lost := spec none []
    let last := spec none [literal "\"c/x//\"",literal "d"]
    [first,short,bare,lost,last].map ImportSpec.bound? =
        [some "x",some "x",some "",none,some "x"] ∧
      (Map.ofSpecs [first,short,bare,lost,last])["x"]? = some (.path "c/x//") ∧
      (Map.ofSpecs [first,short,bare,lost,last]).size = 2 ∧
      Reorders [first,short,bare,lost,last] [lost,first,bare,short,last] ∧
      Map.ofSpecs [lost,first,bare,short,last] = Map.ofSpecs [first,short,bare,lost,last] := by
  intro literal spec first short bare lost last
  have bounds : [first,short,bare,lost,last].map ImportSpec.bound? =
      [some "x",some "x",some "",none,some "x"] := by decide +kernel
  have reorders : Reorders [first,short,bare,lost,last] [lost,first,bare,short,last] := by
    refine ⟨?_,fun name => ?_⟩
    · have moved : [first,short,bare,lost,last].Perm [lost,first,short,bare,last] :=
        @List.perm_middle _ lost [first,short,bare] [last]
      exact (((List.Perm.swap short bare [last]).cons first).cons lost).trans moved.symm
    · simp only [List.map_cons,List.cons.injEq] at bounds
      obtain ⟨ofFirst,ofShort,ofBare,ofLost,ofLast,-⟩ := bounds
      simp only [List.filter_cons,binds,ofFirst,ofShort,ofBare,ofLost,ofLast]
      rcases eq_or_ne name "x" with rfl | other
      · rfl
      · simp [other.symm]
  obtain ⟨found,-,size,-,reordered⟩ := mapHoldsLast [first,short,bare,lost,last]
  refine ⟨bounds,?_,?_,reorders,reordered _ reorders⟩
  · have path : "c/x//" = (ImportSpec.written? last).getD "" := by decide +kernel
    have lastBinds : LastOf [first,short,bare,lost,last] "x" last :=
      ⟨[first,short,bare,lost],[],rfl,by decide +kernel,by simp⟩
    exact (found "x" _).mpr ⟨last,lastBinds,congrArg Target.path path⟩
  · rw [size]
    decide +kernel

end Import
end DeclViews
