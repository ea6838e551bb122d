import DeclViews.Atom.Pool
import DeclViews.Node.Shape
import DeclViews.Proofs.Builder.Call

/-! The names in a tree, a node before what is below it. Trees of one shape have the same names as
texts and spans; which of them share an allocation is not part of the shape. In a table that only
grew by interning no two atoms have one text, and no two share an allocation. Every name that a
builder holds, in an open node or below it or in a root, is an atom of its table, whatever calls
were made and refused; so two names of a finished tree share an allocation when their texts are
equal and only then. -/
namespace DeclViews

def Token.seen (token : Token) : String × Span := (token.text,token.span)

namespace Node

mutual

def names : Node → List Token
  | ⟨_,_,_,_,name,children⟩ => name.toList ++ namesBelow children

def namesBelow : List Node → List Token
  | [] => []
  | n :: rest => n.names ++ namesBelow rest

end

theorem namesIs (n : Node) : n.names = n.name.toList ++ namesBelow n.children := by
  cases n
  rfl

theorem memNamesBelow {ns : List Node} {token : Token} :
    token ∈ namesBelow ns ↔ ∃ n ∈ ns, token ∈ n.names := by
  induction ns with
  | nil => simp [namesBelow]
  | cons n rest ih => simp [namesBelow,ih]

mutual

theorem namesOfShape : (x y : Node) → x.shape = y.shape →
    x.names.map Token.seen = y.names.map Token.seen
  | ⟨_,_,_,_,xName,xs⟩, ⟨_,_,_,_,yName,ys⟩, same => by
    simp only [shape,Shape.mk.injEq] at same
    obtain ⟨-,-,-,name,children⟩ := same
    have top : xName.toList.map Token.seen = yName.toList.map Token.seen := by
      have mapped := congrArg Option.toList name
      rwa [Option.toList_map,Option.toList_map] at mapped
    rw [names,names,List.map_append,List.map_append,top,namesBelowOfShapes xs ys children]

theorem namesBelowOfShapes : (xs ys : List Node) → shapes xs = shapes ys →
    (namesBelow xs).map Token.seen = (namesBelow ys).map Token.seen
  | [], [], _ => rfl
  | [], _ :: _, same => nomatch same
  | _ :: _, [], same => nomatch same
  | x :: xs, y :: ys, same => by
    obtain ⟨first,rest⟩ := List.cons.inj same
    rw [namesBelow,namesBelow,List.map_append,List.map_append,namesOfShape x y first,
      namesBelowOfShapes xs ys rest]

end

end Node

structure SharedAlike (xs ys : List Token) : Prop where
  length : xs.length = ys.length
  same : ∀ (i j : Nat) (a b c d : Token), xs[i]? = some a → xs[j]? = some b → ys[i]? = some c →
    ys[j]? = some d → (a.atom.Same b.atom ↔ c.atom.Same d.atom)

theorem sharedAlikeOfTexts {xs ys : List Token} (seen : xs.map Token.seen = ys.map Token.seen)
    (left : ∀ a ∈ xs, ∀ b ∈ xs, a.atom.Same b.atom ↔ a.text = b.text)
    (right : ∀ a ∈ ys, ∀ b ∈ ys, a.atom.Same b.atom ↔ a.text = b.text) : SharedAlike xs ys where
  length := by simpa using congrArg List.length seen
  same i j a b c d atA atB atC atD := by
    have texts {k : Nat} {x y : Token} (atX : xs[k]? = some x) (atY : ys[k]? = some y) :
        x.text = y.text := by
      have same := congrArg (·[k]?) seen
      simp only [List.getElem?_map,atX,atY,Option.map_some,Option.some.injEq] at same
      exact congrArg Prod.fst same
    rw [left a (List.mem_of_getElem? atA) b (List.mem_of_getElem? atB),
      right c (List.mem_of_getElem? atC) d (List.mem_of_getElem? atD),texts atA atC,texts atB atD]

namespace Atom.Table

variable {t : Table} {supply : Supply} {text : String}

structure Distinct (t : Table) (supply : Supply) : Prop where
  supplied : ∀ a ∈ t.atoms, a.key < supply.next
  keys : ∀ a ∈ t.atoms, ∀ b ∈ t.atoms, a.Same b → a = b
  texts : ∀ a ∈ t.atoms, ∀ b ∈ t.atoms, a.value = b.value → a = b

theorem distinctEmpty (supply : Supply) : Distinct empty supply := ⟨nofun,nofun,nofun⟩

theorem Distinct.more (h : Distinct t supply) {later : Supply} (grown : supply.next ≤ later.next) :
    Distinct t later := ⟨fun a member => Nat.lt_of_lt_of_le (h.supplied a member) grown,h.keys,h.texts⟩

theorem Distinct.sameIff (h : Distinct t supply) {a b : Atom} (left : a ∈ t.atoms)
    (right : b ∈ t.atoms) : a.Same b ↔ a.value = b.value := by
  constructor
  · intro same
    rw [h.keys a left b right same]
  · intro same
    rw [h.texts a left b right same]
    rfl

theorem Distinct.push (h : Distinct t supply) (fresh : ∀ a ∈ t.atoms, a.value ≠ text) :
    Distinct ⟨⟨supply.next,text⟩ :: t.atoms⟩ ⟨supply.next + 1⟩ := by
  have old : ∀ a ∈ t.atoms, a.key ≠ supply.next := fun a member => Nat.ne_of_lt (h.supplied a member)
  constructor
  · rintro a (_ | ⟨_,member⟩)
    · exact Nat.lt_succ_self _
    · exact Nat.lt_succ_of_lt (h.supplied a member)
  · rintro a (_ | ⟨_,left⟩) b (_ | ⟨_,right⟩) same
    · rfl
    · exact absurd same.symm (old b right)
    · exact absurd same (old a left)
    · exact h.keys a left b right same
  · rintro a (_ | ⟨_,left⟩) b (_ | ⟨_,right⟩) same
    · rfl
    · exact absurd same.symm (fresh b right)
    · exact absurd same (fresh a left)
    · exact h.texts a left b right same

structure Interned (t : Table) (supply : Supply) (text : String) (atom : Atom) (after : Table)
    (later : Supply) : Prop where
  distinct : Distinct after later
  member : atom ∈ after.atoms
  text : atom.value = text
  kept : ∀ a ∈ t.atoms, a ∈ after.atoms
  grown : supply.next ≤ later.next

theorem interned (h : Distinct t supply) {atom : Atom} {after : Table} {later : Supply}
    (result : t.intern supply text = (atom,after,later)) :
    Interned t supply text atom after later := by
  have value : atom.value = text := by rw [← t.internText supply text,result]
  unfold intern at result
  cases found : t.find? text with
  | some known =>
    rw [found] at result
    cases result
    exact ⟨h,(findSome found).1,value,fun a member => member,Nat.le_refl _⟩
  | none =>
    rw [found] at result
    cases result
    exact ⟨h.push (findNone found),List.mem_cons_self,value,fun a member => List.mem_cons_of_mem _ member,
      Nat.le_succ _⟩

end Atom.Table

def Frame.names (frame : Frame) : List Token := frame.name.toList ++ Node.namesBelow frame.children

namespace Builder
open DeclViews.Atom (Table)

variable {b c : Builder}

def Listed (table : Table) (tokens : List Token) : Prop := ∀ token ∈ tokens, token.atom ∈ table.atoms

structure Named (b : Builder) : Prop where
  distinct : b.names.Distinct b.supply
  frames : ∀ frame ∈ b.frames, Listed b.names frame.names
  roots : ∀ root ∈ b.roots, Listed b.names root.names

theorem namedOfSource (source : String) : Named (ofSource source) :=
  ⟨Atom.Table.distinctEmpty _,nofun,nofun⟩

theorem Listed.append {table : Table} {xs ys : List Token} (left : Listed table xs)
    (right : Listed table ys) : Listed table (xs ++ ys) := List.forall_mem_append.mpr ⟨left,right⟩

theorem listedBelow {table : Table} {ns : List Node} :
    Listed table (Node.namesBelow ns) ↔ ∀ n ∈ ns, Listed table n.names := by
  constructor
  · intro all n member token inside
    exact all token (Node.memNamesBelow.mpr ⟨n,member,inside⟩)
  · intro each token inside
    obtain ⟨n,member,inside⟩ := Node.memNamesBelow.mp inside
    exact each n member token inside

theorem Named.innermost {frame : Frame} {outer : List Frame} (named : Named b)
    (opened : b.frames = frame :: outer) :
    Listed b.names frame.names ∧ ∀ frame ∈ outer, Listed b.names frame.names := by
  have frames := named.frames
  rw [opened] at frames
  exact List.forall_mem_cons.mp frames

theorem Named.attach {node : Node} (named : Named b) (listed : Listed b.names node.names) :
    Named (b.attach node) := by
  unfold Builder.attach
  cases opened : b.frames with
  | nil => exact ⟨named.distinct,nofun,List.forall_mem_cons.mpr ⟨listed,named.roots⟩⟩
  | cons frame outer =>
    obtain ⟨inner,rest⟩ := named.innermost opened
    have own : Listed b.names frame.name.toList :=
      fun token member => inner token (List.mem_append_left _ member)
    have below : Listed b.names (Node.namesBelow frame.children) :=
      fun token member => inner token (List.mem_append_right _ member)
    have grown : Listed b.names (Frame.names { frame with children := node :: frame.children }) :=
      own.append (listed.append below)
    exact ⟨named.distinct,List.forall_mem_cons.mpr ⟨grown,rest⟩,named.roots⟩

theorem Named.supplied (named : Named b) {supply : Supply} (grown : b.supply.next ≤ supply.next) :
    Named { b with supply } := ⟨named.distinct.more grown,named.frames,named.roots⟩

theorem Named.interned (named : Named b) {text atom names supply}
    (result : b.names.intern b.supply text = (atom,names,supply)) : Named { b with names, supply } := by
  have after := Atom.Table.interned named.distinct result
  exact {
    distinct := after.distinct
    frames := fun frame member token inside => after.kept _ (named.frames frame member token inside)
    roots := fun root member token inside => after.kept _ (named.roots root member token inside) }

theorem effectNamed {call : Call} {result : Result} (effect : Effect b call c result)
    (named : Named b) : Named c := by
  cases effect with
  | start cut => exact ⟨named.distinct,List.forall_mem_cons.mpr ⟨nofun,named.frames⟩,named.roots⟩
  | @name span text atom names supply frame outer cut result opened =>
    have after := named.interned result
    obtain ⟨inner,rest⟩ := after.innermost opened
    have own : Listed names (some (Token.mk atom span)).toList :=
      List.forall_mem_singleton.mpr (Atom.Table.interned named.distinct result).member
    have below : Listed names (Node.namesBelow frame.children) :=
      fun token member => inner token (List.mem_append_right _ member)
    exact ⟨after.distinct,List.forall_mem_cons.mpr ⟨own.append below,rest⟩,after.roots⟩
  | leaf cut copied grown => exact (named.supplied grown).attach nofun
  | @namedLeaf kind span text atom key names supply later cut result grown =>
    refine ((named.interned result).supplied grown).attach ?_
    exact List.forall_mem_singleton.mpr (Atom.Table.interned named.distinct result).member
  | @finish offset text atom key supply frame outer opened cut inside copied grown =>
    obtain ⟨inner,rest⟩ := named.innermost opened
    have after : Named { b with supply, frames := outer } :=
      ⟨(named.supplied grown).distinct,rest,named.roots⟩
    have own : Listed b.names frame.name.toList :=
      fun token member => inner token (List.mem_append_left _ member)
    have below : Listed b.names (Node.namesBelow frame.children.reverse) := by
      refine listedBelow.mpr fun n member token inside => inner token (List.mem_append_right _ ?_)
      exact Node.memNamesBelow.mpr ⟨n,List.mem_reverse.mp member,inside⟩
    refine after.attach ?_
    rw [Node.namesIs]
    exact own.append below
  | unplaced cut result closed => exact named.interned result
  | refused => exact named

theorem runNamed (source : String) (calls : List Call) : Named ((ofSource source).run calls).1 :=
  runKeeps effectNamed (namedOfSource source) calls

theorem Named.shared (named : Named b) {root : Node} (built : b.root = .ok root) :
    ∀ x ∈ root.names, ∀ y ∈ root.names, x.atom.Same y.atom ↔ x.text = y.text := by
  have listed : Listed b.names root.names := by
    apply named.roots
    rw [(rootOk.mp built).2]
    exact List.mem_singleton_self root
  intro x left y right
  exact named.distinct.sameIff (listed x left) (listed y right)

end Builder
end DeclViews
