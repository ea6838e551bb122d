import DeclViews.Node.Shape
import DeclViews.Proofs.Builder.Call

/-! Replaying a tree. A script of a tree opens, names, fills and closes its nodes from left to right,
or gives a childless node in one call where that call can say all there is to it. On a source that
the tree is faithful to, every call of a script is accepted, and it hangs a tree of the same shape
where the builder stands: under the innermost open node, or among the roots. -/
namespace DeclViews.Builder
open DeclViews.Node (Faithful)
open DeclViews.Span (Cuts)

def naming (n : Node) : List Call := (n.name.map fun token => Call.name token.span).toList

def bracket (n : Node) (inside : List Call) : List Call :=
  .start n.kind n.span.start :: (naming n ++ inside ++ [.finish n.span.stop])

inductive Script : List Node → List Call → Prop where
  | done : Script [] []
  | bracket {n : Node} {siblings : List Node} {inside later : List Call}
      (children : Script n.children inside)
      (rest : Script siblings later) : Script (n :: siblings) (bracket n inside ++ later)
  | leaf {n : Node} {siblings : List Node} {later : List Call}
      (bare : n.children = [])
      (unnamed : n.name = none)
      (rest : Script siblings later) : Script (n :: siblings) (.leaf n.kind n.span :: later)
  | namedLeaf {n : Node} {token : Token} {siblings : List Node} {later : List Call}
      (bare : n.children = [])
      (named : n.name = some token)
      (own : token.span = n.span ∧ token.text = n.text.value)
      (rest : Script siblings later) : Script (n :: siblings) (.namedLeaf n.kind n.span :: later)

theorem scriptExists : (ns : List Node) → ∃ calls, Script ns calls
  | [] => ⟨[],.done⟩
  | n :: siblings => by
    obtain ⟨inside,children⟩ := scriptExists n.children
    obtain ⟨later,rest⟩ := scriptExists siblings
    exact ⟨bracket n inside ++ later,.bracket children rest⟩
termination_by ns => sizeOf ns
decreasing_by
  · have smaller := n.childrenSmaller
    rw [List.cons.sizeOf_spec]
    omega
  · rw [List.cons.sizeOf_spec]
    omega

def Runs (b : Builder) (calls : List Call) (c : Builder) : Prop :=
  b.run calls = (c,List.replicate calls.length (.ok ()))

theorem Runs.append {b c d : Builder} {calls more : List Call} (first : Runs b calls c)
    (later : Runs c more d) : Runs b (calls ++ more) d := by
  induction calls generalizing b with
  | nil =>
    cases first
    exact later
  | cons call rest ih =>
    have step : (b.perform call).2 = .ok () ∧ Runs (b.perform call).1 rest c := by
      simp only [Runs,run,List.length_cons,List.replicate_succ,Prod.mk.injEq,List.cons.injEq] at first
      exact ⟨first.2.1,Prod.ext first.1 first.2.2⟩
    have tail : (b.perform call).1.run (rest ++ more) = _ := ih step.2
    simp only [Runs,run,List.cons_append,tail,step.1,List.length_cons,List.replicate_succ]

theorem accepted {b : Builder} {call : Call} (admits : b.Admits call) :
    ∃ c, Runs b [call] c ∧ Effect b call c (.ok ()) := by
  have effect := b.performEffect call
  cases performed : b.perform call with
  | mk c result =>
    rw [performed] at effect
    cases result with
    | ok => exact ⟨c,by simp only [Runs,run,performed,List.length_singleton,List.replicate_one],effect⟩
    | error e =>
      exfalso
      cases effect with
      | unplaced cut interned closed => exact admits.2 closed
      | refused barred => exact barred admits

abbrev Forest := List Frame × List Node

def forest (b : Builder) : Forest := (b.frames,b.roots)

def hang (nodes : List Node) : Forest → Forest
  | ([],roots) => ([],nodes.reverse ++ roots)
  | (frame :: outer,roots) =>
    ({ frame with children := nodes.reverse ++ frame.children } :: outer,roots)

theorem hangNone (f : Forest) : hang [] f = f := by
  obtain ⟨frames,roots⟩ := f
  cases frames <;> rfl

theorem hangAppend (xs ys : List Node) (f : Forest) : hang (xs ++ ys) f = hang ys (hang xs f) := by
  obtain ⟨frames,roots⟩ := f
  cases frames <;> simp only [hang,List.reverse_append,List.append_assoc]

theorem attachForest (b : Builder) (node : Node) : (b.attach node).forest = hang [node] b.forest := by
  unfold attach forest
  cases opened : b.frames <;> rfl

theorem attachSource (b : Builder) (node : Node) : (b.attach node).source = b.source := by
  unfold attach
  split <;> rfl

/- The calls are accepted and hang the nodes where the builder stands; names and allocations are
left open, since a replay interns and allocates anew. -/
structure Hangs (b : Builder) (calls : List Call) (nodes : List Node) (c : Builder) : Prop where
  runs : Runs b calls c
  source : c.source = b.source
  forest : c.forest = hang nodes b.forest

theorem Hangs.append {b c d : Builder} {calls more : List Call} {xs ys : List Node}
    (first : Hangs b calls xs c) (later : Hangs c more ys d) :
    Hangs b (calls ++ more) (xs ++ ys) d where
  runs := first.runs.append later.runs
  source := later.source.trans first.source
  forest := by rw [later.forest,first.forest,hangAppend]

def Rebuilds (b : Builder) (calls : List Call) (ns : List Node) : Prop :=
  ∃ built c, built.map Node.shape = ns.map Node.shape ∧ Hangs b calls built c

theorem Rebuilds.append {b : Builder} {calls more : List Call} {xs ys : List Node}
    (first : Rebuilds b calls xs) (later : ∀ c : Builder, c.source = b.source → Rebuilds c more ys) :
    Rebuilds b (calls ++ more) (xs ++ ys) := by
  obtain ⟨left,c,leftShapes,hung⟩ := first
  obtain ⟨right,d,rightShapes,rest⟩ := later c hung.source
  exact ⟨left ++ right,d,by rw [List.map_append,List.map_append,leftShapes,rightShapes],
    hung.append rest⟩

theorem startOpens {b : Builder} (kind : Kind) {offset : Nat}
    (cut : Cuts b.source ⟨offset,offset⟩ "") :
    ∃ c, Runs b [.start kind offset] c ∧ c.source = b.source ∧
      c.forest = (⟨kind,offset,none,[]⟩ :: b.frames,b.roots) := by
  obtain ⟨c,runs,effect⟩ := accepted (show b.Admits (.start kind offset) from ⟨"",cut⟩)
  cases effect
  exact ⟨_,runs,rfl,rfl⟩

theorem namingNames {b : Builder} {n : Node} {kind : Kind} {start : Nat} {outer : List Frame}
    (faithful : ∀ token ∈ n.name, token.span.Cuts b.source token.text)
    (opened : b.frames = ⟨kind,start,none,[]⟩ :: outer) :
    ∃ c name, Runs b (naming n) c ∧ c.source = b.source ∧
      name.map (fun t => (t.text,t.span)) = n.nameShape ∧
      c.forest = (⟨kind,start,name,[]⟩ :: outer,b.roots) := by
  cases named : n.name with
  | none =>
    have silent : naming n = [] := by simp only [naming,named,Option.map_none,Option.toList_none]
    refine ⟨b,none,?_,rfl,?_,?_⟩
    · rw [silent]
      rfl
    · simp only [Node.nameShape,named,Option.map_none]
    · rw [forest,opened]
  | some token =>
    have single : naming n = [.name token.span] := by
      simp only [naming,named,Option.map_some,Option.toList_some]
    have cut := faithful token named
    have admits : b.Admits (.name token.span) := ⟨⟨_,cut⟩,by rw [opened]; exact List.cons_ne_nil _ _⟩
    obtain ⟨c,runs,effect⟩ := accepted admits
    rw [single]
    cases effect with
    | @name _ text atom _ _ _ _ again interned innermost =>
      cases opened.symm.trans innermost
      have same : atom.value = token.text := (internedText interned).trans (again.unique cut)
      refine ⟨_,some ⟨atom,token.span⟩,runs,rfl,?_,rfl⟩
      simp only [Node.nameShape,named,Option.map_some]
      exact congrArg (fun text => some (text,token.span)) same

theorem finishCloses {b : Builder} {kind : Kind} {start offset : Nat} {name : Option Token}
    {children : List Node} {outer : List Frame} {text : String}
    (opened : b.frames = ⟨kind,start,name,children.reverse⟩ :: outer)
    (cut : Cuts b.source ⟨start,offset⟩ text)
    (inside : ∀ child ∈ children, Span.Contains ⟨start,offset⟩ child.span) :
    ∃ c key atom, Runs b [.finish offset] c ∧ c.source = b.source ∧ atom.value = text ∧
      c.forest = hang [⟨key,kind,⟨start,offset⟩,atom,name,children⟩] (outer,b.roots) := by
  have admits : b.Admits (.finish offset) :=
    ⟨_,outer,opened,⟨text,cut⟩,fun child member => inside child (List.mem_reverse.mp member)⟩
  obtain ⟨c,runs,effect⟩ := accepted admits
  cases effect with
  | @finish _ text atom key supply _ _ innermost again _ copied =>
    cases opened.symm.trans innermost
    have placed := attachForest { b with supply, frames := outer }
      ⟨key,kind,⟨start,offset⟩,atom,name,children.reverse.reverse⟩
    have same : children.reverse.reverse = children := List.reverse_reverse children
    rw [same] at placed
    refine ⟨_,key,atom,runs,attachSource _ _,copied.trans (again.unique cut),?_⟩
    rw [same]
    exact placed

theorem sameSpans {built ns : List Node} (same : built.map Node.shape = ns.map Node.shape) :
    built.map Node.span = ns.map Node.span := by
  have spans := congrArg (List.map Shape.span) same
  simpa [Function.comp_def] using spans

theorem bracketRebuilds {b : Builder} {n : Node} {inside : List Call} (fits : Node.Fits b.source n)
    (filled : ∀ c : Builder, c.source = b.source → Rebuilds c inside n.children) :
    Rebuilds b (bracket n inside) [n] := by
  obtain ⟨c,started,overC,forestC⟩ := startOpens n.kind fits.text.atStart
  obtain ⟨openC,rootsC⟩ := Prod.mk.inj forestC
  obtain ⟨d,name,named,overD,sameName,forestD⟩ :=
    namingNames (n := n) (by rw [overC]; exact fits.name) openC
  obtain ⟨built,e,sameChildren,hung⟩ := filled d (overD.trans overC)
  have forestE := hung.forest
  rw [forestD,rootsC] at forestE
  obtain ⟨openE,rootsE⟩ := Prod.mk.inj forestE
  rw [List.append_nil] at openE
  have overE : e.source = b.source := hung.source.trans (overD.trans overC)
  have fitting : ∀ child ∈ built, n.span.Contains child.span := by
    intro child member
    have listed : child.span ∈ n.children.map Node.span := by
      rw [← sameSpans sameChildren]
      exact List.mem_map_of_mem member
    obtain ⟨original,member,same⟩ := List.mem_map.mp listed
    rw [← same]
    exact fits.inside original member
  obtain ⟨f,key,atom,closed,overF,sameText,forestF⟩ :=
    finishCloses openE (by rw [overE]; exact fits.text) fitting
  refine ⟨[⟨key,n.kind,n.span,atom,name,built⟩],f,List.singleton_inj.mpr ?_,?_,?_,?_⟩
  · exact Node.sameShape.mpr ⟨rfl,rfl,sameText,sameName,sameChildren⟩
  · exact started.append ((named.append hung.runs).append closed)
  · exact overF.trans overE
  · rw [forestF,rootsE]
    rfl

theorem leafRebuilds {b : Builder} {n : Node} (fits : Node.Fits b.source n) (bare : n.children = [])
    (unnamed : n.name = none) : Rebuilds b [.leaf n.kind n.span] [n] := by
  obtain ⟨c,runs,effect⟩ := accepted (show b.Admits (.leaf n.kind n.span) from ⟨_,fits.text⟩)
  cases effect with
  | @leaf _ _ text atom key supply cut copied =>
    refine ⟨[⟨key,n.kind,n.span,atom,none,[]⟩],_,List.singleton_inj.mpr ?_,runs,attachSource _ _,
      attachForest _ _⟩
    refine Node.sameShape.mpr ⟨rfl,rfl,copied.trans (cut.unique fits.text),?_,?_⟩
    · rw [Node.nameShape,Node.nameShape,unnamed]
    · rw [bare]

theorem namedLeafRebuilds {b : Builder} {n : Node} {token : Token} (fits : Node.Fits b.source n)
    (bare : n.children = []) (named : n.name = some token)
    (own : token.span = n.span ∧ token.text = n.text.value) :
    Rebuilds b [.namedLeaf n.kind n.span] [n] := by
  obtain ⟨c,runs,effect⟩ := accepted (show b.Admits (.namedLeaf n.kind n.span) from ⟨_,fits.text⟩)
  cases effect with
  | @namedLeaf _ _ text atom key names supply later cut interned =>
    refine ⟨[⟨key,n.kind,n.span,atom,some ⟨atom,n.span⟩,[]⟩],_,List.singleton_inj.mpr ?_,runs,
      attachSource _ _,attachForest _ _⟩
    have same : atom.value = n.text.value := (internedText interned).trans (cut.unique fits.text)
    refine Node.sameShape.mpr ⟨rfl,rfl,same,?_,?_⟩
    · rw [Node.nameShape,Node.nameShape,named,Option.map_some,Option.map_some,own.1,own.2,← same]
      rfl
    · rw [bare]

-- The builder is any that stands over the source: below an open node there are frames and siblings.
theorem scriptRebuildsAnywhere {ns : List Node} {calls : List Call} (script : Script ns calls)
    {b : Builder} (faithful : ∀ n ∈ ns, Faithful b.source n) : Rebuilds b calls ns := by
  induction script generalizing b with
  | done => exact ⟨[],b,rfl,rfl,rfl,(hangNone b.forest).symm⟩
  | @bracket n siblings inside later children rest ihChildren ihRest =>
    obtain ⟨whole,others⟩ := List.forall_mem_cons.mp faithful
    have filled (c : Builder) (same : c.source = b.source) : Rebuilds c inside n.children :=
      ihChildren fun child member => same ▸ whole.child member
    exact (bracketRebuilds (whole n (.self n)) filled).append fun c same => ihRest (same ▸ others)
  | leaf bare unnamed rest ihRest =>
    obtain ⟨whole,others⟩ := List.forall_mem_cons.mp faithful
    have first := leafRebuilds (whole _ (.self _)) bare unnamed
    exact first.append fun c same => ihRest (same ▸ others)
  | namedLeaf bare named own rest ihRest =>
    obtain ⟨whole,others⟩ := List.forall_mem_cons.mp faithful
    have first := namedLeafRebuilds (whole _ (.self _)) bare named own
    exact first.append fun c same => ihRest (same ▸ others)

theorem scriptRebuilds {source : String} {t : Node} (faithful : Faithful source t) :
    (∃ calls, Script [t] calls) ∧ ∀ calls, Script [t] calls →
      ((ofSource source).run calls).2 = List.replicate calls.length (.ok ()) ∧
      ∃ root, ((ofSource source).run calls).1.root = .ok root ∧ root.shape = t.shape := by
  refine ⟨scriptExists [t],fun calls script => ?_⟩
  obtain ⟨built,c,shapes,hung⟩ :=
    scriptRebuildsAnywhere script (b := ofSource source) (List.forall_mem_singleton.mpr faithful)
  have ran : (ofSource source).run calls = _ := hung.runs
  rw [ran]
  obtain ⟨root,rfl⟩ : ∃ root, built = [root] := by
    have single := congrArg List.length shapes
    rw [List.length_map] at single
    exact List.length_eq_one_iff.mp single
  obtain ⟨closed,roots⟩ := Prod.mk.inj hung.forest
  exact ⟨rfl,root,rootOk.mpr ⟨closed,roots⟩,List.singleton_inj.mp shapes⟩

theorem smallTreeRebuilds :
    let source := "é x"
    let leaf : Node := ⟨1,.varDefinition,⟨0,2⟩,⟨0,"é"⟩,some ⟨⟨0,"é"⟩,⟨0,2⟩⟩,[]⟩
    let empty : Node := ⟨2,.other,⟨4,4⟩,⟨1,""⟩,none,[]⟩
    let inner : Node := ⟨3,.placeholder,⟨3,4⟩,⟨2,"x"⟩,none,[empty]⟩
    let root : Node := ⟨4,.file,⟨0,4⟩,⟨3,"é x"⟩,some ⟨⟨4,"x"⟩,⟨3,4⟩⟩,[leaf,inner]⟩
    Faithful source root ∧ ∀ calls, Script [root] calls →
      ((ofSource source).run calls).2 = List.replicate calls.length (.ok ()) ∧
      ∃ again, ((ofSource source).run calls).1.root = .ok again ∧ again.shape = root.shape := by
  intro source leaf empty inner root
  have cut {span : Span} {text : String} (read : span.slice? source = some text) :
      span.Cuts source text := Span.sliceCuts.mp read
  have leafFaithful : Faithful source leaf :=
    .leaf (cut (by decide +kernel)) (Cuts.token (cut (by decide +kernel)))
  have emptyFaithful : Faithful source empty := .leaf (cut (by decide +kernel)) nofun
  have innerFaithful : Faithful source inner :=
    .of ⟨cut (by decide +kernel),nofun,by decide⟩ (List.forall_mem_singleton.mpr emptyFaithful)
  have rootFaithful : Faithful source root := by
    refine .of ⟨cut (by decide +kernel),Cuts.token (cut (by decide +kernel)),by decide⟩ ?_
    exact List.forall_mem_cons.mpr ⟨leafFaithful,List.forall_mem_singleton.mpr innerFaithful⟩
  exact ⟨rootFaithful,(scriptRebuilds rootFaithful).2⟩

end DeclViews.Builder
