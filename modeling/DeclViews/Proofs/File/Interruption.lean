import DeclViews.Proofs.File.Coherence
import DeclViews.Proofs.View.Occurrence

/-! Outlines that are interrupted. An outline reads the seven views one after the other, and before
each of its reads others may do anything to the file. A view that goes into it is that of the root
which the file has at the moment of the read. So an outline is of one tree as long as no root is put
in place between its reads; with one in between it may mix two trees. -/
namespace DeclViews.File
namespace Operation

def viewAmid (meanwhile : View → List Operation) (v : View) : Action File (Shared v.Value) := do
  let _ ← run (meanwhile v)
  view v

def outlineAmid (meanwhile : View → List Operation) : Action File (List Outline.Item) :=
  outlineOver (viewAmid meanwhile)

theorem outlineAlone : outlineAmid (fun _ => []) = outline := rfl

def turn (meanwhile : View → List Operation) (v : View) : List Operation :=
  meanwhile v ++ [.ask (.view v)]

def readsBefore (v : View) : List View := View.all.takeWhile (· != v)

def upTo (meanwhile : View → List Operation) (v : View) : List Operation :=
  (readsBefore v).flatMap (turn meanwhile) ++ meanwhile v

def found (meanwhile : View → List Operation) (v : View) (file : File) : File :=
  (run (upTo meanwhile v) file).state

variable {meanwhile : View → List Operation}

theorem turnsRun (meanwhile : View → List Operation) (views : List View) (file : File) :
    (run (views.flatMap (turn meanwhile)) file).state =
      views.foldl (fun file v => (viewAmid meanwhile v file).state) file := by
  induction views generalizing file with
  | nil => rfl
  | cons v rest ih =>
    have own : (run (turn meanwhile v) file).state = (viewAmid meanwhile v file).state :=
      runAppend (meanwhile v) [.ask (.view v)] file
    rw [List.flatMap_cons,runAppend,own,ih,List.foldl_cons]

theorem outlineReads (meanwhile : View → List Operation) (file : File) :
    (outlineAmid meanwhile file).answer =
      Outline.ofViews fun v => (view v (found meanwhile v file)).answer.value := by
  refine congrArg Outline.ofViews (funext fun v => ?_)
  rw [found,upTo,runAppend,turnsRun]
  cases v <;> rfl

@[simp] theorem rootsAppend (xs ys : List Operation) : roots (xs ++ ys) = roots xs ++ roots ys :=
  List.filterMap_append

theorem rootsTurns (meanwhile : View → List Operation) (views : List View) :
    roots (views.flatMap (turn meanwhile)) = views.flatMap fun v => roots (meanwhile v) := by
  have own (v : View) : roots (turn meanwhile v) = roots (meanwhile v) :=
    (rootsAppend _ _).trans (List.append_nil _)
  rw [roots,List.filterMap_flatMap]
  exact congrArg (List.flatMap · views) (funext own)

theorem rootsUpTo (meanwhile : View → List Operation) (v : View) :
    roots (upTo meanwhile v) = (readsBefore v ++ [v]).flatMap fun w => roots (meanwhile w) := by
  rw [upTo,rootsAppend,rootsTurns,List.flatMap_append,List.flatMap_singleton]

theorem readsSplit (v : View) : readsBefore v ++ [v] <+: View.all := by cases v <;> decide

theorem foundCoherent (first : Node) (before : List Operation) (meanwhile : View → List Operation)
    (few : (roots before ++ View.all.flatMap fun v => roots (meanwhile v)).length ≤ Stamp.limit)
    (v : View) :
    Coherent ([first] ++ roots (before ++ upTo meanwhile v))
      (found meanwhile v (after first before)) := by
  obtain ⟨later,whole⟩ := readsSplit v
  rw [← whole,List.flatMap_append,← rootsUpTo,← List.append_assoc,← rootsAppend,
    List.length_append] at few
  have reached : Coherent _ (after first (before ++ upTo meanwhile v)) :=
    afterCoherent first (Nat.le_trans (Nat.le_add_right _ _) few)
  rwa [afterAppend] at reached

theorem latestRoot {published : List Node} {file : File} {first : Node}
    (coherent : Coherent ([first] ++ published) file) : file.root = published.getLastD first := by
  have last : ([first] ++ published).getLast? = some file.root := by
    rw [List.getLast?_eq_getElem?,coherent.count]
    exact coherent.root
  rw [List.singleton_append,List.getLast?_cons] at last
  rw [List.getLastD_eq_getLast?]
  exact (Option.some.inj last).symm

theorem outlineMoments {first : Node} {before : List Operation} {meanwhile : View → List Operation}
    (few : (roots before ++ View.all.flatMap fun v => roots (meanwhile v)).length ≤ Stamp.limit) :
    (outlineAmid meanwhile (after first before)).answer =
      Outline.ofViews fun v => v.compute (found meanwhile v (after first before)).root := by
  refine (outlineReads meanwhile _).trans (congrArg Outline.ofViews (funext fun v => ?_))
  exact (viewCoherent (foundCoherent first before meanwhile few v) v).1

theorem rootsQuiet (quiet : ∀ v, v ≠ .package → roots (meanwhile v) = []) (v : View) :
    roots (upTo meanwhile v) = roots (meanwhile .package) := by
  rw [rootsUpTo]
  cases v <;> simp [readsBefore,View.all,quiet]

theorem outlineStitched (first : Node) (before : List Operation) (meanwhile : View → List Operation)
    (few : (roots before ++ View.all.flatMap fun v => roots (meanwhile v)).length ≤ Stamp.limit) :
    let file := after first before
    let outline := (outlineAmid meanwhile file).answer
    outline = Outline.ofViews (fun v => v.compute (found meanwhile v file).root) ∧
      (∀ v, (found meanwhile v file).root = (roots (before ++ upTo meanwhile v)).getLastD first) ∧
      ((∀ v, v ≠ .package → roots (meanwhile v) = []) →
        outline = Query.plain (found meanwhile .package file).root .outline) := by
  intro file outline
  have latest v := latestRoot (foundCoherent first before meanwhile few v)
  refine ⟨outlineMoments few,latest,fun quiet => ?_⟩
  have still v : (found meanwhile v file).root = (found meanwhile .package file).root := by
    rw [latest,latest,rootsAppend,rootsAppend,rootsQuiet quiet,rootsQuiet quiet]
  exact (outlineMoments few).trans
    (congrArg Outline.ofViews (funext fun v => congrArg v.compute (still v)))

theorem outlineOfNewRoot :
    let first : Node := ⟨0,.file,⟨0,0⟩,⟨0,""⟩,none,[]⟩
    let main : Node := ⟨1,.functionDecl,⟨0,11⟩,⟨1,"func main()"⟩,some ⟨⟨2,"main"⟩,⟨5,9⟩⟩,[]⟩
    let second : Node := ⟨2,.file,⟨0,11⟩,⟨1,"func main()"⟩,none,[main]⟩
    let before : List Operation := [.ask .outline]
    let meanwhile : View → List Operation
      | .package => [.replaceRoot second]
      | .functions => [.isCurrent .package,.ask (.view .functions)]
      | _ => []
    (roots before ++ View.all.flatMap fun v => roots (meanwhile v)).length ≤ Stamp.limit ∧
      (∀ v, v ≠ .package → roots (meanwhile v) = []) ∧
      (outlineAmid meanwhile (after first before)).answer = Query.plain second .outline := by
  intro first main second before meanwhile
  have few : (roots before ++ View.all.flatMap fun v => roots (meanwhile v)).length ≤ Stamp.limit := by
    decide
  have quiet : ∀ v, v ≠ .package → roots (meanwhile v) = [] := by
    intro v later
    cases v <;> first | rfl | contradiction
  obtain ⟨-,latest,ofOne⟩ := outlineStitched first before meanwhile few
  have root : (found meanwhile .package (after first before)).root = second := latest .package
  exact ⟨few,quiet,root ▸ ofOne quiet⟩

/- The root is replaced after the first read: the package of one tree stands over the function of the
other, and neither tree has that outline. -/
theorem outlineMixed :
    let clause (name : String) : Node :=
      ⟨1,.packageClause,⟨0,9⟩,⟨1,"package " ++ name⟩,some ⟨⟨2,name⟩,⟨8,9⟩⟩,[]⟩
    let main : Node := ⟨2,.functionDecl,⟨10,21⟩,⟨3,"func main()"⟩,some ⟨⟨4,"main"⟩,⟨15,19⟩⟩,[]⟩
    let first : Node := ⟨0,.file,⟨0,9⟩,⟨0,"package p"⟩,none,[clause "p"]⟩
    let second : Node := ⟨3,.file,⟨0,21⟩,⟨5,"package q\nfunc main()"⟩,none,[clause "q",main]⟩
    let meanwhile : View → List Operation
      | .imports => [.replaceRoot second]
      | _ => []
    let outline := (outlineAmid meanwhile (ofRoot first)).answer
    (View.all.flatMap fun v => roots (meanwhile v)).length ≤ Stamp.limit ∧
      outline = [⟨.package,"p",⟨0,9⟩⟩,⟨.function,"main",⟨10,21⟩⟩] ∧
      ∀ root ∈ first :: View.all.flatMap fun v => roots (meanwhile v),
        outline ≠ Query.plain root .outline := by
  intro clause main first second meanwhile outline
  have few : (View.all.flatMap fun v => roots (meanwhile v)).length ≤ Stamp.limit := by decide
  have seen v : (found meanwhile v (after first [])).root = if v = .package then first else second := by
    rw [latestRoot (foundCoherent first [] meanwhile few v)]
    cases v <;> rfl
  have moments : outline = Outline.ofViews fun v => v.compute (if v = .package then first else second) :=
    (@outlineMoments first [] meanwhile few).trans
      (congrArg Outline.ofViews (funext fun v => congrArg v.compute (seen v)))
  have mixed : outline = [⟨.package,"p",⟨0,9⟩⟩,⟨.function,"main",⟨10,21⟩⟩] :=
    moments.trans (Outline.ofSorted (by decide +kernel) (by decide))
  have ofFirst : Query.plain first .outline = [⟨.package,"p",⟨0,9⟩⟩] :=
    Outline.ofSorted (by decide +kernel) (by decide)
  have ofSecond : Query.plain second .outline = [⟨.package,"q",⟨0,9⟩⟩,⟨.function,"main",⟨10,21⟩⟩] :=
    Outline.ofSorted (by decide +kernel) (by decide)
  refine ⟨few,mixed,List.forall_mem_cons.mpr ⟨?_,List.forall_mem_singleton.mpr ?_⟩⟩
  · rw [mixed,ofFirst]
    decide
  · rw [mixed,ofSecond]
    decide

end Operation
end DeclViews.File
