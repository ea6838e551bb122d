import DeclViews.Declaration

/-! What is left of a path literal. Without its quotes a literal is a part of itself: both quotes
are taken away or none. A text that stands between two quotes of one kind comes out as it is, with
whatever quotes it has of its own, and a text that does not is left alone. -/
namespace DeclViews.Import

theorem unquoteCharsInfix (cs : List Char) : unquoteChars cs <:+: cs := by
  fun_cases unquoteChars cs with
  | case1 => exact List.infix_rfl
  | case2 opening rest quoted =>
    obtain ⟨before,same⟩ := List.getLast?_eq_some_iff.mp quoted.2
    rw [same,List.dropLast_concat]
    exact ⟨[opening],[opening],rfl⟩
  | case3 opening rest bare => exact List.infix_rfl

theorem unquotePart (literal : String) :
    ∃ before after, literal = before ++ unquote literal ++ after := by
  obtain ⟨before,after,same⟩ := unquoteCharsInfix literal.toList
  refine ⟨String.ofList before,String.ofList after,?_⟩
  rw [unquote,← String.ofList_append,← String.ofList_append,same,String.ofList_toList]

inductive Quote : Char → Prop where
  | double : Quote '"'
  | single : Quote '\''
  | back : Quote '`'

theorem memQuotes {q : Char} : q ∈ quotes ↔ Quote q := by
  constructor
  · intro member
    simp only [quotes,List.mem_cons,List.not_mem_nil,or_false] at member
    rcases member with rfl | rfl | rfl
    · exact .double
    · exact .single
    · exact .back
  · rintro (_ | _ | _) <;> simp [quotes]

def Quoted (literal text : String) : Prop :=
  ∃ q, Quote q ∧ literal = String.singleton q ++ text ++ String.singleton q

variable {literal text : String}

theorem quotedChars : Quoted literal text ↔
    ∃ q ∈ quotes, literal.toList = q :: text.toList ++ [q] := by
  simp [Quoted,memQuotes,← String.toList_inj]

theorem unquoteCharsBetween {q : Char} (quote : q ∈ quotes) (cs : List Char) :
    unquoteChars (q :: cs ++ [q]) = cs := by
  simp [unquoteChars,quote]

theorem unquoteCharsOther {cs : List Char} (other : ∀ q ∈ quotes, ∀ inner, cs ≠ q :: inner ++ [q]) :
    unquoteChars cs = cs := by
  fun_cases unquoteChars cs with
  | case1 => rfl
  | case2 opening rest quoted =>
    obtain ⟨inner,same⟩ := List.getLast?_eq_some_iff.mp quoted.2
    exact absurd (congrArg (opening :: ·) same) (other opening quoted.1 inner)
  | case3 opening rest bare => rfl

theorem Quoted.unquoted (quoted : Quoted literal text) : unquote literal = text := by
  obtain ⟨q,quote,chars⟩ := quotedChars.mp quoted
  rw [unquote,chars,unquoteCharsBetween quote,String.ofList_toList]

theorem unquoteBare (bare : ∀ text, ¬ Quoted literal text) : unquote literal = literal := by
  have other : ∀ q ∈ quotes, ∀ inner, literal.toList ≠ q :: inner ++ [q] := by
    intro q quote inner chars
    exact bare (String.ofList inner) (quotedChars.mpr ⟨q,quote,by simpa using chars⟩)
  rw [unquote,unquoteCharsOther other,String.ofList_toList]

def FirstLiteral (nodes : List Node) (literal : Node) : Prop :=
  ∃ before after, nodes = before ++ literal :: after ∧ literal.kind = .importString ∧
    ∀ n ∈ before, n.kind ≠ .importString

theorem FirstLiteral.path {spec : ImportSpec} {literal : Node}
    (first : FirstLiteral spec.node.children literal) :
    spec.path = unquote literal.text.value := by
  obtain ⟨before,after,children,kind,others⟩ := first
  have found : spec.literal? = some literal := by
    rw [ImportSpec.literal?,Node.childOf?,List.find?_eq_some_iff_append]
    exact ⟨beq_iff_eq.mpr kind,before,after,children,fun n member => by simpa using others n member⟩
  rw [ImportSpec.path,found]

theorem unquoteInverse :
    (∀ literal text, Quoted literal text → unquote literal = text) ∧
    (∀ literal, (∀ text, ¬ Quoted literal text) → unquote literal = literal) ∧
    ∀ (spec : ImportSpec) literal text, FirstLiteral spec.node.children literal →
      Quoted literal.text.value text → spec.path = text := by
  refine ⟨fun _ _ => Quoted.unquoted,fun _ => unquoteBare,?_⟩
  intro spec literal text first quoted
  rw [first.path,quoted.unquoted]

theorem innerQuotesStay :
    let node := fun kind text => Node.mk 0 kind .zero ⟨0,text⟩ none []
    let first := node .importString "'\"größe\"'"
    let spec : ImportSpec := ⟨⟨0,.importSpec,.zero,⟨0,""⟩,none,
      [node .other "\"x\"",first,node .importString "y"]⟩,rfl⟩
    Quoted first.text.value "\"größe\"" ∧ FirstLiteral spec.node.children first ∧
      unquote first.text.value = "\"größe\"" ∧ spec.path = "\"größe\"" ∧
      (∀ text, ¬ Quoted "'" text) ∧ unquote "'" = "'" := by
  intro node first spec
  obtain ⟨inverts,leaves,path⟩ := unquoteInverse
  have quoted : Quoted first.text.value "\"größe\"" := ⟨_,.single,rfl⟩
  have among : FirstLiteral spec.node.children first :=
    ⟨[node .other "\"x\""],[node .importString "y"],rfl,rfl,by simp [node]⟩
  have lone : ∀ text, ¬ Quoted "'" text := by
    intro text quoted
    obtain ⟨q,-,chars⟩ := quotedChars.mp quoted
    simpa using congrArg List.length chars
  exact ⟨quoted,among,inverts _ _ quoted,path _ _ _ among quoted,lone,leaves _ lone⟩

end DeclViews.Import
