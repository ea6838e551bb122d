/-! Texts without the characters with the property White_Space at either end, and texts in double
quotes for diagnostics. In quotes the quote, the backslash and the control characters are escaped;
every other character stands for itself. -/
namespace DeclViews.Text

/-- The ranges of White_Space, both ends included. -/
def blankRanges : List (Nat × Nat) :=
  [(0x09,0x0d),(0x20,0x20),(0x85,0x85),(0xa0,0xa0),(0x1680,0x1680),(0x2000,0x200a),
    (0x2028,0x2029),(0x202f,0x202f),(0x205f,0x205f),(0x3000,0x3000)]

def isBlank (c : Char) : Bool :=
  blankRanges.any fun (low,high) => low ≤ c.toNat && c.toNat ≤ high

def trimBlank (cs : List Char) : List Char :=
  ((cs.dropWhile isBlank).reverse.dropWhile isBlank).reverse

def trim (s : String) : String := String.ofList (trimBlank s.toList)

theorem trimBlankParts (cs : List Char) : ∃ front back, cs = front ++ trimBlank cs ++ back ∧
    (∀ c ∈ front, isBlank c = true) ∧ ∀ c ∈ back, isBlank c = true := by
  let rest := cs.dropWhile isBlank
  refine ⟨cs.takeWhile isBlank,(rest.reverse.takeWhile isBlank).reverse,?_,?_,?_⟩
  · rw [trimBlank,List.append_assoc,← List.reverse_append,List.takeWhile_append_dropWhile,
      List.reverse_reverse,List.takeWhile_append_dropWhile]
  · exact List.all_eq_true.mp List.all_takeWhile
  · intro c member
    exact List.all_eq_true.mp List.all_takeWhile c (List.mem_reverse.mp member)

theorem dropBlankHead {cs : List Char} {c : Char} (first : (cs.dropWhile isBlank).head? = some c) :
    isBlank c = false := by
  have stopped := List.head?_dropWhile_not isBlank cs
  rw [first] at stopped
  exact stopped

theorem trimBlankEnds {cs : List Char} {c : Char}
    (ends : (trimBlank cs).head? = some c ∨ (trimBlank cs).getLast? = some c) : isBlank c = false := by
  let rest := cs.dropWhile isBlank
  have parts : rest = trimBlank cs ++ (rest.reverse.takeWhile isBlank).reverse := by
    rw [trimBlank,← List.reverse_append,List.takeWhile_append_dropWhile,List.reverse_reverse]
  rcases ends with first | last
  · have head : rest.head? = some c := by rw [parts,List.head?_append,first,Option.some_or]
    exact dropBlankHead head
  · rw [trimBlank,List.getLast?_reverse] at last
    exact dropBlankHead last

theorem trimmed (s : String) : (∃ before after, s = before ++ trim s ++ after ∧
      (∀ c ∈ before.toList, isBlank c = true) ∧ ∀ c ∈ after.toList, isBlank c = true) ∧
    ∀ c, (trim s).toList.head? = some c ∨ (trim s).toList.getLast? = some c → isBlank c = false := by
  obtain ⟨front,back,same,before,after⟩ := trimBlankParts s.toList
  constructor
  · refine ⟨String.ofList front,String.ofList back,?_,by simpa using before,by simpa using after⟩
    rw [trim,← String.ofList_append,← String.ofList_append,← same,String.ofList_toList]
  · intro c ends
    rw [trim,String.toList_ofList] at ends
    exact trimBlankEnds ends

def isControl (c : Char) : Bool := c.toNat < 0x20 || (0x7f ≤ c.toNat && c.toNat < 0xa0)

def escape (c : Char) : String :=
  if c = '\x00' then "\\0"
  else if c = '\t' then "\\t"
  else if c = '\r' then "\\r"
  else if c = '\n' then "\\n"
  else if c = '"' then "\\\""
  else if c = '\\' then "\\\\"
  else if isControl c then
    "\\u\x7b" ++ String.ofList (Nat.toDigits 16 c.toNat) ++ "\x7d"
  else c.toString

def quoted (s : String) : String :=
  s.toList.foldl (fun out c => out ++ escape c) "\"" ++ "\""

end DeclViews.Text
