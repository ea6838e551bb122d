import DeclViews.Proofs.Path.Spelling

/-! Spellings that are texts. A text is shown as it is: the bytes of each of its characters are read
as that character. Since a slash and a dot are bytes of no other character, what can be left out of
a spelling makes no text of another spelling, so all spellings of a path are texts or none of them
is. -/
namespace DeclViews
namespace Spelling
open String (utf8EncodeChar)

section Read

variable {bits low high more n : Nat} {pending : Option Pending} {byte : UInt8} {rest : List UInt8}

theorem byteSize (small : n < 0x100) : (UInt8.ofNat n).toNat = n := by
  rw [UInt8.toNat_ofNat',Nat.mod_eq_of_lt small]

theorem firstTwo (above : 0xc2 ≤ n) (below : n < 0xe0) :
    next none (.ofNat n) = ([],some ⟨n % 0x20,0x80,0xbf,0⟩) := by
  unfold next first
  dsimp only
  rw [byteSize (by omega),if_neg (by omega),if_neg (by omega),if_pos below]

theorem firstThree (above : 0xe0 ≤ n) (below : n < 0xf0) : next none (.ofNat n) =
    ([],some ⟨n % 0x10,if n = 0xe0 then 0xa0 else 0x80,if n = 0xed then 0x9f else 0xbf,1⟩) := by
  unfold next first
  dsimp only
  rw [byteSize (by omega),if_neg (by omega),if_neg (by omega),if_neg (by omega),if_pos below]

theorem firstFour (above : 0xf0 ≤ n) (below : n ≤ 0xf4) : next none (.ofNat n) =
    ([],some ⟨n % 8,if n = 0xf0 then 0x90 else 0x80,if n = 0xf4 then 0x8f else 0xbf,2⟩) := by
  unfold next first
  dsimp only
  rw [byteSize (by omega),if_neg (by omega),if_neg (by omega),if_neg (by omega),if_neg (by omega)]

theorem nextLast (above : low ≤ n) (below : n ≤ high) (small : n < 0x100) :
    next (some ⟨bits,low,high,0⟩) (.ofNat n) = ([.ofNat (bits * 0x40 + n % 0x40)],none) := by
  unfold next
  dsimp only
  rw [byteSize small,if_pos ⟨above,below⟩]

theorem nextMore (above : low ≤ n) (below : n ≤ high) (small : n < 0x100) :
    next (some ⟨bits,low,high,more + 1⟩) (.ofNat n) =
      ([],some ⟨bits * 0x40 + n % 0x40,0x80,0xbf,more⟩) := by
  unfold next
  dsimp only
  rw [byteSize small,if_pos ⟨above,below⟩]

theorem readOn {later : Pending} (step : next pending byte = ([],some later)) :
    read pending (byte :: rest) = read (some later) rest := by
  rw [read,step]
  rfl

theorem readEnd {c : Char} (step : next pending byte = ([c],none)) :
    read pending (byte :: rest) = c :: read none rest := by
  rw [read,step]
  rfl

theorem readOne (small : n < 0x80) : read none (.ofNat n :: rest) = .ofNat n :: read none rest := by
  have plain : next none (.ofNat n) = ([.ofNat n],none) := by
    unfold next first
    dsimp only
    rw [byteSize (by omega),if_pos small]
  exact readEnd plain

theorem readTwo (above : 0x80 ≤ n) (below : n < 0x800) :
    read none (.ofNat (n / 0x40 % 0x20 + 0xc0) :: .ofNat (n % 0x40 + 0x80) :: rest) =
      .ofNat n :: read none rest := by
  have bits : (n / 0x40 % 0x20 + 0xc0) % 0x20 * 0x40 + (n % 0x40 + 0x80) % 0x40 = n := by omega
  rw [readOn (firstTwo (by omega) (by omega)),
    readEnd (nextLast (by omega) (by omega) (by omega)),bits]

theorem readThree (above : 0x800 ≤ n) (below : n < 0xd800 ∨ 0xdfff < n ∧ n < 0x10000) :
    read none (.ofNat (n / 0x1000 % 0x10 + 0xe0) :: .ofNat (n / 0x40 % 0x40 + 0x80) ::
      .ofNat (n % 0x40 + 0x80) :: rest) = .ofNat n :: read none rest := by
  have bits : ((n / 0x1000 % 0x10 + 0xe0) % 0x10 * 0x40 + (n / 0x40 % 0x40 + 0x80) % 0x40) * 0x40 +
      (n % 0x40 + 0x80) % 0x40 = n := by omega
  rw [readOn (firstThree (by omega) (by omega)),
    readOn (nextMore (by split <;> omega) (by split <;> omega) (by omega)),
    readEnd (nextLast (by omega) (by omega) (by omega)),bits]

theorem readFour (above : 0x10000 ≤ n) (below : n < 0x110000) :
    read none (.ofNat (n / 0x40000 % 0x08 + 0xf0) :: .ofNat (n / 0x1000 % 0x40 + 0x80) ::
      .ofNat (n / 0x40 % 0x40 + 0x80) :: .ofNat (n % 0x40 + 0x80) :: rest) =
      .ofNat n :: read none rest := by
  have bits : (((n / 0x40000 % 0x08 + 0xf0) % 8 * 0x40 + (n / 0x1000 % 0x40 + 0x80) % 0x40) * 0x40 +
      (n / 0x40 % 0x40 + 0x80) % 0x40) * 0x40 + (n % 0x40 + 0x80) % 0x40 = n := by omega
  rw [readOn (firstFour (by omega) (by omega)),
    readOn (nextMore (by split <;> omega) (by split <;> omega) (by omega)),
    readOn (nextMore (by omega) (by omega) (by omega)),
    readEnd (nextLast (by omega) (by omega) (by omega)),bits]

theorem readChar (c : Char) (rest : List UInt8) :
    read none (utf8EncodeChar c ++ rest) = c :: read none rest := by
  have valid : c.val.toNat < 0xd800 ∨ 0xdfff < c.val.toNat ∧ c.val.toNat < 0x110000 := c.valid
  have same : Char.ofNat c.val.toNat = c := Char.ofNat_toNat c
  have whole : read none (utf8EncodeChar c ++ rest) = .ofNat c.val.toNat :: read none rest := by
    unfold utf8EncodeChar
    dsimp only
    split
    · exact readOne (by omega)
    split
    · exact readTwo (by omega) (by omega)
    split
    · exact readThree (by omega) (by omega)
    · exact readFour (by omega) (by omega)
  rw [whole,same]

theorem readChars (chars : List Char) : read none (chars.flatMap utf8EncodeChar) = chars := by
  induction chars with
  | nil => rfl
  | cons c rest ih => rw [List.flatMap_cons,readChar,ih]

end Read

theorem shownText (text : String) : (ofString text).shown = text := by
  rw [shown,ofString,readChars,String.ofList_toList]

variable {front back : List UInt8} {byte : UInt8}

def Encoded (bytes : List UInt8) : Prop := ∃ chars : List Char, bytes = chars.flatMap utf8EncodeChar

def Unicode (s : Spelling) : Prop := ∃ text : String, s = ofString text

theorem unicodeIff {s : Spelling} : s.Unicode ↔ Encoded s.bytes := by
  constructor
  · rintro ⟨text,rfl⟩
    exact ⟨_,rfl⟩
  · rintro ⟨chars,same⟩
    refine ⟨String.ofList chars,?_⟩
    rw [ofString,String.toList_ofList,← same]

theorem encodedPlain {c : Char} (member : byte ∈ utf8EncodeChar c) (plain : byte.toNat < 0x80) :
    utf8EncodeChar c = [byte] := by
  have valid : c.val.toNat < 0xd800 ∨ 0xdfff < c.val.toNat ∧ c.val.toNat < 0x110000 := c.valid
  have tall {n : Nat} (above : 0x80 ≤ n) (small : n < 0x100) : byte ≠ .ofNat n := by
    rintro rfl
    rw [byteSize small] at plain
    omega
  unfold utf8EncodeChar at member ⊢
  dsimp only at member ⊢
  generalize c.val.toNat = v at *
  split at member
  · rename_i small
    rw [if_pos small,List.mem_singleton.mp member]
  · exfalso
    split at member
    · simp (disch := omega) only [List.mem_cons,List.not_mem_nil,tall,or_self] at member
    split at member
    · simp (disch := omega) only [List.mem_cons,List.not_mem_nil,tall,or_self] at member
    · simp (disch := omega) only [List.mem_cons,List.not_mem_nil,tall,or_self] at member

theorem Encoded.append (left : Encoded front) (right : Encoded back) : Encoded (front ++ back) := by
  obtain ⟨xs,rfl⟩ := left
  obtain ⟨ys,rfl⟩ := right
  exact ⟨xs ++ ys,List.flatMap_append.symm⟩

theorem encodedNil : Encoded [] := ⟨[],rfl⟩

theorem Encoded.parts (whole : Encoded (front ++ byte :: back)) (plain : byte.toNat < 0x80) :
    Encoded front ∧ Encoded back := by
  obtain ⟨chars,same⟩ := whole
  induction chars generalizing front with
  | nil => simp at same
  | cons c rest ih =>
    have own : Encoded (utf8EncodeChar c) := ⟨[c],by simp⟩
    rw [List.flatMap_cons] at same
    -- The first character goes up to the byte at most, or else the byte is in it and so alone.
    rcases List.append_eq_append_iff.mp same with ⟨inside,char,ends⟩ | ⟨between,starts,left⟩
    · cases inside with
      | nil =>
        rw [List.append_nil] at char
        exact ⟨char ▸ own,(@ih [] ends).2⟩
      | cons first inside =>
        obtain ⟨rfl,later⟩ := List.cons.inj ends
        have alone := encodedPlain (c := c) (by simp [char]) plain
        rw [alone,List.singleton_eq_append_iff] at char
        rcases char with ⟨none,tail⟩ | ⟨-,tail⟩
        · obtain ⟨-,rfl⟩ := List.cons.inj tail
          exact ⟨none ▸ encodedNil,rest,later⟩
        · contradiction
    · obtain ⟨front,back⟩ := ih left.symm
      exact ⟨starts ▸ own.append front,back⟩

theorem encodedSlash : Encoded [Path.slash] := ⟨['/'],by decide⟩

theorem encodedDot : Encoded [Path.dot] := ⟨['.'],by decide⟩

theorem aroundSlash : Encoded (front ++ Path.slash :: back) ↔ Encoded front ∧ Encoded back :=
  ⟨fun whole => whole.parts (by decide),fun ⟨left,right⟩ => left.append (encodedSlash.append right)⟩

theorem behindSlash : Encoded (Path.slash :: back) ↔ Encoded back :=
  (@aroundSlash [] back).trans (and_iff_right encodedNil)

theorem behindDot : Encoded (Path.dot :: back) ↔ Encoded back :=
  ⟨fun whole => (@Encoded.parts [] back _ whole (by decide)).2,encodedDot.append⟩

theorem trimsEncoded (trims : Path.Trims front back) : Encoded front ↔ Encoded back := by
  cases trims <;> simp only [aroundSlash,behindSlash,behindDot,encodedNil,and_true]

theorem unicodeSame {a b : Spelling} (same : Path.ofSpelling a = Path.ofSpelling b) :
    a.Unicode ↔ b.Unicode := by
  rw [unicodeIff,unicodeIff]
  exact (Path.keptJoined (fun trims => propext (trimsEncoded trims)) (Path.respelledIff.mpr same)).to_iff

theorem Unicode.reread {s : Spelling} (unicode : s.Unicode) : ofString s.shown = s := by
  obtain ⟨text,rfl⟩ := unicode
  rw [shownText]

end Spelling
end DeclViews
