/-! Paths as they are spelled, shown and compared. A spelling is any bytes. To be shown it is read
as UTF-8, with one replacement character for each run of bytes that is cut short of a character, so
that two spellings may be shown alike. To be compared it is a list of components: repeated slashes,
a slash at the end and a dot that is not the first component make no difference; two dots are a
component like any other. The root comes before one dot, that before two dots, and those before
names, which are ordered by their bytes. -/
namespace DeclViews

structure Spelling where
  bytes : List UInt8
  deriving DecidableEq, Repr

namespace Spelling

def ofString (text : String) : Spelling := ⟨text.toList.flatMap String.utf8EncodeChar⟩

instance : Coe String Spelling := ⟨ofString⟩

/-- A character of which bytes are outstanding: its bits so far, the bounds of the next byte, and how
many come behind that. -/
structure Pending where
  bits : Nat
  low : Nat
  high : Nat
  more : Nat

def replacement : Char := '\ufffd'

/-- The bounds of a second byte rule out overlong forms, surrogates and what is beyond the last
character. -/
def first (byte : UInt8) : List Char × Option Pending :=
  let n := byte.toNat
  if n < 0x80 then ([.ofNat n],none)
  else if n < 0xc2 ∨ 0xf4 < n then ([replacement],none)
  else if n < 0xe0 then ([],some ⟨n % 0x20,0x80,0xbf,0⟩)
  else if n < 0xf0 then
    ([],some ⟨n % 0x10,if n = 0xe0 then 0xa0 else 0x80,if n = 0xed then 0x9f else 0xbf,1⟩)
  else ([],some ⟨n % 8,if n = 0xf0 then 0x90 else 0x80,if n = 0xf4 then 0x8f else 0xbf,2⟩)

/-- A byte that does not go on with a character ends it and is looked at anew. -/
def next : Option Pending → UInt8 → List Char × Option Pending
  | none,byte => first byte
  | some ⟨bits,low,high,more⟩,byte =>
    if low ≤ byte.toNat ∧ byte.toNat ≤ high then
      let bits := bits * 0x40 + byte.toNat % 0x40
      match more with
      | 0 => ([.ofNat bits],none)
      | more + 1 => ([],some ⟨bits,0x80,0xbf,more⟩)
    else
      let (chars,pending) := first byte
      (replacement :: chars,pending)

def read : Option Pending → List UInt8 → List Char
  | none,[] => []
  | some _,[] => [replacement]
  | pending,byte :: rest =>
    let (chars,pending) := next pending byte
    chars ++ read pending rest

def shown (s : Spelling) : String := String.ofList (read none s.bytes)

end Spelling

inductive Component where
  | root
  | here
  | parent
  | named (bytes : List UInt8)
  deriving DecidableEq, Repr

namespace Component

def rank : Component → Nat
  | root => 0
  | here => 1
  | parent => 2
  | named _ => 3

def label : Component → List UInt8
  | named bytes => bytes
  | root | here | parent => []

instance : Ord Component := ⟨compareLex (compareOn rank) (compareOn label)⟩

instance : Std.TransOrd Component :=
  inferInstanceAs (Std.TransCmp (compareLex (compareOn rank) (compareOn label)))

theorem equalOfCompare {a b : Component} (h : compare a b = .eq) : a = b := by
  have parts := Ordering.then_eq_eq.mp h
  have ranks : a.rank = b.rank := Std.LawfulEqOrd.eq_of_compare parts.1
  have labels : a.label = b.label := Std.LawfulEqOrd.eq_of_compare parts.2
  cases a <;> cases b <;> simp only [rank,label] at ranks labels <;>
    first | rfl | contradiction | rw [labels]

instance : Std.LawfulEqOrd Component where
  eq_of_compare := equalOfCompare

end Component

abbrev Path := List Component

namespace Path

def slash : UInt8 := '/'.toUInt8

def dot : UInt8 := '.'.toUInt8

/-- Behind a slash, nothing and one dot stand for no component. -/
def component? (segment : List UInt8) : Option Component :=
  if segment = [] ∨ segment = [dot] then none
  else if segment = [dot,dot] then some .parent
  else some (.named segment)

/-- In front of the first slash, nothing is the root, and one dot is a component too. -/
def opening (segment : List UInt8) : Component :=
  if segment = [] then .root
  else if segment = [dot] then .here
  else if segment = [dot,dot] then .parent
  else .named segment

def ofBytes (bytes : List UInt8) : Path :=
  match bytes,bytes.splitOn slash with
  | _ :: _,first :: later => opening first :: later.filterMap component?
  | _,_ => []

def ofSpelling (s : Spelling) : Path := ofBytes s.bytes

end Path
end DeclViews
