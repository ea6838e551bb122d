import DeclViews.Atom.Pool
import DeclViews.Kind
import DeclViews.Span
/-! Serialised values, and how spans, kinds and atoms are written as such and read back. A span is
read from a record or from a pair, a kind from its name or from a record of the name alone. -/
namespace DeclViews

inductive Datum where
  | null
  | bool (value : Bool)
  | whole (value : Nat)
  /-- A number that is negative, has a fraction or an exponent, as it was written. -/
  | number (spelling : String)
  | text (value : String)
  | list (items : List Datum)
  | record (fields : List (String × Datum))
  deriving Inhabited

namespace Datum

def field? (name : String) : Datum → Option Datum
  | .record fields => fields.lookup name
  | _ => none

def word? : Datum → Option Nat
  | .whole value => if value < UInt64.size then some value else none
  | _ => none

end Datum

namespace Span

def toDatum (s : Span) : Datum := .record [("start", .whole s.start), ("end", .whole s.stop)]

/-- Fields of other names are passed over. -/
def ofDatum? : Datum → Option Span
  | .list [start, stop] => do return ⟨← start.word?, ← stop.word?⟩
  | .record fields => do
    let start ← fields.lookup "start"
    let stop ← fields.lookup "end"
    return ⟨← start.word?, ← stop.word?⟩
  | _ => none

theorem datumReadsBack {s : Span} (start : s.start < UInt64.size) (stop : s.stop < UInt64.size) :
    ofDatum? s.toDatum = some s := by
  have first : (Datum.whole s.start).word? = some s.start := if_pos start
  have last : (Datum.whole s.stop).word? = some s.stop := if_pos stop
  show (do return ⟨← (Datum.whole s.start).word?,← (Datum.whole s.stop).word?⟩) = some s
  rw [first,last]
  rfl

end Span

namespace Kind

def toDatum (k : Kind) : Datum := .text k.name

def ofDatum? : Datum → Option Kind
  | .text name => ofName? name
  | .record [(name, .null)] => ofName? name
  | _ => none

theorem datumReadsBack (k : Kind) : ofDatum? k.toDatum = some k := ofNameName k

end Kind

namespace Atom

def toDatum (a : Atom) : Datum := .text a.value

/-- The text alone is read; an atom made from it has an allocation of its own. -/
def textOfDatum? : Datum → Option String
  | .text value => some value
  | _ => none

end Atom
end DeclViews
