/-! Modification stamps. A stamp counts how often the root of a file was replaced, as a number of
64 bits, and stays at the largest once it is there. -/
namespace DeclViews

def Stamp.limit : Nat := UInt64.size - 1

structure Stamp where
  count : Nat
  inRange : count ≤ Stamp.limit
  deriving DecidableEq, Repr

namespace Stamp

instance : LT Stamp := ⟨fun a b => a.count < b.count⟩
instance : LE Stamp := ⟨fun a b => a.count ≤ b.count⟩
instance (a b : Stamp) : Decidable (a < b) := inferInstanceAs (Decidable (a.count < b.count))
instance (a b : Stamp) : Decidable (a ≤ b) := inferInstanceAs (Decidable (a.count ≤ b.count))

theorem sameCount {a b : Stamp} (h : a.count = b.count) : a = b := by
  cases a
  cases b
  cases h
  rfl

theorem ltOfNot {a b : Stamp} (differ : a ≠ b) (notAbove : ¬ b < a) : a < b :=
  Nat.lt_of_le_of_ne (Nat.not_lt.mp notAbove) fun same => differ (sameCount same)

def initial : Stamp := ⟨0,Nat.zero_le _⟩

def next (s : Stamp) : Stamp := ⟨min (s.count + 1) limit,Nat.min_le_right _ _⟩

def after (replacements : Nat) : Stamp := ⟨min replacements limit,Nat.min_le_right _ _⟩

theorem nextCount {s : Stamp} (room : s.count < limit) : s.next.count = s.count + 1 :=
  Nat.min_eq_left room

theorem nextFull {s : Stamp} (full : s.count = limit) : s.next = s := by
  have above : limit ≤ s.count + 1 := full ▸ Nat.le_succ _
  exact sameCount ((Nat.min_eq_right above).trans full.symm)

theorem leNext (s : Stamp) : s ≤ s.next := Nat.le_min.mpr ⟨Nat.le_succ _,s.inRange⟩

theorem afterNone : after 0 = initial := sameCount (Nat.zero_min limit)

theorem afterNext (replacements : Nat) : after (replacements + 1) = (after replacements).next := by
  apply sameCount
  simp only [after,next]
  omega

def order (a b : Stamp) : Ordering := compare a.count b.count

def text (s : Stamp) : String := "#" ++ toString s.count

def record (s : Stamp) : String := "ModificationStamp(" ++ toString s.count ++ ")"

end Stamp
end DeclViews
