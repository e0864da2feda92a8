/-!
Instants and lengths of time, counted in whole milliseconds as 64-bit words.

The device, the stored entries and the page all count milliseconds since the
epoch. No operation on them wraps: a sum is either checked (`add?`) or stays at
the last instant (`addClamped`), and a difference stays at the epoch
(`subClamped`). The lemmas say what each operation does to the number behind the
word, so that nothing else has to open these definitions.
-/

namespace MinerWatch

/-- Milliseconds since the epoch, or a length of time in milliseconds. -/
abbrev Millis := UInt64

namespace Millis

def last : Millis := 18446744073709551615

def add? (a b : Millis) : Option Millis :=
  if a.toNat + b.toNat < UInt64.size then some (a + b) else none

/-- The sum, or the last instant when the sum lies beyond it. -/
def addClamped (a b : Millis) : Millis :=
  (add? a b).getD last

/-- The difference, or the epoch when the difference lies before it. -/
def subClamped (a b : Millis) : Millis :=
  if b ≤ a then a - b else 0

/-- The next instant. The last instant is its own successor. -/
def next (a : Millis) : Millis :=
  addClamped a 1

theorem toNat_last : last.toNat = UInt64.size - 1 := rfl

theorem add?_eq_none_iff {a b : Millis} : add? a b = none ↔ UInt64.size ≤ a.toNat + b.toNat := by
  rw [add?, ite_eq_right_iff]
  constructor
  · intro h
    exact Nat.not_lt.1 fun lt => Option.some_ne_none _ (h lt)
  · intro le lt
    exact absurd lt (Nat.not_lt.2 le)

theorem toNat_addClamped (a b : Millis) :
    (addClamped a b).toNat = min (a.toNat + b.toNat) (UInt64.size - 1) := by
  unfold addClamped add?
  split
  · simp only [Option.getD_some, UInt64.toNat_add, UInt64.size] at *
    omega
  · simp only [Option.getD_none, toNat_last, UInt64.size] at *
    omega

theorem toNat_subClamped (a b : Millis) : (subClamped a b).toNat = a.toNat - b.toNat := by
  unfold subClamped
  split
  · rename_i h
    exact UInt64.toNat_sub_of_le a b h
  · rename_i h
    have := UInt64.not_le.1 h
    rw [UInt64.lt_iff_toNat_lt] at this
    simp only [UInt64.toNat_zero]
    omega

theorem toNat_next (a : Millis) : (next a).toNat = min (a.toNat + 1) (UInt64.size - 1) :=
  toNat_addClamped a 1

end Millis
end MinerWatch
