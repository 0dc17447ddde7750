import GraphPlacement.Fault

/-!
# Numbers that are words

**Words.** Counters and sizes are kept as words of 64 bits, so a number that comes out of a sum or a
product has to be brought back to one.

**Overflow.** What happens to a number that is too large for a word depends on how the program is built:
it stops the run, or it wraps, which means that it is taken modulo the number of words.  A run that stops
has not changed what it was about to count.
-/

namespace GraphPlacement

/-- What happens to a number that is too large for a word. -/
inductive Overflow where
  | stops
  | wraps
deriving DecidableEq, Repr

namespace Overflow

/-- The word that a number is kept as. -/
def word : Overflow → Nat → Except Fault Nat
  | .stops, n => if n < UInt64.size then .ok n else .error .overflow
  | .wraps, n => .ok (n % UInt64.size)

/-- A number that is a word already is kept as it is. -/
theorem word_of_lt {n : Nat} (h : n < UInt64.size) (overflow : Overflow) : overflow.word n = .ok n := by
  cases overflow with
  | stops => exact if_pos h
  | wraps => rw [word, Nat.mod_eq_of_lt h]

theorem word_stops_of_le {n : Nat} (h : UInt64.size ≤ n) : stops.word n = .error .overflow :=
  if_neg (Nat.not_lt.mpr h)

end Overflow

end GraphPlacement
