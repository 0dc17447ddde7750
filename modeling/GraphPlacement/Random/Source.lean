/-!
# Random numbers

**Sources.** A source is a state from which one word of 64 random bits is drawn at a time.  Both kinds
of number that a placement needs are made from words, in the same way for every source.

**Below a bound.** The product of a word with the bound is a number of two words, whose high word is
the result.  Low words past `acceptLimit` are drawn again, so that each result comes from equally many
words.  A bound of one costs a draw too.

**In the unit interval.** The upper 52 bits of a word are the places after the binary point.
-/

namespace GraphPlacement.Random

/-- A state that words of 64 random bits are drawn from. -/
class Source (σ : Type) where
  /-- Draws a word. -/
  next : σ → UInt64 × σ

def wordCount : Nat := UInt64.size

/-- The greatest low word that is accepted for a bound: the bound moved up to the top bit, less one. -/
def acceptLimit (bound : Nat) : Nat := (bound <<< (63 - bound.log2)) - 1

/-- The high and the low word of the product of a word with a bound. -/
def stretch (word : UInt64) (bound : Nat) : Nat × Nat :=
  (word.toNat * bound / wordCount, word.toNat * bound % wordCount)

/-- More draws than any source needs to come back to a state that it was in. -/
def drawLimit : Nat := 1 <<< 256

variable {σ : Type} [Source σ]

/-- Draws a number below a bound, with at most `draws` draws after the first. -/
def belowWithin (bound : Nat) : Nat → σ → Nat × σ
  | 0, s => let (word, s) := Source.next s; ((stretch word bound).1, s)
  | draws + 1, s =>
    let (word, s) := Source.next s
    let (high, low) := stretch word bound
    if low ≤ acceptLimit bound then (high, s) else belowWithin bound draws s

def below (bound : Nat) (s : σ) : Nat × σ := belowWithin bound drawLimit s

/-- Draws a number of the unit interval, one excluded. -/
def unit (s : σ) : Float × σ :=
  let (word, s) := Source.next s
  ((word >>> 12).toFloat / 4503599627370496.0, s)

/-- The high word of the product with a bound stays below the bound. -/
theorem stretch_fst_lt (word : UInt64) {bound : Nat} (h : 0 < bound) :
    (stretch word bound).1 < bound := by
  have hw : word.toNat < wordCount := word.toNat_lt
  exact Nat.div_lt_of_lt_mul (Nat.mul_lt_mul_of_pos_right hw h)

/-- However many draws are allowed, the result is below the bound. -/
theorem belowWithin_lt {bound : Nat} (h : 0 < bound) (draws : Nat) (s : σ) :
    (belowWithin bound draws s).1 < bound := by
  induction draws generalizing s with
  | zero => exact stretch_fst_lt _ h
  | succ draws ih =>
    simp only [belowWithin]
    split
    · exact stretch_fst_lt _ h
    · exact ih _

theorem below_lt {bound : Nat} (h : 0 < bound) (s : σ) : (below bound s).1 < bound :=
  belowWithin_lt h _ s

end GraphPlacement.Random
