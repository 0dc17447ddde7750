import GraphPlacement.Random.Source

/-!
# The xoshiro256++ generator

**State.** Four words, mixed by shifts, rotations and exclusive or.  Each step gives out a rotated sum
of the first and the last word before the state is mixed.

**Seeding.** A seed of one word is stretched to the state by eight outputs of a permuted congruential
generator, each of 32 bits, the lower half of each word first.
-/

namespace GraphPlacement.Random

/-- The state of the generator. -/
structure Xoshiro where
  s0 : UInt64
  s1 : UInt64
  s2 : UInt64
  s3 : UInt64
deriving DecidableEq, Repr

/-- A word turned left by `n` bits, for `n` between 1 and 63. -/
def rotateLeft (w : UInt64) (n : UInt64) : UInt64 := (w <<< n) ||| (w >>> (64 - n))

/-- A half word turned right by `n` bits. -/
def rotateRightHalf (w : UInt32) (n : UInt32) : UInt32 :=
  if n % 32 = 0 then w else (w >>> n) ||| (w <<< (32 - n % 32))

namespace Xoshiro

def output (x : Xoshiro) : UInt64 := rotateLeft (x.s0 + x.s3) 23 + x.s0

def advance (x : Xoshiro) : Xoshiro :=
  let s2 := x.s2 ^^^ x.s0
  let s3 := x.s3 ^^^ x.s1
  { s0 := x.s0 ^^^ s3
    s1 := x.s1 ^^^ s2
    s2 := s2 ^^^ (x.s1 <<< 17)
    s3 := rotateLeft s3 45 }

instance : Source Xoshiro where
  next x := (x.output, x.advance)

/-- One step of the congruential generator that stretches a seed. -/
def stretchSeed (x : UInt64) : UInt64 := x * 6364136223846793005 + 11634580027462260723

/-- The half word that a congruential state gives out. -/
def halfWord (x : UInt64) : UInt32 :=
  rotateRightHalf (((x >>> 18) ^^^ x) >>> 27).toUInt32 (x >>> 59).toUInt32

/-- The two half words after `x` as a word, the earlier one below, and the state after them. -/
def seedWord (x : UInt64) : UInt64 × UInt64 :=
  let low := stretchSeed x
  let high := stretchSeed low
  ((halfWord low).toUInt64 ||| ((halfWord high).toUInt64 <<< 32), high)

/-- The generator that starts from a seed. -/
def ofSeed (seed : UInt64) : Xoshiro :=
  let (s0, x) := seedWord seed
  let (s1, x) := seedWord x
  let (s2, x) := seedWord x
  let (s3, _) := seedWord x
  ⟨s0, s1, s2, s3⟩

end Xoshiro

end GraphPlacement.Random
