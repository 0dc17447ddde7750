import GraphPlacement.Random.Source

/-!
# A counting source

**Counting.** Words that go up by a fixed amount from a fixed start, modulo their size.  Its draws are
known in advance, which makes a placement that depends on chance reproducible by hand.
-/

namespace GraphPlacement.Random

/-- A source that counts. -/
structure Counter where
  /-- The next word. -/
  value : UInt64
  /-- How far the words are apart. -/
  increment : UInt64
deriving DecidableEq, Repr

instance : Source Counter where
  next c := (c.value, { c with value := c.value + c.increment })

end GraphPlacement.Random
