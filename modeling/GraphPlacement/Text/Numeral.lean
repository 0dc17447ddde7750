/-!
# Whole numbers in text

**Reading.** A natural number is one or more decimal digits, a plus sign before them allowed, and fits
in a word of 64 bits.  An integer may carry either sign and fits in a signed word of 64 bits.  Nothing
else is a number: no blanks, no separators, no sign alone.

**Writing.** A number is written with its shortest digits, so what is written is read back.
-/

namespace GraphPlacement.Text

/-- The first number that no longer fits in a word. -/
def wordBound : Nat := UInt64.size

/-- The first number that no longer fits in a signed word. -/
def signedBound : Nat := wordBound / 2

/-- The value of one or more decimal digits. -/
def digits? (cs : List Char) : Option Nat :=
  if cs ≠ [] ∧ cs.all Char.isDigit then some (Nat.ofDigitChars 10 cs 0) else none

/-- The text without a leading plus sign. -/
def dropPlus : List Char → List Char
  | '+' :: cs => cs
  | cs => cs

/-- Reads a natural number that fits in a word. -/
def natural? (text : String) : Option Nat :=
  (digits? (dropPlus text.toList)).filter (· < wordBound)

/-- Reads an integer that fits in a signed word. -/
def integer? (text : String) : Option Int :=
  match text.toList with
  | '-' :: cs => ((digits? cs).filter (· ≤ signedBound)).map fun n => -(n : Int)
  | cs => ((digits? (dropPlus cs)).filter (· < signedBound)).map fun n => (n : Int)

def decimal (n : Nat) : String := n.repr

theorem toList_decimal (n : Nat) : (decimal n).toList = Nat.toDigits 10 n := by
  simp [decimal, Nat.repr_eq_ofList_toDigits]

end GraphPlacement.Text
