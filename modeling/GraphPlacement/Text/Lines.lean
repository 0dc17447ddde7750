/-!
# Physical lines

**Lines.** A line ends at a line feed; one carriage return right before that line feed belongs to the
ending too.  Bytes after the last line feed are a last line, without an ending, and keep a carriage
return.  An empty content has no line.

**Text.** A line whose bytes are not the encoding of any text is kept in its place as `none`: readers
report it and go on with the next line.
-/

namespace GraphPlacement.Text

def lineFeed : UInt8 := 10

def carriageReturn : UInt8 := 13

/-- Closes a line at its line feed: the bytes come in reverse, a carriage return in front is dropped. -/
def closeLine : List UInt8 → List UInt8
  | [] => []
  | b :: rest => if b = carriageReturn then rest.reverse else (b :: rest).reverse

/-- The lines of `bs`, the first of them continuing `reading` (kept in reverse). -/
def byteLinesFrom (reading : List UInt8) : List UInt8 → List (List UInt8)
  | [] => if reading.isEmpty then [] else [reading.reverse]
  | b :: bs =>
    if b = lineFeed then closeLine reading :: byteLinesFrom [] bs
    else byteLinesFrom (b :: reading) bs

def decode? (bytes : List UInt8) : Option String :=
  String.fromUTF8? ⟨bytes.toArray⟩

/-- The physical lines of a content, each without its ending. -/
def lines (content : ByteArray) : List (Option String) :=
  (byteLinesFrom [] content.data.toList).map decode?

@[simp] theorem byteLinesFrom_nil : byteLinesFrom [] [] = [] := rfl

/-- A line feed closes the line that is being read. -/
@[simp] theorem byteLinesFrom_lineFeed (reading bs : List UInt8) :
    byteLinesFrom reading (lineFeed :: bs) = closeLine reading :: byteLinesFrom [] bs := by
  simp [byteLinesFrom]

/-- Any other byte continues it. -/
theorem byteLinesFrom_cons {b : UInt8} (h : b ≠ lineFeed) (reading bs : List UInt8) :
    byteLinesFrom reading (b :: bs) = byteLinesFrom (b :: reading) bs := by
  simp [byteLinesFrom, h]

end GraphPlacement.Text
