import GraphPlacement.Fault
import GraphPlacement.Text.Fields
import GraphPlacement.Text.Lines
import GraphPlacement.Text.Numeral

/-!
# Records of a listing

**Items.** A listing holds one record on a line.  A line without a record is passed over; every other
line gives an item, which is a record or the fault that stands in its place.  Reading goes on after a
fault, so it is for the user of the items to stop at the first one.

**Line numbers.** Lines are numbered from one as they are read.  A line that is no text gives an item,
but the number stays at the last line that was one.
-/

namespace GraphPlacement.Listing

/-- Reads the record of a line, given its number and its text; there may be none on it. -/
abbrev LineReader (α : Type) := Nat → String → Except Fault (Option α)

/-- What a line of a listing gives, with the number that reading has come to. -/
structure Item (α : Type) where
  line : Nat
  value : Except Fault α

variable {α : Type}

/-- The items of some lines, of which `read` have been counted before. -/
def itemsFrom (reader : LineReader α) (read : Nat) : List (Option String) → List (Item α)
  | [] => []
  | none :: rest => ⟨read, .error (.unreadable .notText)⟩ :: itemsFrom reader read rest
  | some text :: rest =>
    match reader (read + 1) text with
    | .ok none => itemsFrom reader (read + 1) rest
    | .ok (some a) => ⟨read + 1, .ok a⟩ :: itemsFrom reader (read + 1) rest
    | .error fault => ⟨read + 1, .error fault⟩ :: itemsFrom reader (read + 1) rest

def items (reader : LineReader α) (content : ByteArray) : List (Item α) :=
  itemsFrom reader 0 (Text.lines content)

/-- The line number that reading a whole content comes to. -/
def lastLine (content : ByteArray) : Nat := (Text.lines content).countP Option.isSome

/-- All records of some items, or the first fault. -/
def records (items : List (Item α)) : Except Fault (List α) := items.mapM Item.value

/-! ## Fields -/

/-- Reads a field, with the reason that stands for one that cannot be read. -/
def readField {β : Type} (line : Nat) (reason : String → Reason) (parse : String → Option β)
    (raw : String) : Except Fault β :=
  match parse raw with
  | some b => .ok b
  | none => .error (.malformed line (reason raw))

def readNode (line : Nat) (raw : String) : Except Fault Nat :=
  readField line .nodeId Text.natural? raw

end GraphPlacement.Listing
