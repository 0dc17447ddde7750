import GraphPlacement.Listing.Edges
import GraphPlacement.Listing.Format
import GraphPlacement.Listing.Groups
import GraphPlacement.Quality.Cut

/-!
# Cuts over a listing

**One walk.** The edges of a listing are counted in the order in which they stand there, across the
records that hold them.  Whatever comes first decides a failure, be it a line that cannot be read or an
endpoint that the assignment has no slot for; a part of the listing is never reported as the whole.
-/

namespace GraphPlacement.Listing

variable {α : Type}

/-- Counts the edges of one item more. -/
def tallyItem (a : Assignment) (ends : α → List (Nat × Nat)) (t : Tally) (item : Item α) :
    Except Fault Tally := do
  a.tallyFrom t (ends (← item.value))

/-- Counts the edges of all items. -/
def tallyItems (a : Assignment) (ends : α → List (Nat × Nat)) (items : List (Item α)) :
    Except Fault Tally :=
  items.foldlM (tallyItem a ends) {}

/-- Counts the edges of a listing in either format. -/
def tally (a : Assignment) (content : ByteArray) : Format → Except Fault Tally
  | .groups => tallyItems a GroupLine.ends (groups content)
  | .edges => tallyItems a (fun e => [e.ends]) (edges content)

end GraphPlacement.Listing
