import GraphPlacement.Listing.Records
import GraphPlacement.Placement

/-!
# Placement listings

**Record.** A line holds the source, the target and the host of a placed edge.  The host is read first,
so of two bad fields it is the host that is reported if it is one of them.

**Writing.** Placements are written one on a line, in the form that is read.
-/

namespace GraphPlacement.Listing

def readPlaced : LineReader Placed := fun line text =>
  match Text.fields text with
  | [] => return none
  | [src, dst, host] => do
    let host ← readField line .host Text.natural? host
    let src ← readNode line src
    let dst ← readNode line dst
    return some { src, dst, host }
  | _ => throw (.malformed line .placementFields)

/-- All placed edges of a listing, or the first fault. -/
def placements (content : ByteArray) : Except Fault (List Placed) :=
  records (items readPlaced content)

/-- The line of a placed edge, with its ending. -/
def placedLine (p : Placed) : String :=
  Text.decimal p.src ++ " " ++ Text.decimal p.dst ++ " " ++ Text.decimal p.host ++ "\n"

def writePlacements (ps : List Placed) : String := String.join (ps.map placedLine)

end GraphPlacement.Listing
