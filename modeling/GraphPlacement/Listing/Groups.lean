import GraphPlacement.Decimal.Reader
import GraphPlacement.Edge
import GraphPlacement.Listing.Records

/-!
# Group listings

**Record.** A line holds a node, the number of its edges, and the edges themselves: either a target
each, or a target and a weight each.  Which of the two it is follows from how many fields there are; any
other number of fields is malformed.  In a pair the weight is read before the target.

**Words.** The length that pairs must have is a word.  A reader does not stop a run from inside, so it is the
program with words that wrap that is followed here: from 2^63 edges on, that length is not the double of their
number any more.

**Text.** A record keeps the text of its line, so that it can be copied as it was.
-/

namespace GraphPlacement.Listing

/-- A node with its edges, as a line of a listing gives it. -/
structure GroupLine where
  node : Nat
  edges : List Edge
  /-- Whether the line gives weights. -/
  weighted : Bool
  /-- The line, without its ending. -/
  text : String
deriving DecidableEq

namespace GroupLine

def degree (g : GroupLine) : Nat := g.edges.length

/-- The node with the set of its neighbours. -/
def group (g : GroupLine) : Group := .ofList g.node (g.edges.map Edge.dst)

def ends (g : GroupLine) : List (Nat × Nat) := g.edges.map Edge.ends

end GroupLine

/-- Reads edges that are given by their targets. -/
def readTargets (line node : Nat) (fields : List String) : Except Fault (List Edge) :=
  fields.mapM fun dst => return { src := node, dst := ← readNode line dst }

/-- Reads edges that are given by pairs of a target and a weight. -/
def readPairs (line node : Nat) : List String → Except Fault (List Edge)
  | dst :: weight :: rest => do
    let weight ← readField line .weight Decimal.read? weight
    let dst ← readNode line dst
    let later ← readPairs line node rest
    return { src := node, dst, weight } :: later
  | _ => return []

/-- Reads the edges of a node: their number, and the fields that follow it.  The flag tells whether they
come with weights. -/
def readGroupEdges (line node declared : Nat) (rest : List String) :
    Except Fault (List Edge × Bool) := do
  if rest.length = declared then return (← readTargets line node rest, false)
  else if rest.length = 2 * declared % UInt64.size then return (← readPairs line node rest, true)
  else throw (.malformed line (.groupFields declared rest.length))

def readGroup : LineReader GroupLine := fun line text =>
  match Text.fields text with
  | [] => return none
  | node :: fields => do
    let node ← readNode line node
    match fields with
    | [] => throw (.malformed line .noEdgeCount)
    | count :: rest =>
      let declared ← readField line .edgeCount Text.natural? count
      let (edges, weighted) ← readGroupEdges line node declared rest
      return some { node, edges, weighted, text }

def groups (content : ByteArray) : List (Item GroupLine) := items readGroup content

/-- All groups of a listing, or the first fault. -/
def allGroups (content : ByteArray) : Except Fault (List GroupLine) := records (groups content)

end GraphPlacement.Listing
