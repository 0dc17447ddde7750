import GraphPlacement.Decimal.Reader
import GraphPlacement.Edge
import GraphPlacement.Journal
import GraphPlacement.Listing.Records

/-!
# Edge listings

**Record.** A line holds the source, the target and, if it likes, the weight of an edge; the weight is
one otherwise.

**Counts.** A listing does not say how many nodes the graph has, so they are counted in a pass of their
own: one more than the largest node.  A listing whose largest node is far above the number of its edges
is worth a warning, since the slots of an assignment are by node.
-/

namespace GraphPlacement.Listing

def readEdge : LineReader Edge := fun line text =>
  match Text.fields text with
  | [] => return none
  | [src, dst] => return some { src := ← readNode line src, dst := ← readNode line dst }
  | [src, dst, weight] => do
    let src ← readNode line src
    let dst ← readNode line dst
    let weight ← readField line .weight Decimal.read? weight
    return some { src, dst, weight }
  | found => throw (.malformed line (.edgeFields found.length))

def edges (content : ByteArray) : List (Item Edge) := items readEdge content

/-- What a counting pass finds. -/
structure Counts where
  /-- One more than the largest node. -/
  nodes : Nat := 0
  edges : Nat := 0
deriving DecidableEq, Repr

/-- Counts one edge more; a node must leave room for the number after it. -/
def Counts.add (counts : Counts) (item : Item Edge) : Except Fault Counts := do
  let edge ← item.value
  let nodes := max edge.src edge.dst + 1
  if Text.wordBound ≤ nodes then throw (.malformed item.line .nodeIdTooLarge)
  return { nodes := max counts.nodes nodes, edges := counts.edges + 1 }

/-- Counts the nodes and edges of a listing. -/
def countEdges (content : ByteArray) : Except Fault Counts := (edges content).foldlM Counts.add {}

/-- Whether a graph has far more nodes than a number of records accounts for. -/
def isSparse (nodes records : Nat) : Bool := max (records * 16) 1024 < nodes

/-- The warning that a counting pass gives. -/
def Counts.events (counts : Counts) : List Event :=
  if isSparse counts.nodes counts.edges then [.sparseEdgeIds (counts.nodes - 1) counts.edges] else []

end GraphPlacement.Listing
