import GraphPlacement.Assignment
import GraphPlacement.Listing.Records

/-!
# Node maps

**Record.** A line holds a node and its host, or minus one for a node without a host.  Such a line says
nothing about the node: it neither clears a host nor conflicts with one.  Two different hosts for a node
are a fault.

**Order of checks.** Both fields are read before the node is held against the number of nodes; only then
is a host below minus one refused.

**Writing.** The nodes that have a host are written in ascending order.
-/

namespace GraphPlacement.Listing

/-- A line of a node map: a node and a host, which is negative for none. -/
structure NodeEntry where
  node : Nat
  host : Int
deriving DecidableEq, Repr

def readEntry : LineReader NodeEntry := fun line text =>
  match Text.fields text with
  | [] => return none
  | [node, host] => do
    let node ← readNode line node
    let host ← readField line .host Text.integer? host
    return some { node, host }
  | _ => throw (.malformed line .nodeMapFields)

/-- Takes an entry into an assignment. -/
def takeEntry (line : Nat) (a : Assignment) (e : NodeEntry) : Except Fault Assignment :=
  if a.size ≤ e.node then .error (.nodeOutOfRange e.node a.size)
  else if e.host = -1 then .ok a
  else if e.host < 0 then .error (.malformed line (.host (toString e.host)))
  else
    match Assignment.assign e.node e.host.toNat a with
    | .ok _ a => .ok a
    | .error fault _ => .error fault

def takeItem (a : Assignment) (item : Item NodeEntry) : Except Fault Assignment := do
  takeEntry item.line a (← item.value)

/-- Reads the node map of a graph with `nodes` nodes. -/
def nodeMap (content : ByteArray) (nodes : Nat) : Except Fault Assignment :=
  (items readEntry content).foldlM takeItem (.ofSize nodes)

/-- The line of a node and its host, with its ending. -/
def entryLine (pair : Nat × Nat) : String :=
  Text.decimal pair.1 ++ " " ++ Text.decimal pair.2 ++ "\n"

def writeNodeMap (a : Assignment) : String := String.join (a.pairs.map entryLine)

end GraphPlacement.Listing
