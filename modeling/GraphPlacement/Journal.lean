import GraphPlacement.Decimal.Fixed
import GraphPlacement.Placement
import GraphPlacement.Pool

/-!
# What a run tells about itself

**Events.** Placers and file jobs report what they do as events, each with a level.  A reader of the
journal asks for a level and gets the events of that level and of the more severe ones, in order.

**Apart from the work.** The functions that place nodes and edges do not mention events.  What happened
between two states of a pool is told afterwards, from the ceilings on the way.
-/

namespace GraphPlacement

/-- How severe an event is, the most severe level first. -/
inductive Level where
  | warn
  | info
  | debug
  | trace
deriving DecidableEq, Repr

namespace Level

def name : Level → String
  | .warn => "WARN"
  | .info => "INFO"
  | .debug => "DEBUG"
  | .trace => "TRACE"

/-- The place of a level in the order of severity. -/
def rank : Level → Nat
  | .warn => 0
  | .info => 1
  | .debug => 2
  | .trace => 3

end Level

/-- Something that a run reports. -/
inductive Event where
  | batchStarted (nodes hosts : Nat) (strategy : Strategy) (capacity : Float)
  | nodeRepeated (node host : Nat)
  | nodePlaced (node host : Nat)
  | batchFinished (sizes : List Nat)
  | streamStarted (nodes hosts : Nat) (ceiling rise : Float)
  | selfLoop (node : Nat)
  | ceilingRaised (hosts : Nat) (ceiling : Float)
  | edgePlaced (placement : Placement)
  | hostFilled (host : Nat) (load : Load)
  | listingRead (nodes edges : Nat)
  | sparseEdgeIds (largest edges : Nat)
  | sparseGroupIds (largest lines : Nat)
  | batchCut (cut evaluated : Nat) (ratio imbalance : Float)
  | streamBalanced (ceiling : Float) (raises : Nat) (imbalance : Float)
  | cutsCounted (cut evaluated skipped : Nat)

def listText (ns : List Nat) : String :=
  "[" ++ ", ".intercalate (ns.map Text.decimal) ++ "]"

namespace Event

def level : Event → Level
  | .nodeRepeated .. | .selfLoop .. | .sparseEdgeIds .. | .sparseGroupIds .. => .warn
  | .ceilingRaised .. => .debug
  | .nodePlaced .. | .edgePlaced .. => .trace
  | _ => .info

def text : Event → String
  | .batchStarted nodes hosts strategy capacity =>
    s!"batch partitioning {nodes} nodes onto {hosts} hosts, strategy " ++ strategy.name ++
      ", capacity " ++ Decimal.fixed 3 capacity
  | .nodeRepeated node host => s!"node {node} listed more than once, keeping host {host}"
  | .nodePlaced node host => s!"node {node} -> host {host}"
  | .batchFinished sizes => "batch partitioning done, host sizes " ++ listText sizes
  | .streamStarted nodes hosts ceiling rise =>
    s!"streaming {nodes} nodes onto {hosts} hosts, initial ceiling " ++ Decimal.fixed 3 ceiling ++
      ", growth " ++ Decimal.fixed 3 rise
  | .selfLoop node => s!"self loop on node {node}"
  | .ceilingRaised hosts ceiling =>
    s!"all {hosts} hosts saturated, ceiling raised to " ++ Decimal.fixed 3 ceiling
  | .edgePlaced p =>
    "edge (" ++ Text.decimal p.src ++ ", " ++ Text.decimal p.dst ++ ") -> host " ++
      Text.decimal p.host ++ " via " ++ p.rule.name
  | .hostFilled host load =>
    s!"host {host}: " ++ Text.decimal load.nodes ++ " nodes, " ++ Text.decimal load.edges ++ " edges"
  | .listingRead nodes edges => s!"num nodes: {nodes}, num edges: {edges}"
  | .sparseEdgeIds largest edges =>
    s!"largest node id {largest} is far above {edges} edges; node map is sized by id"
  | .sparseGroupIds largest lines =>
    s!"largest node id {largest} is far above {lines} group lines; node map is sized by id"
  | .batchCut cut evaluated ratio imbalance =>
    s!"cut {cut} of {evaluated} edges, ratio " ++ Decimal.fixed 6 ratio ++ ", imbalance " ++
      Decimal.fixed 4 imbalance
  | .streamBalanced ceiling raises imbalance =>
    "final ceiling " ++ Decimal.fixed 3 ceiling ++ s!" after {raises} growths, node imbalance " ++
      Decimal.fixed 4 imbalance
  | .cutsCounted cut evaluated skipped =>
    s!"{cut} cuts over {evaluated} evaluated edges ({skipped} skipped)"

def line (e : Event) : String := e.level.name ++ " " ++ e.text

end Event

/-- What a run has reported, the earliest event first. -/
abbrev Journal := Array Event

/-- The lines of a journal down to a level. -/
def Journal.lines (j : Journal) (level : Level) : List String :=
  (j.toList.filter fun e => e.level.rank ≤ level.rank).map Event.line

namespace Pool

/-- The ceilings after each of the next `count` raises. -/
def nextCeilings : Nat → Pool → List Float
  | 0, _ => []
  | count + 1, p => p.raiseOnce.ceiling :: nextCeilings count p.raiseOnce

/-- The raises that lead from one state of a pool to a later one. -/
def raisesTo (before after : Pool) : List Event :=
  (nextCeilings (after.raises - before.raises) before).map (.ceilingRaised before.hosts)

end Pool

end GraphPlacement
