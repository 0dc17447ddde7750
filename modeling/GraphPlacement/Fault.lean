import GraphPlacement.Decimal.Shortest

/-!
# What can go wrong

**Causes.** A `Fault` is the reason why a step gives no result.  It is kept as a cause with its data;
`Fault.message` is the one place that puts it into words, with `Reason.text` for records that cannot be
read and `Mismatch.text` for books that do not add up.

**Three families.** Faults of the input come first: bad configurations, bad ids, bad records, files that
cannot be read.  A `.inconsistent` fault is found by a check of a placer's own books.  The last four
stop a run from inside: a check that a placer makes on itself has failed, a host was asked for that
does not exist, a number is too large for the word it is kept in, or no number of raises makes room.
-/

namespace GraphPlacement

/-- The numbers of a configuration that have a range of their own. -/
inductive Parameter where
  | balanceSlack
  | growthFraction
  | ceiling
  | rise
deriving DecidableEq, Repr

def Parameter.name : Parameter → String
  | .balanceSlack => "balance_slack"
  | .growthFraction => "growth_fraction"
  | .ceiling => "ceiling"
  | .rise => "delta"

/-- Why a record of a listing cannot be read; `raw` is the field as it stands there. -/
inductive Reason where
  | nodeId (raw : String)
  | weight (raw : String)
  | host (raw : String)
  | edgeFields (found : Nat)
  | placementFields
  | nodeMapFields
  | noEdgeCount
  | edgeCount (raw : String)
  | groupFields (declared found : Nat)
  | nodeIdTooLarge
  | other (text : String)
deriving DecidableEq, Repr

def Reason.text : Reason → String
  | .nodeId raw => s!"invalid node id: {raw}"
  | .weight raw => s!"invalid weight: {raw}"
  | .host raw => s!"invalid host: {raw}"
  | .edgeFields found => s!"expected 2 or 3 fields, found {found}"
  | .placementFields => "expected \x60src dst host\x60"
  | .nodeMapFields => "expected \x60node host\x60"
  | .noEdgeCount => "missing edge count"
  | .edgeCount raw => s!"invalid edge count: {raw}"
  | .groupFields declared found => s!"{declared} edges declared but {found} trailing fields found"
  | .nodeIdTooLarge => "node id too large"
  | .other text => text

/-- How the books of a placer can disagree. -/
inductive Mismatch where
  | ceilingDropped (ceiling base : Float)
  | ceilingOffLadder (ceiling : Float) (raises : Nat) (rise : Float)
  | nodes (counted assigned : Nat)
  | edges (counted placed : Nat)
  | other (text : String)
deriving DecidableEq

def Mismatch.text : Mismatch → String
  | .ceilingDropped ceiling base =>
    "ceiling " ++ Decimal.shortest ceiling ++ " dropped below its initial value " ++
      Decimal.shortest base
  | .ceilingOffLadder ceiling raises rise =>
    "ceiling " ++ Decimal.shortest ceiling ++ s!" does not match {raises} growths of " ++
      Decimal.shortest rise
  | .nodes counted assigned => s!"hosts count {counted} nodes but {assigned} are assigned"
  | .edges counted placed => s!"hosts count {counted} edges but {placed} were placed"
  | .other text => text

/-- Why a file or a line of it cannot be had. -/
inductive Unreadable where
  /-- There is no such file, or no folder to create it in. -/
  | missing
  /-- There is a folder where a file is asked for. -/
  | isFolder
  /-- There is a file where a folder is asked for. -/
  | notFolder
  /-- The name, or one of its fields, is longer than a name may be. -/
  | longName
  /-- The name holds a null character, and so names nothing. -/
  | noName
  /-- The bytes of a line encode no text. -/
  | notText
deriving DecidableEq, Repr

def Unreadable.text : Unreadable → String
  | .missing => "no such file or directory"
  | .isFolder => "is a directory"
  | .notFolder => "not a directory"
  | .longName => "file name too long"
  | .noName => "file name contained an unexpected NUL byte"
  | .notText => "stream did not contain valid UTF-8"

/-- The part of a run whose own check failed. -/
inductive Checked where
  | pool
  | edgePlacer
deriving DecidableEq, Repr

def Checked.name : Checked → String
  | .pool => "CapacityTracker"
  | .edgePlacer => "StreamingPartitioner"

/-- Why a step gives no result. -/
inductive Fault where
  | noHosts
  | emptyGraph
  | badParameter (parameter : Parameter) (value : Float)
  | unknownStrategy (name : String)
  | nodeOutOfRange (node total : Nat)
  | hostOutOfRange (host hosts : Nat)
  | reassigned (node current requested : Nat)
  | malformed (line : Nat) (reason : Reason)
  | inconsistent (mismatch : Mismatch)
  | unreadable (kind : Unreadable)
  | broken (part : Checked) (cause : Fault)
  | noSuchHost (host : Nat)
  | overflow
  | neverRoom
deriving DecidableEq

/-- Whether a fault stops a run from inside, so that the step it arose in never comes to an answer. -/
def Fault.stopsRun : Fault → Bool
  | .broken .. | .noSuchHost .. | .overflow | .neverRoom => true
  | _ => false

def Fault.message : Fault → String
  | .noHosts => "number of hosts must be at least 1"
  | .emptyGraph => "graph has no nodes; capacity is undefined"
  | .badParameter parameter value =>
    "invalid value for " ++ parameter.name ++ ": " ++ Decimal.shortest value
  | .unknownStrategy name =>
    s!"unknown strategy \x60{name}\x60 (expected affinity, balance or random)"
  | .nodeOutOfRange node total => s!"node {node} out of range (graph has {total} nodes)"
  | .hostOutOfRange host hosts => s!"host {host} out of range ({hosts} hosts)"
  | .reassigned node current requested =>
    s!"node {node} is already on host {current}, cannot move it to host {requested}"
  | .malformed line reason => s!"line {line}: " ++ reason.text
  | .inconsistent mismatch => "invariant violated: " ++ mismatch.text
  | .unreadable kind => kind.text
  | .broken part cause => "[hostpart] " ++ part.name ++ " invalid: " ++ cause.message
  | .noSuchHost host => s!"there is no host {host}"
  | .overflow => "a number is too large for a word"
  | .neverRoom => "no raise of the ceiling makes room"

end GraphPlacement
