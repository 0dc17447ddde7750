import GraphPlacement.Job.Edges
import GraphPlacement.Job.Groups
import GraphPlacement.Job.Review

/-!
# The command line

**Commands.** Each of the four jobs is a command with its own operands, in a fixed order; some may be
left out at the end.  An operand does not begin with a dash, except a dash alone, unless two dashes have
stood before it.

**Exit.** Arguments that make no command end with status two and nothing printed.  A job that ends with
a fault ends with status one and nothing printed on the standard output.  Otherwise the status is zero
and the results are printed.
-/

namespace GraphPlacement

/-- A job with its operands. -/
inductive Command where
  | batch (listing : String) (hosts : Nat) (nodeMap parts : String) (strategy : Strategy)
      (seed : UInt64)
  | stream (listing : String) (hosts : Nat) (parts nodeMap : String)
  | cuts (nodes : Nat) (nodeMap listing : String) (format : Listing.Format)
  | borrowed (nodes hosts : Nat) (nodeMap parts : String)
deriving DecidableEq, Repr

/-- What arguments ask for. -/
inductive Request where
  | version
  | command (command : Command)
deriving DecidableEq, Repr

namespace CommandLine

def versionText : String := "hostpart 0.1.0\n"

/-! ## Reading arguments -/

/-- Whether an argument is an option rather than an operand. -/
def isOption (arg : String) : Bool :=
  match arg.toList with
  | '-' :: _ :: _ => true
  | _ => false

/-- The operands among some arguments; an option is refused. -/
def operands? : List String → Option (List String)
  | [] => some []
  | arg :: rest =>
    if arg = "--" then some rest
    else if isOption arg then none
    else (operands? rest).map (arg :: ·)

def fileName? (arg : String) : Option String := if arg = "" then none else some arg

def seed? (arg : String) : Option UInt64 := (Text.natural? arg).map Nat.toUInt64

def strategy? (arg : String) : Option Strategy := (Strategy.parse arg).toOption

def format? (arg : String) : Option Listing.Format := (Listing.Format.parse arg).toOption

/-- Reads an operand that may be left out. -/
def optional? {α : Type} (fallback : α) (read? : String → Option α) : Option String → Option α
  | none => some fallback
  | some arg => read? arg

def batch? : List String → Option Command
  | listing :: hosts :: nodeMap :: parts :: rest => do
    guard (rest.length ≤ 2)
    return .batch (← fileName? listing) (← Text.natural? hosts) (← fileName? nodeMap)
      (← fileName? parts) (← optional? .affinity strategy? rest[0]?) (← optional? 42 seed? rest[1]?)
  | _ => none

def stream? : List String → Option Command
  | [listing, hosts, parts, nodeMap] => do
    return .stream (← fileName? listing) (← Text.natural? hosts) (← fileName? parts)
      (← fileName? nodeMap)
  | _ => none

def cuts? : List String → Option Command
  | nodes :: nodeMap :: listing :: rest => do
    guard (rest.length ≤ 1)
    return .cuts (← Text.natural? nodes) (← fileName? nodeMap) (← fileName? listing)
      (← optional? .groups format? rest[0]?)
  | _ => none

def borrowed? : List String → Option Command
  | [nodes, hosts, nodeMap, parts] => do
    return .borrowed (← Text.natural? nodes) (← Text.natural? hosts) (← fileName? nodeMap)
      (← fileName? parts)
  | _ => none

def asksVersion (arg : String) : Bool := arg = "--version" || arg.toList.take 2 = ['-', 'V']

/-- What the arguments ask for, if they ask for anything. -/
def request? : List String → Option Request
  | [] => none
  | name :: args =>
    if asksVersion name then some .version
    else do
      let ops ← operands? args
      let command ← match name with
        | "batch" => batch? ops
        | "stream" => stream? ops
        | "cuts" => cuts? ops
        | "borrowed" => borrowed? ops
        | _ => none
      return .command command

/-! ## Running -/

/-- Runs a command and gives what it prints. -/
def execute : Command → Job String
  | .batch listing hosts nodeMap parts strategy seed => do
    let report ← Job.placeGroups { hosts, strategy, seed } listing nodeMap parts
    return s!"num nodes: {report.outcome.assignment.assigned}, num_edges: {report.edges}\n" ++
      "Host sizes " ++ listText report.outcome.sizes ++ "\n" ++
      "Cut ratio: " ++ Decimal.fixed 6 report.cuts.ratio ++ "\n"
  | .stream listing hosts parts nodeMap => do
    let report ← Job.placeEdges { hosts } listing parts nodeMap
    return s!"num nodes: {report.counts.nodes}, num_edges: {report.counts.edges}\n" ++
      String.join (report.outcome.events.map fun e => e.text ++ "\n")
  | .cuts nodes nodeMap listing format => do
    let t ← Job.countCuts nodes nodeMap listing format
    return s!"Cuts: {t.cut}\nEvaluated edges: {t.evaluated}\n" ++
      "Cut ratio: " ++ Decimal.fixed 6 t.ratio ++ "\n"
  | .borrowed nodes hosts nodeMap parts => do
    let borrowed ← Job.countBorrowed nodes hosts nodeMap parts
    return s!"Borrowed nodes: {borrowed}\n"

/-- The status that a run exits with, what it prints, and the fault that ended it. -/
structure Exit where
  status : UInt8
  stdout : String := ""
  fault : Option Fault := none
deriving DecidableEq

/-- Runs the program on the files of a store. -/
def run (args : List String) (store : Store) : Exit × Store :=
  match request? args with
  | none => ({ status := 2 }, store)
  | some .version => ({ status := 0, stdout := versionText }, store)
  | some (.command command) =>
    match execute command { store } with
    | .ok text desk => ({ status := 0, stdout := text }, desk.store)
    | .error fault desk => ({ status := 1, fault }, desk.store)

end CommandLine

end GraphPlacement
