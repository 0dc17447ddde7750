import GraphPlacement.Fault

/-!
# Scoring strategies

**Names.** A strategy says how a host is scored for a node that comes with its neighbours.  It is named
in any mix of cases; `greedy` is another name of `affinity`.  A name that is none of these is reported
as it was given.
-/

namespace GraphPlacement

/-- How a host is scored for an arriving node. -/
inductive Strategy where
  /-- By the neighbours it already holds, weighed by its free share. -/
  | affinity
  /-- By its free share alone. -/
  | balance
  /-- By chance. -/
  | random
deriving DecidableEq, Repr, Inhabited

namespace Strategy

def name : Strategy → String
  | .affinity => "affinity"
  | .balance => "balance"
  | .random => "random"

def ofName? : String → Option Strategy
  | "affinity" | "greedy" => some .affinity
  | "balance" => some .balance
  | "random" => some .random
  | _ => none

def parse (text : String) : Except Fault Strategy :=
  match ofName? text.toLower with
  | some strategy => .ok strategy
  | none => .error (.unknownStrategy text)

@[simp] theorem ofName?_name (s : Strategy) : ofName? s.name = some s := by cases s <;> rfl

end Strategy

end GraphPlacement
