import GraphPlacement.Strategy

/-!
# Configuration

**Numbers.** A configuration fixes how many hosts there are and how far a host may go beyond an even
share of the nodes.  The capacity of a host is its even share with the slack on top; the ceiling of a
stream starts there and rises by a fraction of the even share.

**Order of checks.** The number of hosts is checked first, then the slack, then the fraction, and only
then whether there are any nodes to share out.
-/

namespace GraphPlacement

/-- How to place a graph. -/
structure Config where
  /-- How many hosts there are. -/
  hosts : Nat := 2
  /-- What a host may hold beyond an even share, as a fraction of it. -/
  slack : Float := 0.1
  /-- How far a ceiling rises, as a fraction of an even share. -/
  growth : Float := 0.1
  /-- How hosts are scored for a node that arrives with its neighbours. -/
  strategy : Strategy := .affinity
  /-- Where the random numbers start. -/
  seed : UInt64 := 42

namespace Config

/-- Refuses a configuration without hosts and numbers outside their range. -/
def validate (cfg : Config) : Except Fault Unit :=
  if cfg.hosts = 0 then .error .noHosts
  else if !cfg.slack.isFinite || cfg.slack < 0.0 then .error (.badParameter .balanceSlack cfg.slack)
  else if !cfg.growth.isFinite || cfg.growth ≤ 0.0 then
    .error (.badParameter .growthFraction cfg.growth)
  else .ok ()

/-- The nodes that each host gets in an even split. -/
def evenShare (cfg : Config) (nodes : Nat) : Except Fault Float := do
  cfg.validate
  if nodes = 0 then throw .emptyGraph
  return nodes.toFloat / cfg.hosts.toFloat

/-- The nodes that a host is meant to hold: an even share and the slack. -/
def capacity (cfg : Config) (nodes : Nat) : Except Fault Float := do
  return (← cfg.evenShare nodes) * (1.0 + cfg.slack)

/-- How far a ceiling rises each time. -/
def rise (cfg : Config) (nodes : Nat) : Except Fault Float := do
  return (← cfg.evenShare nodes) * cfg.growth

end Config

end GraphPlacement
