import GraphPlacement.Assignment

/-!
# Cut edges

**Cut.** An edge is evaluated when both its endpoints have a host, and cut when these differ.  An edge
with an endpoint that has no host is skipped: it is neither kept nor cut.  An endpoint that the
assignment has no slot for is a fault.

**Counting in parts.** The edges may be counted in consecutive parts whose tallies are added up.  A
`Schedule` is one way of doing so: where the edges are split and in which order tallies are added.
-/

namespace GraphPlacement

/-- The counts of cut, evaluated and skipped edges. -/
structure Tally where
  cut : Nat := 0
  evaluated : Nat := 0
  skipped : Nat := 0
deriving DecidableEq, Repr

namespace Tally

/-- All edges that were counted. -/
def total (t : Tally) : Nat := t.evaluated + t.skipped

/-- The cut edges as a share of the evaluated ones; zero if there are none. -/
def ratio (t : Tally) : Float :=
  if t.evaluated = 0 then 0.0 else t.cut.toFloat / t.evaluated.toFloat

/-- The tally with an edge more whose endpoints have the given hosts. -/
def count (t : Tally) : Option Nat → Option Nat → Tally
  | some a, some b =>
    { t with evaluated := t.evaluated + 1, cut := if a = b then t.cut else t.cut + 1 }
  | _, _ => { t with skipped := t.skipped + 1 }

/-- The tally of two parts together. -/
def merge (t u : Tally) : Tally := ⟨t.cut + u.cut, t.evaluated + u.evaluated, t.skipped + u.skipped⟩

@[simp] theorem merge_empty (t : Tally) : t.merge {} = t := rfl

@[simp] theorem empty_merge (t : Tally) : ({} : Tally).merge t = t := by simp [merge]

theorem merge_assoc (t u v : Tally) : (t.merge u).merge v = t.merge (u.merge v) := by
  simp [merge, Nat.add_assoc]

/-- Counting an edge into a merged tally is counting it into the second part. -/
theorem merge_count (t u : Tally) (a b : Option Nat) :
    t.merge (u.count a b) = (t.merge u).count a b := by
  cases a <;> cases b <;> simp only [count, merge, Nat.add_assoc]
  split <;> rfl

end Tally

namespace Assignment

/-- Whether an edge is cut; no answer if an endpoint has no host. -/
def isCut? (a : Assignment) (src dst : Nat) : Option Bool := do
  return (← a.host? src) != (← a.host? dst)

/-- Counts one edge more, given by its endpoints. -/
def tallyEdge (a : Assignment) (t : Tally) (ends : Nat × Nat) : Except Fault Tally := do
  let hostSrc ← a.lookup ends.1
  let hostDst ← a.lookup ends.2
  return t.count hostSrc hostDst

def tallyFrom (a : Assignment) (t : Tally) (edges : List (Nat × Nat)) : Except Fault Tally :=
  edges.foldlM a.tallyEdge t

def tally (a : Assignment) (edges : List (Nat × Nat)) : Except Fault Tally := a.tallyFrom {} edges

end Assignment

/-- A way to count edges in parts. -/
inductive Schedule where
  /-- Consecutive edges that are counted from the left. -/
  | chunk (edges : List (Nat × Nat))
  /-- Two parts whose tallies are added. -/
  | join (left right : Schedule)

namespace Schedule

/-- The edges of a schedule, from the left. -/
def edges : Schedule → List (Nat × Nat)
  | chunk es => es
  | join l r => l.edges ++ r.edges

def tally (a : Assignment) : Schedule → Except Fault Tally
  | chunk es => a.tally es
  | join l r => do
    let left ← l.tally a
    let right ← r.tally a
    return left.merge right

/-- Splits a list in halves, at most `depth` times one within the other. -/
def halving : Nat → List (Nat × Nat) → Schedule
  | 0, es => chunk es
  | depth + 1, es =>
    let half := es.length / 2
    if half = 0 then chunk es
    else join (halving depth (es.take half)) (halving depth (es.drop half))

@[simp] theorem edges_halving (depth : Nat) (es : List (Nat × Nat)) :
    (halving depth es).edges = es := by
  induction depth generalizing es with
  | zero => rfl
  | succ depth ih =>
    simp only [halving]
    split
    · rfl
    · simp [edges, ih]

end Schedule

/-- Counts the edges of a list in sixteen parts. -/
def Assignment.tallyInParts (a : Assignment) (edges : List (Nat × Nat)) : Except Fault Tally :=
  (Schedule.halving 4 edges).tally a

end GraphPlacement
