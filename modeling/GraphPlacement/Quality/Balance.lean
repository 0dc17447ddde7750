/-!
# Balance of loads

**Imbalance.** How far the heaviest load lies above the mean, as a share of the mean.  Without loads,
or when all of them are empty, nothing is out of balance.
-/

namespace GraphPlacement

/-- The larger of two numbers, the first one unless the second is certainly larger. -/
def largerOf (x y : Float) : Float := if x < y then y else x

def totalLoad (loads : List Nat) : Nat := loads.foldr (· + ·) 0

def meanLoad (loads : List Nat) : Float := (totalLoad loads).toFloat / loads.length.toFloat

/-- The largest share by which a load exceeds the mean. -/
def imbalance (loads : List Nat) : Float :=
  if loads.isEmpty then 0.0
  else
    let mean := meanLoad loads
    if mean == 0.0 then 0.0
    else loads.foldl (fun most load => largerOf most ((load.toFloat - mean) / mean)) 0.0

end GraphPlacement
