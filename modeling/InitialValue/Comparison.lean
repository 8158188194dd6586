import InitialValue.Binary64.Elementary
import InitialValue.Trajectory

/-! Comparing two trajectories row by row. They have to have equally many rows on
one grid of `x`, up to a tolerance relative to the larger magnitude; then the
distances of their `y` are listed, with the largest one and the first place where
it is reached. -/

namespace InitialValue

inductive ComparisonFault where
  | lengths (a b : Nat)
  | grid (step : UInt64) (xa xb : Float)
  deriving DecidableEq, Repr

def ComparisonFault.message : ComparisonFault → String
  | .lengths a b =>
    "Trajectories have different lengths (" ++ toString a ++ " vs " ++ toString b ++ ")."
  | .grid step xa xb =>
    "Trajectories do not share an x grid at step " ++ toString step ++ " (" ++
      Decimal.plain xa ++ " vs " ++
      Decimal.plain xb ++ ")."

structure Comparison where
  methods : Method × Method
  xs : List Float
  differences : List Float
  maxDifference : Float
  maxDifferenceX : Float
  deriving DecidableEq, Repr

namespace Comparison

/-- How far two `x` may be apart, relative to the larger of them and one. -/
def tolerance : Float := 1e-9

def sameX (xa xb : Float) : Bool :=
  !(tolerance * Binary64.larger (Binary64.larger xa.abs xb.abs) 1.0 < (xa - xb).abs)

def difference (ra rb : Row Float) : Float := (rb.y - ra.y).abs

/-- The largest difference and the `x` where it is first exceeded by none, from a pair to start
with. -/
def peak (start : Float × Float) (pairs : List (Row Float × Row Float)) : Float × Float :=
  pairs.foldl (fun best (ra, rb) =>
    if best.1 < difference ra rb then (difference ra rb, ra.x) else best) start

end Comparison

/-- The distances of `b` from `a`. -/
def Trajectory.compare (a b : Trajectory) : Except ComparisonFault Comparison :=
  if a.rows.length ≠ b.rows.length then .error (.lengths a.rows.length b.rows.length)
  else
    let pairs := a.rows.zip b.rows
    match pairs.find? fun (ra, rb) => !Comparison.sameX ra.x rb.x with
    | some (ra, rb) => .error (.grid ra.step ra.x rb.x)
    | none =>
      let peak := Comparison.peak (0.0, a.x0) pairs
      .ok { methods := (a.method, b.method)
            xs := pairs.map fun (ra, _) => ra.x
            differences := pairs.map fun (ra, rb) => Comparison.difference ra rb
            maxDifference := peak.1
            maxDifferenceX := peak.2 }

end InitialValue
