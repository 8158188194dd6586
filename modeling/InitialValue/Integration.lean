import InitialValue.SolveError
import InitialValue.Trajectory

/-! The step loop. From the start it asks for the slope there, takes the steps one
after another, and asks for the slope at the end, so that every row has one; the
slope of an inner row is the first slope of the step that leaves it. A point that
is not finite ends the run. -/

namespace InitialValue

open Expression (EvalError)

namespace Integration

variable {α : Type} [Scalar α]

/-- The rows of the points left so far, latest first, and the point reached. -/
structure Progress (α : Type) where
  rows : List (Row α)
  x : α
  y : α

/-- Takes one step from the point reached; `first` is the slope at the start of the run. -/
def advance (m : Method) (h first : α) (step : Nat) (p : Progress α) :
    Sampling α SolveError (Progress α) := do
  let next ← (m.step p.x p.y h).mapFailure (.evaluationFailed (.ofNat step))
  if Scalar.isFinite next.x && Scalar.isFinite next.y then
    let slope := if step = 0 then first else next.diagnostics.initialSlope
    return ⟨⟨.ofNat step, p.x, p.y, slope, some next.diagnostics⟩ :: p.rows, next.x, next.y⟩
  else .fail (.evaluationFailed (.ofNat step) (.nonFinite .stepUpdate))

/-- Takes `left` steps, the next of which has the number `step`. -/
def march (m : Method) (h first : α) :
    (left step : Nat) → Progress α → Sampling α SolveError (Progress α)
  | 0, _, p => pure p
  | left + 1, step, p => advance m h first step p >>= march m h first left (step + 1)

/-- The slope at a row that no step leaves from. -/
def boundarySlope (step : Nat) (x y : α) : Sampling α SolveError α :=
  (Sampling.slope x y).mapFailure (.evaluationFailed (.ofNat step))

/-- The rows of a run of `n` steps. -/
def rows (m : Method) (x0 y0 h : α) (n : Nat) : Sampling α SolveError (List (Row α)) := do
  let first ← boundarySlope 0 x0 y0
  let p ← march m h first n 0 ⟨[], x0, y0⟩
  let last ← if n = 0 then pure first else boundarySlope n p.x p.y
  return (⟨.ofNat n, p.x, p.y, last, none⟩ :: p.rows).reverse

end Integration

/-- The record of a run whose rows are given. -/
def Trajectory.ofRows (m : Method) (expression : String) (x0 y0 h : Float) (numSteps : UInt64)
    (rows : List (Row Float)) : Trajectory :=
  let last := match rows.getLast? with
    | some r => (r.x, r.y)
    | none => (x0, y0)
  { method := m, expression, x0, y0, h, numSteps, rows
    summary := .ofEnds x0 y0 last.1 last.2 h numSteps }

end InitialValue
