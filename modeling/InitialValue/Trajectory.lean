import InitialValue.Decimal.Layout
import InitialValue.Step

/-! Recorded solutions. A trajectory holds one row for every point from the start
to the end; a row that was advanced from has the slopes by which it was. The
series of a plot, the last point and the written-out calculation of a step are
views of the rows. -/

namespace InitialValue

structure Row (α : Type) where
  step : UInt64
  x : α
  y : α
  slope : α
  diagnostics : Option (Diagnostics α)
  deriving DecidableEq, Repr

structure Summary where
  initialValue : String
  finalValue : String
  interval : String
  totalSteps : UInt64
  stepSize : Float
  deriving DecidableEq, Repr

structure Trajectory where
  method : Method
  expression : String
  x0 : Float
  y0 : Float
  h : Float
  numSteps : UInt64
  rows : List (Row Float)
  summary : Summary
  deriving DecidableEq, Repr

/-- The series that a plot needs; the predicted values are Heun's. -/
structure PlotData where
  xs : List Float
  ys : List Float
  method : String
  predictors : Option (List Float)
  deriving DecidableEq, Repr

/-- The summary of a run from `(x0, y0)` to `(x, y)`. -/
def Summary.ofEnds (x0 y0 x y h : Float) (numSteps : UInt64) : Summary where
  initialValue := "y(" ++ Decimal.marked x0 ++ ") = " ++ Decimal.marked y0
  finalValue := "y(" ++ Decimal.fixed 6 x ++ ") ≈ " ++ Decimal.fixed 6 y
  interval := "[" ++ Decimal.marked x0 ++ ", " ++ Decimal.fixed 6 x ++ "]"
  totalSteps := numSteps
  stepSize := h

namespace Trajectory

variable (t : Trajectory)

def xs : List Float := t.rows.map Row.x

def ys : List Float := t.rows.map Row.y

def slopes : List Float := t.rows.map Row.slope

/-- The predicted value of a step of Heun's method. -/
def predictorOf (r : Row Float) : Option Float :=
  match r.diagnostics with
  | some (.heun _ _ predictor _) => some predictor
  | _ => none

/-- The predicted values, which only Heun's method has. -/
def predictors? : Option (List Float) :=
  if t.method = .heun then some (t.rows.filterMap predictorOf) else none

def finalPoint : Float × Float :=
  match t.rows.getLast? with
  | some r => (r.x, r.y)
  | none => (t.x0, t.y0)

def plotData : PlotData := ⟨t.xs, t.ys, t.method.label, t.predictors?⟩

/-- The right-hand side of the update from `y` with these slopes, in numbers. -/
def updateText (h y : Float) (d : Diagnostics Float) : String :=
  let six := Decimal.fixed 6
  let size := Decimal.plain h
  match d with
  | .euler slope => six y ++ " + " ++ size ++ " * " ++ six slope
  | .heun k1 k2 _ _ => six y ++ " + (" ++ size ++ "/2) * (" ++ six k1 ++ " + " ++ six k2 ++ ")"
  | .rungeKutta k1 k2 k3 k4 _ =>
    six y ++ " + (" ++ size ++ "/6) * (" ++ six k1 ++ " + 2*" ++ six k2 ++ " + 2*" ++
      six k3 ++ " + " ++
      six k4 ++ ")"

/-- The update of row `i` with its numbers, as in `y_1 = 1.000000 + 0.1 * 1.000000 = 1.100000`. -/
def calculation (i : Nat) : Option String := do
  let row ← t.rows[i]?
  let next ← t.rows[i + 1]?
  let d ← row.diagnostics
  return "y_" ++ toString (i + 1) ++ " = " ++ updateText t.h row.y d ++ " = " ++
    Decimal.fixed 6 next.y

end Trajectory

end InitialValue
