import InitialValue.Trajectory
import InitialValue.Wire.Request

/-! Trajectories as values, and back. The slopes of a step are a record that
carries the tag of its method; a row without them has no such field. Reading
takes the parts as they are and does not compare them with one another. -/

namespace InitialValue

open Wire Wire.Value

/-! ### Slopes of a step -/

/-- The slopes with the names of their fields. -/
def Diagnostics.named : Diagnostics Float → List (String × Float)
  | .euler slope => [("slope", slope)]
  | .heun k1 k2 predictor average =>
    [("k1", k1), ("k2", k2), ("y_predictor", predictor), ("avg_slope", average)]
  | .rungeKutta k1 k2 k3 k4 weighted =>
    [("k1", k1), ("k2", k2), ("k3", k3), ("k4", k4), ("weighted_slope", weighted)]

def Diagnostics.toValue (d : Diagnostics Float) : Value :=
  .record (("method", d.method.toValue) :: d.named.map fun (name, x) => (name, .ofFloat x))

/-- The tag of the method and what else the record or list holds. -/
def Diagnostics.split? : Value → Option (String × Value)
  | .record fields => do
    let tag ← field? fields ["method"]
    let tag ← required asText? tag
    return (tag, .record (fields.filter fun (name, _) => name != "method"))
  | .list (tag :: items) => do
    let tag ← asText? tag
    return (tag, .list items)
  | _ => none

/-- Numbers that all have to be there. -/
def Diagnostics.numbers? (names : List String) (v : Value) : Option (List Float) := do
  let fields ← v.fields? (names.map ([·]))
  fields.mapM (required asNumber?)

def Diagnostics.ofValue? (v : Value) : Option (Diagnostics Float) := do
  let (tag, rest) ← split? v
  match tag with
  | "euler" =>
    match ← numbers? ["slope"] rest with
    | [slope] => some (.euler slope)
    | _ => none
  | "heun" =>
    match ← numbers? ["k1", "k2", "y_predictor", "avg_slope"] rest with
    | [k1, k2, predictor, average] => some (.heun k1 k2 predictor average)
    | _ => none
  | "rk4" =>
    match ← numbers? ["k1", "k2", "k3", "k4", "weighted_slope"] rest with
    | [k1, k2, k3, k4, weighted] => some (.rungeKutta k1 k2 k3 k4 weighted)
    | _ => none
  | _ => none

/-! ### Rows and summaries -/

def Row.toValue (r : Row Float) : Value :=
  .record ([("step", .count r.step), ("x", .ofFloat r.x), ("y", .ofFloat r.y),
    ("slope", .ofFloat r.slope)] ++
      match r.diagnostics with
      | some d => [("diagnostics", d.toValue)]
      | none => [])

def Row.ofValue? (v : Value) : Option (Row Float) := do
  match ← v.fields? [["step"], ["x"], ["y"], ["slope"], ["diagnostics"]] with
  | [step, x, y, slope, diagnostics] =>
    let step ← required asCount? step
    let x ← required asNumber? x
    let y ← required asNumber? y
    let slope ← required asNumber? slope
    let diagnostics ← optional Diagnostics.ofValue? diagnostics
    return { step, x, y, slope, diagnostics }
  | _ => none

def Summary.toValue (s : Summary) : Value :=
  .record [("initial_value", .text s.initialValue), ("final_value", .text s.finalValue),
    ("interval", .text s.interval), ("total_steps", .count s.totalSteps),
    ("step_size", .ofFloat s.stepSize)]

def Summary.ofValue? (v : Value) : Option Summary := do
  match ← v.fields? [["initial_value"], ["final_value"], ["interval"], ["total_steps"],
    ["step_size"]] with
  | [initialValue, finalValue, interval, totalSteps, stepSize] =>
    let initialValue ← required asText? initialValue
    let finalValue ← required asText? finalValue
    let interval ← required asText? interval
    let totalSteps ← required asCount? totalSteps
    let stepSize ← required asNumber? stepSize
    return { initialValue, finalValue, interval, totalSteps, stepSize }
  | _ => none

/-! ### Trajectories -/

def Trajectory.toValue (t : Trajectory) : Value :=
  .record [("method", t.method.toValue), ("expression", .text t.expression), ("x0", .ofFloat t.x0),
    ("y0", .ofFloat t.y0), ("h", .ofFloat t.h), ("num_steps", .count t.numSteps),
    ("records", .list (t.rows.map Row.toValue)), ("summary", t.summary.toValue)]

def Trajectory.ofValue? (v : Value) : Option Trajectory := do
  match ← v.fields? [["method"], ["expression"], ["x0"], ["y0"], ["h"], ["num_steps"], ["records"],
      ["summary"]] with
  | [method, expression, x0, y0, h, numSteps, rows, summary] =>
    let method ← required Method.ofValue? method
    let expression ← required asText? expression
    let x0 ← required asNumber? x0
    let y0 ← required asNumber? y0
    let h ← required asNumber? h
    let numSteps ← required asCount? numSteps
    let rows ← required (asList? Row.ofValue?) rows
    let summary ← required Summary.ofValue? summary
    return { method, expression, x0, y0, h, numSteps, rows, summary }
  | _ => none

/-- The series of a plot; without predicted values there is no field for them. -/
def PlotData.toValue (p : PlotData) : Value :=
  .record
    ([("x_values", .ofFloats p.xs), ("y_values", .ofFloats p.ys), ("method", .text p.method)] ++
    match p.predictors with
    | some predictors => [("y_predictor", .ofFloats predictors)]
    | none => [])

end InitialValue
