import InitialValue.Draft
import InitialValue.Wire.Value

/-! Methods, limits, steps, requests and drafts as values, and back. Limits may
leave out any field, which then has its standard value. The right-hand side of a
request stands under `function` or `expression`. -/

namespace InitialValue

open Wire Wire.Value

/-! ### Methods -/

def Method.toValue (m : Method) : Value := .text m.tag

/-- The names under which methods are stored. -/
def Method.tags : List (String × Method) :=
  [("euler", .euler), ("heun", .heun), ("rk4", .rungeKutta), ("runge_kutta", .rungeKutta)]

def Method.ofValue? (v : Value) : Option Method :=
  match v with
  | .text s => tags.lookup s
  | .record [(s, .null)] => tags.lookup s
  | _ => none

/-! ### Limits -/

def Limits.toValue (l : Limits) : Value :=
  .record [("max_steps", .count l.maxSteps), ("min_step_size", .ofFloat l.minStepSize),
    ("max_step_size", .ofFloat l.maxStepSize)]

def Limits.ofValue? (v : Value) : Option Limits := do
  match ← v.fields? [["max_steps"], ["min_step_size"], ["max_step_size"]] with
  | [maxSteps, minStepSize, maxStepSize] =>
    let maxSteps ← withDefault standard.maxSteps asCount? maxSteps
    let minStepSize ← withDefault standard.minStepSize asNumber? minStepSize
    let maxStepSize ← withDefault standard.maxStepSize asNumber? maxStepSize
    return { maxSteps, minStepSize, maxStepSize }
  | _ => none

/-! ### Steps -/

def StepSpec.toValue : StepSpec → Value
  | .count n => .record [("count", .count n)]
  | .size h => .record [("size", .ofFloat h)]

def StepSpec.ofValue? (v : Value) : Option StepSpec := do
  match ← v.asVariant? with
  | ("count", n) => (asCount? n).map .count
  | ("size", h) => (asNumber? h).map .size
  | _ => none

/-! ### Requests and drafts -/

/-- The spellings of the fields that requests and drafts share. -/
def Request.spellings : List (List String) :=
  [["function", "expression"], ["x0"], ["y0"], ["xn"], ["num_steps"], ["step_size"], ["method"]]

def Request.toValue (r : Request) : Value :=
  .record [("function", .text r.function), ("x0", .ofFloat r.x0), ("y0", .ofFloat r.y0),
    ("xn", .ofFloat r.xn), ("num_steps", ofOption .count r.numSteps),
    ("step_size", ofOption .ofFloat r.stepSize), ("method", r.method.toValue)]

def Request.ofValue? (v : Value) : Option Request := do
  match ← v.fields? spellings with
  | [function, x0, y0, xn, numSteps, stepSize, method] =>
    let function ← required asText? function
    let x0 ← required asNumber? x0
    let y0 ← required asNumber? y0
    let xn ← required asNumber? xn
    let numSteps ← optional asCount? numSteps
    let stepSize ← optional asNumber? stepSize
    let method ← required Method.ofValue? method
    return { function, x0, y0, xn, numSteps, stepSize, method }
  | _ => none

def Draft.toValue (d : Draft) : Value :=
  .record [("function", .text d.function), ("x0", .ofFloat d.x0), ("y0", .ofFloat d.y0),
    ("xn", .ofFloat d.xn), ("num_steps", ofOption .ofFloat d.numSteps),
    ("step_size", ofOption .ofFloat d.stepSize), ("method", ofOption .text d.method),
    ("limits", ofOption Limits.toValue d.limits)]

def Draft.ofValue? (v : Value) : Option Draft := do
  match ← v.fields? (Request.spellings ++ [["limits"]]) with
  | [function, x0, y0, xn, numSteps, stepSize, method, limits] =>
    let function ← required asText? function
    let x0 ← required asNumber? x0
    let y0 ← required asNumber? y0
    let xn ← required asNumber? xn
    let numSteps ← optional asNumber? numSteps
    let stepSize ← optional asNumber? stepSize
    let method ← optional asText? method
    let limits ← optional Limits.ofValue? limits
    return { function, x0, y0, xn, numSteps, stepSize, method, limits }
  | _ => none

end InitialValue
