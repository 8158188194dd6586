import InitialValue.Expression.Value
import InitialValue.Integration
import InitialValue.Plan

/-! Solving within limits. A solver holds limits that are usable. It checks the
start, the number of steps and their size, in that order, before it looks at the
expression; an expression that cannot be read counts as a failure at step zero,
and one that has no value at the probe point is rejected. -/

namespace InitialValue

structure Solver where
  limits : Limits
  usable : limits.fault? = none

namespace Solver

/-- A solver for limits, unless they are unusable. -/
def ofLimits (limits : Limits) : Except SolveError Solver :=
  match h : limits.fault? with
  | none => .ok ⟨limits, h⟩
  | some fault => .error (.rejected (.unusableLimits fault))

/-- The solver with the standard limits. -/
def standard : Solver := ⟨.standard, Limits.fault?_standard⟩

instance : Inhabited Solver := ⟨standard⟩

variable (s : Solver)

/-- The first of the parameters that may not be used. -/
def rejection? (x0 y0 h : Float) (numSteps : UInt64) : Option Rejection :=
  if !x0.isFinite then some .startNotFinite
  else if !y0.isFinite then some .startValueNotFinite
  else if s.limits.maxSteps < numSteps then some (.tooManySteps s.limits.maxSteps)
  else if !h.isFinite || h == 0.0 then some .stepSizeVanishes
  else if !s.limits.allowsStepSize h then some (.stepSizeOutside s.limits)
  else none

/-- The largest number of steps whose rows can still be counted. -/
def mostCountable : UInt64 := 0xfffffffffffffffe

/-- Integrates a slope function that is asked for on the way; `expression` is recorded as it is
given. -/
def integrate (expression : String) (x0 y0 h : Float) (numSteps : UInt64) (m : Method) :
    Sampling Float SolveError Trajectory :=
  match s.rejection? x0 y0 h numSteps with
  | some r => .fail (.rejected r)
  | none =>
    if mostCountable < numSteps then .fail (.rejected .tooManyRows)
    else do
      let rows ← Integration.rows m x0 y0 h numSteps.toNat
      return .ofRows m expression x0 y0 h numSteps rows

/-- Integrates `dy/dx = f(x, y)` for the expression in a text. -/
def solve (expression : String) (x0 y0 h : Float) (numSteps : UInt64) (m : Method) :
    Except SolveError Trajectory :=
  match s.rejection? x0 y0 h numSteps with
  | some r => .error (.rejected r)
  | none =>
    match Expression.parse expression with
    | .error e => .error (.evaluationFailed 0 (.parse e))
    | .ok f =>
      match f.probe with
      | .error cause => .error (.rejected (.failsAtProbe cause))
      | .ok _ => (s.integrate expression x0 y0 h numSteps m).run f.evaluate

/-- Solves from `x0` towards `xn`, with the steps that the interval leaves. -/
def solveInterval (expression : String) (x0 y0 xn : Float) (spec : StepSpec) (m : Method) :
    Except SolveError Trajectory := do
  let plan ← Plan.resolve x0 xn spec s.limits
  s.solve expression x0 y0 plan.h plan.numSteps m

def solveRequest (r : Request) : Except SolveError Trajectory := do
  let spec ← r.stepSpec
  s.solveInterval r.function r.x0 r.y0 r.xn spec r.method

end Solver

end InitialValue
