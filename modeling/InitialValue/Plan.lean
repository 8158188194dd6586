import InitialValue.Binary64.Magnitude
import InitialValue.Method
import InitialValue.SolveError

/-! From an interval to steps. A caller fixes the number of steps or their size;
the other follows from the interval. -/

namespace InitialValue

inductive StepSpec where
  | count (n : UInt64)
  | size (h : Float)
  deriving DecidableEq, Repr

/-- Steps of size `h`, `numSteps` of them. -/
structure Plan where
  h : Float
  numSteps : UInt64
  deriving DecidableEq, Repr

namespace Plan

/-- The size that divides the interval into `n` steps. -/
def ofCount (x0 xn : Float) (n : UInt64) (limits : Limits) : Except SolveError Plan :=
  if n = 0 then .error (.rejected .noSteps)
  else if limits.maxSteps < n then .error (.rejected (.tooManySteps limits.maxSteps))
  else
    let h := (xn - x0) / n.toFloat
    if limits.allowsStepSize h then .ok ⟨h, n⟩
    else .error (.rejected (.derivedStepSizeOutside h limits))

/-- As many steps of size `h` as fit into the interval. -/
def ofSize (x0 xn h : Float) (limits : Limits) : Except SolveError Plan :=
  if !limits.allowsStepSize h then .error (.rejected (.requestedStepSizeOutside limits))
  else
    let steps := Binary64.floor ((xn - x0) / h)
    if !steps.isFinite || steps < 0.0 then .error (.rejected .endBehindStart)
    else if limits.maxSteps.toFloat < steps then
      .error (.rejected (.tooManyDerivedSteps steps limits.maxSteps))
    else .ok ⟨h, steps.toUInt64⟩

def resolve (x0 xn : Float) (spec : StepSpec) (limits : Limits) : Except SolveError Plan :=
  if !x0.isFinite then .error (.rejected .startNotFinite)
  else if !xn.isFinite then .error (.rejected .endNotFinite)
  else
    match spec with
    | .count n => ofCount x0 xn n limits
    | .size h => ofSize x0 xn h limits

end Plan

/-! ### Requests -/

/-- A problem to solve as it is sent in: the right-hand side as text, the start, the end, and either
the number of steps or their size. -/
structure Request where
  function : String
  x0 : Float
  y0 : Float
  xn : Float
  numSteps : Option UInt64
  stepSize : Option Float
  method : Method
  deriving DecidableEq, Repr

/-- The steps asked for; exactly one of count and size has to be given. -/
def Request.stepSpec (r : Request) : Except SolveError StepSpec :=
  match r.numSteps, r.stepSize with
  | some n, none => .ok (.count n)
  | none, some h => .ok (.size h)
  | some _, some _ => .error (.rejected .countAndSize)
  | none, none => .error (.rejected .neitherCountNorSize)

end InitialValue
