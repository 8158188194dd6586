import InitialValue.Decimal.Layout
import InitialValue.Expression.Error
import InitialValue.Limits

/-! Why a run does not take place or breaks off. A rejection concerns one of the
inputs and is made before any slope is asked for; a failed evaluation belongs to
the step at which it happened. -/

namespace InitialValue

open Expression (EvalError)

/-- The inputs that a rejection can concern; `stepPlan` is the choice between step count and step
size. -/
inductive InputField where
  | expression | x0 | y0 | xn | stepSize | numSteps | stepPlan | limits
  deriving DecidableEq, Repr

def InputField.name : InputField → String
  | .expression => "expression"
  | .x0 => "x0"
  | .y0 => "y0"
  | .xn => "xn"
  | .stepSize => "step_size"
  | .numSteps => "num_steps"
  | .stepPlan => "num_steps/step_size"
  | .limits => "limits"

inductive Rejection where
  | startNotFinite
  | startValueNotFinite
  | endNotFinite
  | endBehindStart
  | noSteps
  | tooManySteps (most : UInt64)
  | tooManyDerivedSteps (steps : Float) (most : UInt64)
  | tooManyRows
  | stepSizeVanishes
  | stepSizeOutside (limits : Limits)
  | requestedStepSizeOutside (limits : Limits)
  | derivedStepSizeOutside (h : Float) (limits : Limits)
  | countAndSize
  | neitherCountNorSize
  | failsAtProbe (cause : EvalError)
  | unusableLimits (fault : LimitsFault)
  deriving DecidableEq, Repr

/-- The range of step sizes. -/
def Limits.range (l : Limits) : String :=
  "[" ++ Decimal.plain l.minStepSize ++ ", " ++ Decimal.plain l.maxStepSize ++ "]"

namespace Rejection

def field : Rejection → InputField
  | .startNotFinite => .x0
  | .startValueNotFinite => .y0
  | .endNotFinite | .endBehindStart => .xn
  | .noSteps | .tooManySteps _ | .tooManyDerivedSteps .. | .tooManyRows => .numSteps
  | .stepSizeVanishes | .stepSizeOutside _ | .requestedStepSizeOutside _
  | .derivedStepSizeOutside .. => .stepSize
  | .countAndSize | .neitherCountNorSize => .stepPlan
  | .failsAtProbe _ => .expression
  | .unusableLimits _ => .limits

/-- What the input has to satisfy. -/
def constraint : Rejection → String
  | .startNotFinite | .startValueNotFinite | .endNotFinite => "must be finite"
  | .endBehindStart => "must lie in the direction of the step from x0"
  | .noSteps => "must be at least 1 to derive a step size"
  | .tooManySteps most => "must not exceed " ++ toString most
  | .tooManyDerivedSteps steps most =>
    "derived step count " ++ Decimal.plain steps ++ " must not exceed " ++ toString most
  | .tooManyRows => "step count overflows the row count"
  | .stepSizeVanishes => "must be finite and nonzero"
  | .stepSizeOutside limits => "magnitude must lie within " ++ limits.range
  | .requestedStepSizeOutside limits =>
    "must be finite, nonzero, with magnitude within " ++ limits.range
  | .derivedStepSizeOutside h limits =>
    "derived step size " ++ Decimal.plain h ++ " must have magnitude within " ++ limits.range
  | .countAndSize => "supply either num_steps or step_size, not both"
  | .neitherCountNorSize => "one of num_steps or step_size is required"
  | .failsAtProbe cause => "must evaluate at x = 1, y = 1 (" ++ cause.message ++ ")"
  | .unusableLimits fault => fault.message

end Rejection

inductive SolveError where
  | rejected (r : Rejection)
  | evaluationFailed (step : UInt64) (cause : EvalError)
  deriving DecidableEq, Repr

namespace SolveError

def message : SolveError → String
  | .rejected r => "invalid " ++ r.field.name ++ ": " ++ r.constraint
  | .evaluationFailed step cause =>
    "evaluation failed at step " ++ toString step ++ ": " ++ cause.message

/-- The message followed by those of the causes behind it. -/
def chain : SolveError → List String
  | .rejected r => [message (.rejected r)]
  | .evaluationFailed step cause => [message (.evaluationFailed step cause), cause.message]

end SolveError

end InitialValue
