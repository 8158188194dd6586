import InitialValue.Comparison
import InitialValue.DirectionField
import InitialValue.Solver

/-! Requests as a front end fills them in: the method is a name, the number of
steps is any number, and limits may be asked for. Such limits can only tighten the
standard ones. Every failure on the way has one message. -/

namespace InitialValue

structure Draft where
  function : String
  x0 : Float
  y0 : Float
  xn : Float
  numSteps : Option Float
  stepSize : Option Float
  method : Option String
  limits : Option Limits
  deriving DecidableEq, Repr

inductive DraftError where
  | methodMissing
  | unknownMethod (u : UnknownMethod)
  | fractionalSteps (n : Float)
  | limits (e : SolveError)
  | solve (m : Method) (e : SolveError)
  | expression (e : Expression.ParseError)
  | frame (fault : FrameFault)
  | comparison (fault : ComparisonFault)
  deriving DecidableEq, Repr

/-- The message with its causes, each after a colon. -/
def DraftError.message : DraftError → String
  | .methodMissing => "A method is required."
  | .unknownMethod u => u.message
  | .fractionalSteps n =>
    "invalid num_steps: " ++ Decimal.plain n ++ " is not a whole number of steps"
  | .limits e => ": ".intercalate e.chain
  | .solve m e => ": ".intercalate ((m.label ++ " solve failed") :: e.chain)
  | .expression e => e.message
  | .frame fault => fault.message
  | .comparison fault => fault.message

namespace Draft

/-- The method to use: the one given here, or else the one the draft names. -/
def chosenMethod (d : Draft) : Option Method → Except DraftError Method
  | some m => .ok m
  | none =>
    match d.method with
    | none => .error .methodMissing
    | some name => (Method.ofName name).mapError .unknownMethod

/-- The number of steps, which has to be a natural number. -/
def wholeSteps (d : Draft) : Except DraftError (Option UInt64) :=
  match d.numSteps with
  | none => .ok none
  | some n =>
    if Binary64.isWhole n && 0.0 ≤ n then .ok (some n.toUInt64) else .error (.fractionalSteps n)

def toRequest (d : Draft) (override : Option Method) : Except DraftError Request := do
  let method ← d.chosenMethod override
  let numSteps ← d.wholeSteps
  return { function := d.function, x0 := d.x0, y0 := d.y0, xn := d.xn, numSteps
           stepSize := d.stepSize, method }

/-- The standard limits, tightened by those the draft asks for. -/
def effectiveLimits (d : Draft) : Limits :=
  match d.limits with
  | some requested => Limits.standard.restrictedBy requested
  | none => .standard

def solver (d : Draft) : Except DraftError Solver :=
  (Solver.ofLimits d.effectiveLimits).mapError .limits

/-- Solves the draft, by another method than its own if one is given. -/
def solve (d : Draft) (override : Option Method) : Except DraftError Trajectory := do
  let request ← d.toRequest override
  let solver ← d.solver
  (solver.solveRequest request).mapError (.solve request.method)

/-- Solves the draft and samples its direction field around the solution. -/
def directionField (d : Draft) : Except DraftError DirectionField := do
  let t ← d.solve none
  let f ← (Expression.parse d.function).mapError .expression
  (DirectionField.sample f.evaluate (.around t)).mapError .frame

/-- Solves the draft by two methods and compares the solutions. -/
def compare (d : Draft) (a b : String) : Except DraftError Comparison := do
  let a ← (Method.ofName a).mapError .unknownMethod
  let b ← (Method.ofName b).mapError .unknownMethod
  let first ← d.solve (some a)
  let second ← d.solve (some b)
  (first.compare second).mapError .comparison

end Draft

end InitialValue
