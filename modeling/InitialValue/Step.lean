import InitialValue.Method
import InitialValue.Sampling

/-! One step of each method. The formulas are written over any type with sums,
products, quotients and a test for finiteness, so that the same text can be run
on binary64 values and reasoned about over the rationals. A stage asks for the
slope only at a point whose second coordinate is finite. -/

namespace InitialValue

open Expression (EvalError Operation)

/-- Numbers over which the step formulas are written. -/
class Scalar (α : Type) extends Add α, Mul α, Div α where
  two : α
  six : α
  isFinite : α → Bool

instance : Scalar Float where
  two := 2.0
  six := 6.0
  isFinite := Float.isFinite

/-- The slopes by which a method advanced. -/
inductive Diagnostics (α : Type) where
  | euler (slope : α)
  | heun (k1 k2 predictor average : α)
  | rungeKutta (k1 k2 k3 k4 weighted : α)
  deriving DecidableEq, Repr

namespace Diagnostics

variable {α : Type}

/-- The slope where the step started. -/
def initialSlope : Diagnostics α → α
  | .euler slope => slope
  | .heun k1 .. => k1
  | .rungeKutta k1 .. => k1

def method : Diagnostics α → Method
  | .euler .. => .euler
  | .heun .. => .heun
  | .rungeKutta .. => .rungeKutta

end Diagnostics

/-- The point that a step reaches. -/
structure Step (α : Type) where
  x : α
  y : α
  diagnostics : Diagnostics α
  deriving DecidableEq, Repr

namespace Step

variable {α : Type} [Scalar α]

open Scalar (two six isFinite)

/-- An intermediate value, refused unless it is finite. -/
def stage (operation : Operation) (value : α) : Sampling α EvalError α :=
  if isFinite value then pure value else .fail (.nonFinite operation)

def euler (x y h : α) : Sampling α EvalError (Step α) := do
  let slope ← Sampling.slope x y
  return ⟨x + h, y + h * slope, .euler slope⟩

/-- Predicts by a step of Euler's method and corrects by the mean of the slopes at both ends. -/
def heun (x y h : α) : Sampling α EvalError (Step α) := do
  let k1 ← Sampling.slope x y
  let predictor ← stage .predictor (y + h * k1)
  let k2 ← Sampling.slope (x + h) predictor
  return ⟨x + h, y + h / two * (k1 + k2), .heun k1 k2 predictor ((k1 + k2) / two)⟩

/-- The classic method with two slopes at the middle of the step. -/
def rungeKutta (x y h : α) : Sampling α EvalError (Step α) := do
  let half := h / two
  let k1 ← Sampling.slope x y
  let y2 ← stage (.stage 2) (y + k1 * half)
  let k2 ← Sampling.slope (x + half) y2
  let y3 ← stage (.stage 3) (y + k2 * half)
  let k3 ← Sampling.slope (x + half) y3
  let y4 ← stage (.stage 4) (y + k3 * h)
  let k4 ← Sampling.slope (x + h) y4
  let total := k1 + two * k2 + two * k3 + k4
  return ⟨x + h, y + h / six * total, .rungeKutta k1 k2 k3 k4 (total / six)⟩

end Step

/-- One step of size `h` from `(x, y)`. -/
def Method.step {α : Type} [Scalar α] (m : Method) (x y h : α) : Sampling α EvalError (Step α) :=
  match m with
  | .euler => Step.euler x y h
  | .heun => Step.heun x y h
  | .rungeKutta => Step.rungeKutta x y h

end InitialValue
