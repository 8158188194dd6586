import InitialValue.Expression.Error

/-! Computations that ask for slopes. A sampling computation either is done or
asks for the slope at one point and goes on with the answer, which may be a
failure. What it asks for and what it ends with are read off the same
computation: `run` gives the outcome under a slope function, `calls` the points
that are asked for on the way, in order. -/

namespace InitialValue

open Expression (EvalError)

/-- A computation over slopes with values in `α` that ends with a `β` or fails with a `φ`. -/
inductive Sampling (α φ β : Type) where
  | done (outcome : Except φ β)
  | ask (x y : α) (next : Except EvalError α → Sampling α φ β)

namespace Sampling

variable {α φ ψ β γ : Type}

/-- A slope function: the value at a point, or the reason why there is none. -/
abbrev Slope (α : Type) := α → α → Except EvalError α

def bind : Sampling α φ β → (β → Sampling α φ γ) → Sampling α φ γ
  | .done (.ok b), f => f b
  | .done (.error e), _ => .done (.error e)
  | .ask x y next, f => .ask x y fun answer => (next answer).bind f

instance : Monad (Sampling α φ) where
  pure b := .done (.ok b)
  bind := bind

def fail (e : φ) : Sampling α φ β := .done (.error e)

/-- The slope at a point. -/
def slope (x y : α) : Sampling α EvalError α := .ask x y .done

def mapFailure (f : φ → ψ) : Sampling α φ β → Sampling α ψ β
  | .done (.ok b) => .done (.ok b)
  | .done (.error e) => .done (.error (f e))
  | .ask x y next => .ask x y fun answer => (next answer).mapFailure f

/-! ### Outcome and calls -/

def run (f : Slope α) : Sampling α φ β → Except φ β
  | .done outcome => outcome
  | .ask x y next => (next (f x y)).run f

def calls (f : Slope α) : Sampling α φ β → List (α × α)
  | .done _ => []
  | .ask x y next => (x, y) :: (next (f x y)).calls f

/-- Outcome and calls in one pass; `seen` holds earlier calls, latest first. -/
def traceFrom (f : Slope α) (seen : List (α × α)) : Sampling α φ β → List (α × α) × Except φ β
  | .done outcome => (seen.reverse, outcome)
  | .ask x y next => (next (f x y)).traceFrom f ((x, y) :: seen)

def trace (f : Slope α) (s : Sampling α φ β) : List (α × α) × Except φ β := s.traceFrom f []

theorem traceFrom_eq (f : Slope α) (s : Sampling α φ β) (seen : List (α × α)) :
    s.traceFrom f seen = (seen.reverse ++ s.calls f, s.run f) := by
  induction s generalizing seen with
  | done outcome => simp [traceFrom, calls, run]
  | ask x y next ih => simp [traceFrom, calls, run, ih]

theorem trace_eq (f : Slope α) (s : Sampling α φ β) : s.trace f = (s.calls f, s.run f) := by
  simp [trace, traceFrom_eq]

/-! ### Through `bind` -/

@[simp] theorem run_pure (f : Slope α) (b : β) : (pure b : Sampling α φ β).run f = .ok b := rfl

@[simp] theorem run_fail (f : Slope α) (e : φ) : (fail e : Sampling α φ β).run f = .error e := rfl

@[simp] theorem run_slope (f : Slope α) (x y : α) : (slope x y).run f = f x y := rfl

@[simp] theorem calls_pure (f : Slope α) (b : β) : (pure b : Sampling α φ β).calls f = [] := rfl

@[simp] theorem calls_fail (f : Slope α) (e : φ) : (fail e : Sampling α φ β).calls f = [] := rfl

@[simp] theorem calls_slope (f : Slope α) (x y : α) : (slope x y).calls f = [(x, y)] := rfl

@[simp] theorem run_bind (f : Slope α) (s : Sampling α φ β) (g : β → Sampling α φ γ) :
    (s >>= g).run f = s.run f >>= fun b => (g b).run f := by
  change (s.bind g).run f = _
  induction s with
  | done outcome => cases outcome <;> rfl
  | ask x y next ih => exact ih (f x y)

@[simp] theorem run_mapFailure (f : Slope α) (g : φ → ψ) (s : Sampling α φ β) :
    (s.mapFailure g).run f = (s.run f).mapError g := by
  induction s with
  | done outcome => cases outcome <;> rfl
  | ask x y next ih => exact ih (f x y)

/-- The calls that follow an outcome. -/
def callsAfter (f : Slope α) (g : β → Sampling α φ γ) : Except φ β → List (α × α)
  | .ok b => (g b).calls f
  | .error _ => []

@[simp] theorem callsAfter_ok (f : Slope α) (g : β → Sampling α φ γ) (b : β) :
    callsAfter f g (.ok b) = (g b).calls f := rfl

@[simp] theorem callsAfter_error (f : Slope α) (g : β → Sampling α φ γ) (e : φ) :
    callsAfter f g (.error e) = [] := rfl

theorem calls_bind (f : Slope α) (s : Sampling α φ β) (g : β → Sampling α φ γ) :
    (s >>= g).calls f = s.calls f ++ callsAfter f g (s.run f) := by
  change (s.bind g).calls f = _
  induction s with
  | done outcome => cases outcome <;> rfl
  | ask x y next ih => exact congrArg ((x, y) :: ·) (ih (f x y))

@[simp] theorem calls_mapFailure (f : Slope α) (g : φ → ψ) (s : Sampling α φ β) :
    (s.mapFailure g).calls f = s.calls f := by
  induction s with
  | done outcome => cases outcome <;> rfl
  | ask x y next ih => exact congrArg ((x, y) :: ·) (ih (f x y))

end Sampling

end InitialValue
