import InitialValue.Proofs.Outcome
import InitialValue.Step

/-! What one step yields. A step succeeds exactly when the slope function has a
value at each of its stage points and each stage value is finite, and it then
yields the point of the update formula with the slopes it was computed from. Its
first slope is the slope where it starts. -/

namespace InitialValue

open Expression (EvalError)
open Scalar (two six isFinite)
open Sampling (Slope)

variable {α : Type} [Scalar α] {f : Slope α} {m : Method} {x y h : α} {next : Step α}

namespace Step

/-- The point and the slopes that the formulas of the step's own method give from `(x, y)`. -/
def Obeys (f : Slope α) (x y h : α) (next : Step α) : Prop :=
  next.x = x + h ∧
  match next.diagnostics with
  | .euler slope => f x y = .ok slope ∧ next.y = y + h * slope
  | .heun k1 k2 predictor average =>
    f x y = .ok k1 ∧ predictor = y + h * k1 ∧ isFinite predictor = true ∧
      f (x + h) predictor = .ok k2 ∧ average = (k1 + k2) / two ∧
      next.y = y + h / two * (k1 + k2)
  | .rungeKutta k1 k2 k3 k4 weighted =>
    f x y = .ok k1 ∧
      isFinite (y + k1 * (h / two)) = true ∧ f (x + h / two) (y + k1 * (h / two)) = .ok k2 ∧
      isFinite (y + k2 * (h / two)) = true ∧ f (x + h / two) (y + k2 * (h / two)) = .ok k3 ∧
      isFinite (y + k3 * h) = true ∧ f (x + h) (y + k3 * h) = .ok k4 ∧
      weighted = (k1 + two * k2 + two * k3 + k4) / six ∧
      next.y = y + h / six * (k1 + two * k2 + two * k3 + k4)

theorem run_stage_eq_ok_iff {operation : Expression.Operation} {value v : α} :
    (stage operation value).run f = .ok v ↔ v = value ∧ isFinite value = true := by
  unfold stage
  split
  · next hf => simp [hf, eq_comm]
  · next hf => simp [hf]

theorem run_euler_eq_ok_iff : (euler x y h).run f = .ok next ↔
    next.diagnostics.method = .euler ∧ next.Obeys f x y h := by
  obtain ⟨x', y', d⟩ := next
  simp only [euler, Sampling.run_bind, Sampling.run_slope, Sampling.run_pure, bind_eq_ok_iff,
    Except.ok.injEq, Step.mk.injEq]
  cases d with
  | euler slope =>
    simp only [Diagnostics.method, Obeys, Diagnostics.euler.injEq, true_and]
    constructor
    · rintro ⟨_, hf, rfl, rfl, rfl⟩
      exact ⟨rfl, hf, rfl⟩
    · rintro ⟨rfl, hf, rfl⟩
      exact ⟨_, hf, rfl, rfl, rfl⟩
  | heun | rungeKutta => simp [Diagnostics.method]

theorem run_heun_eq_ok_iff : (heun x y h).run f = .ok next ↔
    next.diagnostics.method = .heun ∧ next.Obeys f x y h := by
  obtain ⟨x', y', d⟩ := next
  simp only [heun, Sampling.run_bind, Sampling.run_slope, Sampling.run_pure, bind_eq_ok_iff,
    run_stage_eq_ok_iff, Except.ok.injEq, Step.mk.injEq]
  cases d with
  | heun k1 k2 predictor average =>
    simp only [Diagnostics.method, Obeys, Diagnostics.heun.injEq, true_and]
    constructor
    · rintro ⟨_, h1, _, ⟨rfl, hp⟩, _, h2, rfl, rfl, rfl, rfl, rfl, rfl⟩
      exact ⟨rfl, h1, rfl, hp, h2, rfl, rfl⟩
    · rintro ⟨rfl, h1, rfl, hp, h2, rfl, rfl⟩
      exact ⟨_, h1, _, ⟨rfl, hp⟩, _, h2, rfl, rfl, rfl, rfl, rfl, rfl⟩
  | euler | rungeKutta => simp [Diagnostics.method]

theorem run_rungeKutta_eq_ok_iff : (rungeKutta x y h).run f = .ok next ↔
    next.diagnostics.method = .rungeKutta ∧ next.Obeys f x y h := by
  obtain ⟨x', y', d⟩ := next
  simp only [rungeKutta, Sampling.run_bind, Sampling.run_slope, Sampling.run_pure, bind_eq_ok_iff,
    run_stage_eq_ok_iff, Except.ok.injEq, Step.mk.injEq]
  cases d with
  | rungeKutta k1 k2 k3 k4 weighted =>
    simp only [Diagnostics.method, Obeys, Diagnostics.rungeKutta.injEq, true_and]
    constructor
    · rintro ⟨_, h1, _, ⟨rfl, s2⟩, _, h2, _, ⟨rfl, s3⟩, _, h3, _, ⟨rfl, s4⟩, _, h4, rfl,
        rfl, rfl, rfl, rfl, rfl, rfl⟩
      exact ⟨rfl, h1, s2, h2, s3, h3, s4, h4, rfl, rfl⟩
    · rintro ⟨rfl, h1, s2, h2, s3, h3, s4, h4, rfl, rfl⟩
      exact ⟨_, h1, _, ⟨rfl, s2⟩, _, h2, _, ⟨rfl, s3⟩, _, h3, _, ⟨rfl, s4⟩, _, h4, rfl,
        rfl, rfl, rfl, rfl, rfl, rfl⟩
  | euler | heun => simp [Diagnostics.method]

/-- The first slope of a step is the slope where it starts. -/
theorem Obeys.initialSlope (ho : next.Obeys f x y h) :
    f x y = .ok next.diagnostics.initialSlope := by
  obtain ⟨x', y', d⟩ := next
  cases d with
  | euler | heun | rungeKutta => exact ho.2.1

end Step

/-- A step succeeds with just what the formulas of its method give. -/
theorem Method.run_step_eq_ok_iff : (m.step x y h).run f = .ok next ↔
    next.diagnostics.method = m ∧ next.Obeys f x y h := by
  cases m with
  | euler => exact Step.run_euler_eq_ok_iff
  | heun => exact Step.run_heun_eq_ok_iff
  | rungeKutta => exact Step.run_rungeKutta_eq_ok_iff

/-- Every step begins by asking for the slope where it starts. -/
theorem Method.run_step_of_error {c : EvalError} (hf : f x y = .error c) :
    (m.step x y h).run f = .error c := by
  cases m with
  | euler | heun | rungeKutta =>
    simp [Method.step, Step.euler, Step.heun, Step.rungeKutta, hf]

end InitialValue
