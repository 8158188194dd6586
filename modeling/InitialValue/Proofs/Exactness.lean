import InitialValue.Proofs.Run
import Mathlib.Analysis.Calculus.Deriv.Polynomial
import Mathlib.Analysis.SpecialFunctions.Integrals.Basic
import Mathlib.Topology.Algebra.Polynomial

/-! Runs in exact arithmetic. Over the rational numbers nothing is rounded and no value
is out of range, so that what is left of a run is the scheme itself. A step multiplies
the solution of a linear equation by the exponential series up to the order of the
method, and a slope that depends on `x` alone is summed by the left rectangle, the
trapezoid or Simpson's rule, which are exact on polynomials of lower degree than the
order. A run repeats that step. -/

namespace InitialValue

open Polynomial (aeval derivative)
open Sampling (Slope)

/-- Over the rational numbers every value counts as finite. -/
instance : Scalar ℚ where
  two := 2
  six := 6
  isFinite _ := true

/-! ### Runs along an orbit -/

namespace Integration

variable {α : Type} [Scalar α] {f : Slope α} {m : Method} {h : α}

/-- Where each point of a sequence is left for the next one, a run has the points of the
sequence. -/
theorem exists_record_of_orbit {X Y : ℕ → α}
    (hstep : ∀ i, ∃ d, leave f m h (X i) (Y i) = .ok ⟨X (i + 1), Y (i + 1), d⟩) (n step : ℕ) :
    ∃ rows, record f m h n step (X 0) (Y 0) = .ok rows ∧ rows.length = n + 1 ∧
      ∀ (i : ℕ) (r : Row α), rows[i]? = some r → r.x = X i ∧ r.y = Y i := by
  obtain ⟨d, hl⟩ := hstep 0
  induction n generalizing X Y step d with
  | zero =>
    refine ⟨_, record_zero_eq_ok_iff.mpr ⟨_, slope_of_leave hl, rfl⟩, rfl, ?_⟩
    rintro (_ | i) r ⟨⟩
    exact ⟨rfl, rfl⟩
  | succ n ih =>
    obtain ⟨d', hl'⟩ := hstep 1
    obtain ⟨rest, hrest, hlen, hrows⟩ := ih (fun i => hstep (i + 1)) (step + 1) d' hl'
    refine ⟨_, record_succ_eq_ok_iff.mpr ⟨_, hl, rest, hrest, rfl⟩,
      by rw [List.length_cons, hlen], ?_⟩
    rintro (_ | i) r hi
    · cases hi
      exact ⟨rfl, rfl⟩
    · exact hrows i r hi

end Integration

open Integration (leave leave_eq_ok_iff exists_record_of_orbit)

variable {m : Method} {x y h : ℚ}

theorem Scalar.two_eq : (Scalar.two : ℚ) = 2 := rfl

theorem Scalar.six_eq : (Scalar.six : ℚ) = 6 := rfl

/-- In exact arithmetic a step ends where the formulas lead. -/
theorem leave_eq_of_obeys {f : Slope ℚ} {y' : ℚ} {d : Diagnostics ℚ} (hd : d.method = m)
    (ho : Step.Obeys f x y h ⟨x + h, y', d⟩) : leave f m h x y = .ok ⟨x + h, y', d⟩ :=
  leave_eq_ok_iff.mpr ⟨Method.run_step_eq_ok_iff.mpr ⟨hd, ho⟩, rfl, rfl⟩

/-! ### Linear equations -/

namespace Method

/-- By what a step multiplies the solution of `dy/dx = c * y`, where `z` is `h * c`. -/
def growth (m : Method) (z : ℚ) : ℚ :=
  match m with
  | .euler => 1 + z
  | .heun => 1 + z + z ^ 2 / 2
  | .rungeKutta => 1 + z + z ^ 2 / 2 + z ^ 3 / 6 + z ^ 4 / 24

/-- The growth is the exponential series up to the order of the method. -/
theorem growth_eq_sum (m : Method) (z : ℚ) :
    m.growth z = ∑ k ∈ Finset.range (m.info.order + 1), z ^ k / k.factorial := by
  cases m with
  | euler | heun | rungeKutta => simp [growth, info, Finset.sum_range_succ, Nat.factorial]

theorem exists_leave_linear (m : Method) (c x y h : ℚ) :
    ∃ d, leave (fun _ y => .ok (c * y)) m h x y = .ok ⟨x + h, y * m.growth (h * c), d⟩ := by
  cases m with
  | euler =>
    refine ⟨.euler (c * y), leave_eq_of_obeys rfl ⟨rfl, rfl, ?_⟩⟩
    simp only [growth]
    ring
  | heun =>
    refine ⟨.heun _ _ _ _, leave_eq_of_obeys rfl ⟨rfl, rfl, rfl, rfl, rfl, rfl, ?_⟩⟩
    simp only [growth, Scalar.two_eq]
    ring
  | rungeKutta =>
    refine ⟨.rungeKutta _ _ _ _ _, leave_eq_of_obeys rfl
      ⟨rfl, rfl, rfl, rfl, rfl, rfl, rfl, rfl, rfl, ?_⟩⟩
    simp only [growth, Scalar.two_eq, Scalar.six_eq]
    ring

/-! ### Quadrature -/

/-- How a step sums up a slope that depends on `x` alone: the left rectangle, the trapezoid,
Simpson's rule. -/
def rule (m : Method) (q : ℚ → ℚ) (x h : ℚ) : ℚ :=
  match m with
  | .euler => h * q x
  | .heun => h / 2 * (q x + q (x + h))
  | .rungeKutta => h / 6 * (q x + 4 * q (x + h / 2) + q (x + h))

theorem exists_leave_quadrature (m : Method) (q : ℚ → ℚ) (x y h : ℚ) :
    ∃ d, leave (fun x _ => .ok (q x)) m h x y = .ok ⟨x + h, y + m.rule q x h, d⟩ := by
  cases m with
  | euler => exact ⟨.euler (q x), leave_eq_of_obeys rfl ⟨rfl, rfl, rfl⟩⟩
  | heun => exact ⟨.heun _ _ _ _, leave_eq_of_obeys rfl ⟨rfl, rfl, rfl, rfl, rfl, rfl, rfl⟩⟩
  | rungeKutta =>
    refine ⟨.rungeKutta _ _ _ _ _, leave_eq_of_obeys rfl
      ⟨rfl, rfl, rfl, rfl, rfl, rfl, rfl, rfl, rfl, ?_⟩⟩
    simp only [rule, Scalar.two_eq, Scalar.six_eq]
    ring

end Method

theorem exists_derivative_eq (p : Polynomial ℚ) : ∃ P, derivative P = p := by
  induction p using Polynomial.induction_on' with
  | add p q hp hq =>
    obtain ⟨P, rfl⟩ := hp
    obtain ⟨Q, rfl⟩ := hq
    exact ⟨P + Q, Polynomial.derivative_add⟩
  | monomial n a =>
    refine ⟨Polynomial.monomial (n + 1) (a / (n + 1)), ?_⟩
    rw [Polynomial.derivative_monomial, Nat.add_sub_cancel, Nat.cast_succ, div_mul_cancel₀]
    exact Nat.cast_add_one_ne_zero n

/-- The rules are exact on polynomials of lower degree than the order of the method. -/
theorem Method.rule_derivative {P : Polynomial ℚ} (hP : (derivative P).natDegree < m.info.order)
    (x h : ℚ) : m.rule (fun x => (derivative P).eval x) x h = P.eval (x + h) - P.eval x := by
  have hdegree : P.natDegree < m.info.order + 1 := by
    refine Nat.lt_succ_of_le (Polynomial.natDegree_le_iff_coeff_eq_zero.mpr fun k hk => ?_)
    obtain ⟨j, rfl⟩ : ∃ j, k = j + 1 := ⟨k - 1, by omega⟩
    have hcoeff := Polynomial.coeff_derivative P j
    rw [Polynomial.coeff_eq_zero_of_natDegree_lt (by omega), eq_comm, mul_eq_zero] at hcoeff
    exact hcoeff.resolve_right (Nat.cast_add_one_ne_zero j)
  have heval := Polynomial.eval_eq_sum_range' hdegree
  have hslope := Polynomial.eval_eq_sum_range' hP
  simp only [Polynomial.coeff_derivative] at hslope
  cases m with
  | euler | heun | rungeKutta =>
    simp only [rule, info, heval, hslope, Finset.sum_range_succ, Finset.sum_range_zero]
    push_cast
    ring

/-- The integral of a derivative over an interval with rational ends. -/
theorem integral_derivative (P : Polynomial ℚ) (a b : ℚ) :
    ∫ x in (a : ℝ)..b, aeval x (derivative P) = (P.eval b - P.eval a : ℚ) := by
  have hderiv :
      ∀ x ∈ Set.uIcc (a : ℝ) b, HasDerivAt (fun x => aeval x P) (aeval x (derivative P)) x :=
    fun x _ => P.hasDerivAt_aeval x
  have hcont : Continuous fun x : ℝ => aeval x (derivative P) := (derivative P).continuous_aeval
  have hcast : ∀ q : ℚ, aeval (q : ℝ) P = (P.eval q : ℚ) := fun q =>
    Polynomial.aeval_algebraMap_apply_eq_algebraMap_eval q P
  rw [intervalIntegral.integral_eq_sub_of_hasDerivAt hderiv (hcont.intervalIntegrable _ _),
    hcast, hcast, Rat.cast_sub]

/-! ### Runs -/

namespace Integration

/-- A run with these steps has its rows at the multiples of the step size. -/
theorem exists_rows_of_steps {f : Slope ℚ} {x0 : ℚ} {Y : ℕ → ℚ}
    (hstep : ∀ i : ℕ, ∃ d, leave f m h (x0 + i * h) (Y i) = .ok ⟨x0 + i * h + h, Y (i + 1), d⟩)
    (n : ℕ) :
    ∃ rows, (Integration.rows m x0 (Y 0) h n).run f = .ok rows ∧ rows.length = n + 1 ∧
      ∀ (i : ℕ) (r : Row ℚ), rows[i]? = some r → r.x = x0 + i * h ∧ r.y = Y i := by
  have hsucc : ∀ i : ℕ, x0 + i * h + h = x0 + (i + 1 : ℕ) * h := fun i => by
    push_cast
    ring
  simp only [hsucc] at hstep
  have horbit := exists_record_of_orbit (X := fun i => x0 + i * h) (Y := Y) hstep n 0
  rw [run_rows]
  simpa using horbit

/-- In exact arithmetic a run always ends. On `dy/dx = c * y` its height is multiplied by the growth
of the method at every step. On a polynomial slope of lower degree than the order of the method it
is the integral. -/
theorem rows_exact_up_to_order (m : Method) (x0 y0 h : ℚ) (n : ℕ) :
    (∀ c : ℚ, ∃ rows, (Integration.rows m x0 y0 h n).run (fun _ y => .ok (c * y)) = .ok rows ∧
      rows.length = n + 1 ∧ ∀ (i : ℕ) (r : Row ℚ), rows[i]? = some r →
        r.x = x0 + i * h ∧ r.y = y0 * m.growth (h * c) ^ i) ∧
    ∀ p : Polynomial ℚ, p.natDegree < m.info.order →
      ∃ rows, (Integration.rows m x0 y0 h n).run (fun x _ => .ok (p.eval x)) = .ok rows ∧
        rows.length = n + 1 ∧ ∀ (i : ℕ) (r : Row ℚ), rows[i]? = some r →
          r.x = x0 + i * h ∧ (r.y : ℝ) = y0 + ∫ x in (x0 : ℝ)..(x0 + i * h), aeval x p := by
  constructor
  · intro c
    have hstep : ∀ i : ℕ, ∃ d, leave (fun _ y => .ok (c * y)) m h (x0 + i * h)
      (y0 * m.growth (h * c) ^ i) =
        .ok ⟨x0 + i * h + h, y0 * m.growth (h * c) ^ (i + 1), d⟩ := fun i => by
      rw [pow_succ, ← mul_assoc]
      exact m.exists_leave_linear ..
    simpa using exists_rows_of_steps (Y := fun i => y0 * m.growth (h * c) ^ i) hstep n
  · intro p hp
    obtain ⟨P, rfl⟩ := exists_derivative_eq p
    let Y : ℕ → ℚ := fun i => y0 + (P.eval (x0 + i * h) - P.eval x0)
    have hstep : ∀ i : ℕ, ∃ d, leave (fun x _ => .ok ((derivative P).eval x)) m h
      (x0 + i * h) (Y i) =
        .ok ⟨x0 + i * h + h, Y (i + 1), d⟩ := fun i => by
      have hnext : Y (i + 1) = Y i + m.rule (fun x => (derivative P).eval x) (x0 + i * h) h := by
        rw [m.rule_derivative hp, show x0 + i * h + h = x0 + (i + 1 : ℕ) * h by push_cast; ring]
        ring
      rw [hnext]
      exact m.exists_leave_quadrature ..
    obtain ⟨rows, hrun, hlen, hrows⟩ := exists_rows_of_steps hstep n
    have hstart : Y 0 = y0 := by simp [Y]
    rw [hstart] at hrun
    refine ⟨rows, hrun, hlen, fun i r hi => ?_⟩
    obtain ⟨hx, hy⟩ := hrows i r hi
    have hintegral := integral_derivative P x0 (x0 + i * h)
    rw [Rat.cast_add, Rat.cast_mul, Rat.cast_natCast] at hintegral
    refine ⟨hx, ?_⟩
    rw [hy, hintegral]
    exact Rat.cast_add ..

/-- Four steps of the classic method integrate `x ^ 3` from zero to two. -/
theorem rungeKutta_rows_of_cube :
    (Polynomial.X ^ 3 : Polynomial ℚ).natDegree < Method.rungeKutta.info.order ∧
      ∃ rows, (Integration.rows .rungeKutta (0 : ℚ) 1 (1 / 2) 4).run (fun x _ => .ok (x ^ 3)) =
        .ok rows ∧
        rows.length = 5 ∧ ∀ r, rows[4]? = some r → r.y = 5 := by
  have hdegree : (Polynomial.X ^ 3 : Polynomial ℚ).natDegree < Method.rungeKutta.info.order := by
    rw [Polynomial.natDegree_X_pow]
    decide
  obtain ⟨rows, hrun, hlen, hrows⟩ := (rows_exact_up_to_order .rungeKutta 0 1 (1 / 2) 4).2 _ hdegree
  simp only [Polynomial.eval_pow, Polynomial.eval_X] at hrun
  refine ⟨hdegree, rows, hrun, hlen, fun r hr => ?_⟩
  have hy := (hrows 4 r hr).2
  norm_num [integral_pow] at hy
  exact_mod_cast hy

end Integration

end InitialValue
