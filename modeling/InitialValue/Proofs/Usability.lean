import InitialValue.Proofs.Failures
import InitialValue.Proofs.Plan

/-! Trying a text out against solving with it. A text is tried out by reading it and
evaluating it at the probe point; a solver does the same after the check of its parameters
and before the run. The two agree on every text: what the run adds are failures for the
values on its way, and these are never mistaken for one of the text. Parameters that do
not pass are rejected for the first check they violate, whatever the text is. -/

namespace InitialValue

open Expression (isUsable parse)

namespace Expression

theorem isUsable_eq_true_iff {text : String} :
    isUsable text = true ↔ ∃ e v, parse text = .ok e ∧ e.probe = .ok v := by
  unfold isUsable
  cases parse text with
  | error e => simp
  | ok e =>
    simp only [Except.ok.injEq, exists_eq_left', exists_and_left]
    cases e.probe with
    | error c => simp [Except.isOk, Except.toBool]
    | ok v => simp [Except.isOk, Except.toBool]

/-- A text that cannot be used is not an expression, or has no value at the probe point. -/
theorem isUsable_eq_false_iff {text : String} : isUsable text = false ↔
    (∃ err, parse text = .error err) ∨ ∃ e c, parse text = .ok e ∧ e.probe = .error c := by
  unfold isUsable
  cases parse text with
  | error err => simp
  | ok e =>
    simp only [reduceCtorEq, exists_false, Except.ok.injEq, exists_eq_left', false_or,
      exists_and_left]
    cases e.probe with
    | error c => simp [Except.isOk, Except.toBool]
    | ok v => simp [Except.isOk, Except.toBool]

end Expression

namespace Solver

variable {s : Solver} {text : String} {x0 y0 h : Float} {n : UInt64} {m : Method} {e : Expression}

/-! ### Parameters -/

/-- The checks of the parameters in their order: whether each is passed, and what is said if it is
not. -/
def parameterChecks (s : Solver) (x0 y0 h : Float) (n : UInt64) : List (Bool × Rejection) :=
  [(x0.isFinite, .startNotFinite), (y0.isFinite, .startValueNotFinite),
    (n ≤ s.limits.maxSteps, .tooManySteps s.limits.maxSteps),
    (h.isFinite && h != 0.0, .stepSizeVanishes),
    (s.limits.minStepSize ≤ h.abs && h.abs ≤ s.limits.maxStepSize, .stepSizeOutside s.limits)]

/-- The first check that is violated decides. -/
theorem rejection?_eq_find? : s.rejection? x0 y0 h n =
    ((s.parameterChecks x0 y0 h n).find? fun check => !check.1).map Prod.snd := by
  unfold rejection?
  split_ifs <;> simp_all [parameterChecks, Limits.allowsStepSize, bne]

/-! ### Texts -/

theorem solve_of_rejection? {r : Rejection} (hr : s.rejection? x0 y0 h n = some r) :
    s.solve text x0 y0 h n m = .error (.rejected r) := by
  simp only [solve, hr]

theorem solve_of_parse_error {err : Expression.ParseError} (hok : s.rejection? x0 y0 h n = none)
    (he : parse text = .error err) :
    s.solve text x0 y0 h n m = .error (.evaluationFailed 0 (.parse err)) := by
  simp only [solve, hok, he]

theorem solve_of_probe_error {c : Expression.EvalError} (hok : s.rejection? x0 y0 h n = none)
    (he : parse text = .ok e) (hc : e.probe = .error c) :
    s.solve text x0 y0 h n m = .error (.rejected (.failsAtProbe c)) := by
  simp only [solve, hok, he, hc]

theorem solve_of_probe {v : Float} (hok : s.rejection? x0 y0 h n = none) (he : parse text = .ok e)
    (hv : e.probe = .ok v) :
    s.solve text x0 y0 h n m = (s.integrate text x0 y0 h n m).run e.evaluate := by
  simp only [solve, hok, he, hv]

/-- After a value at the probe point there is the run, which finds fault neither with the parameters
again nor with the text. -/
theorem solve_of_isUsable (hok : s.rejection? x0 y0 h n = none) (hu : isUsable text = true) :
    ∃ e, parse text = .ok e ∧
      s.solve text x0 y0 h n m = (s.integrate text x0 y0 h n m).run e.evaluate ∧
      (∀ r, s.solve text x0 y0 h n m ≠ .error (.rejected r)) ∧
      ∀ k err, s.solve text x0 y0 h n m ≠ .error (.evaluationFailed k (.parse err)) := by
  obtain ⟨e, v, he, hv⟩ := Expression.isUsable_eq_true_iff.mp hu
  have hrun := solve_of_probe (m := m) hok he hv
  refine ⟨e, he, hrun, fun r hr => ?_, fun k err herr => ?_⟩
  · cases hok.symm.trans (rejection?_of_integrate (hrun.symm.trans hr))
  · have hcause : Expression.EvalError.OfValues (.parse err) :=
      cause_of_integrate (fun x y c => Expression.ofValues_of_parse he)
        (fun operation => .inr ⟨operation, rfl⟩)
        (hrun.symm.trans herr)
    obtain hc | ⟨operation, hc⟩ := hcause
    · cases hc
    · cases hc

/-- Without a value at the probe point the expression is rejected, or the reading of the text has
failed. -/
theorem solve_of_not_isUsable (hok : s.rejection? x0 y0 h n = none) (hu : isUsable text = false) :
    (∃ r, s.solve text x0 y0 h n m = .error (.rejected r) ∧ r.field = .expression) ∨
      ∃ err, s.solve text x0 y0 h n m = .error (.evaluationFailed 0 (.parse err)) := by
  obtain ⟨err, he⟩ | ⟨e, c, he, hc⟩ := Expression.isUsable_eq_false_iff.mp hu
  · exact .inr ⟨err, solve_of_parse_error hok he⟩
  · exact .inl ⟨_, solve_of_probe_error hok he hc, rfl⟩

/-- With parameters that pass, a text is usable unless the solver rejects the expression or fails to
read it, and a usable text leads to the run of its expression. With others, the first check that is
violated decides, in the order of the start, the start value, the number of steps and their size,
whatever the text is. -/
theorem solve_agrees_with_usability (s : Solver) (x0 y0 h : Float) (n : UInt64) :
    (s.rejection? x0 y0 h n = none ↔ ∀ check ∈ s.parameterChecks x0 y0 h n, check.1 = true) ∧
    (s.parameterChecks x0 y0 h n).map (fun check => check.2.field) =
      [.x0, .y0, .numSteps, .stepSize, .stepSize] ∧
    (s.rejection? x0 y0 h n = none → ∀ text m,
      (isUsable text = false ↔
        (∃ r, s.solve text x0 y0 h n m = .error (.rejected r) ∧ r.field = .expression) ∨
          ∃ err, s.solve text x0 y0 h n m = .error (.evaluationFailed 0 (.parse err))) ∧
      (isUsable text = true → ∃ e, parse text = .ok e ∧
        s.solve text x0 y0 h n m = (s.integrate text x0 y0 h n m).run e.evaluate ∧
        (∀ r, s.solve text x0 y0 h n m ≠ .error (.rejected r)) ∧
        ∀ k err, s.solve text x0 y0 h n m ≠ .error (.evaluationFailed k (.parse err)))) ∧
    ∀ check, (s.parameterChecks x0 y0 h n).find? (fun check => !check.1) = some check → ∀ text m,
      s.solve text x0 y0 h n m = .error (.rejected check.2) := by
  refine ⟨?_, rfl,
    fun hok text m => ⟨⟨solve_of_not_isUsable hok, fun hfail => ?_⟩, solve_of_isUsable hok⟩, ?_⟩
  · simp [rejection?_eq_find?]
  · by_contra hu
    obtain ⟨e, -, -, hr, hp⟩ := solve_of_isUsable (m := m) hok (eq_true_of_ne_false hu)
    obtain ⟨r, hfail, -⟩ | ⟨err, hfail⟩ := hfail
    · exact hr r hfail
    · exact hp 0 err hfail
  · intro check hfirst text m
    exact solve_of_rejection? (by rw [rejection?_eq_find?, hfirst]; rfl)

/-- A text with a pole at the probe point, a usable one whose run meets a pole later, and a start
that is not finite beside too many steps. -/
theorem solve_agrees_near_poles :
    isUsable "1/(x - 1)" = false ∧
    (∃ e, parse "1/(x - 2)" = .ok e ∧
      standard.solve "1/(x - 2)" 0.0 0.0 1.0 4 .euler =
        (standard.integrate "1/(x - 2)" 0.0 0.0 1.0 4 .euler).run e.evaluate) ∧
    ∀ text m, standard.solve text (0.0 / 0.0) 1.0 0.1 1000000 m =
      .error (.rejected .startNotFinite) := by
  have hok : standard.rejection? 0.0 0.0 1.0 4 = none := by decide +kernel
  have hpole : standard.solve "1/(x - 1)" 0.0 0.0 1.0 4 .heun =
      .error (.rejected (.failsAtProbe .divisionByZero)) := by
    decide +kernel
  have hagree := (solve_agrees_with_usability standard 0.0 0.0 1.0 4).2.2.1 hok
  refine ⟨(hagree _ .heun).1.mpr (.inl ⟨_, hpole, rfl⟩), ?_, ?_⟩
  · obtain ⟨e, he, hrun, -⟩ :=
      (hagree _ .euler).2 (show isUsable "1/(x - 2)" = true by decide +kernel)
    exact ⟨e, he, hrun⟩
  · exact (solve_agrees_with_usability standard (0.0 / 0.0) 1.0 0.1 1000000).2.2.2
      (false, .startNotFinite)
      (by decide +kernel)

end Solver

end InitialValue
