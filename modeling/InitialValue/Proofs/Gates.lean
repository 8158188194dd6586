import InitialValue.Proofs.Plan

/-! Limits as gates. Limits decide whether steps are taken and nothing else: where narrower
limits find nothing wrong with number and size of the steps, wider ones let the same run
take place, with the same outcome. This needs every check to be monotone in the limits,
and the checks in between not to depend on them. -/

namespace InitialValue

open Sampling (Slope)

variable {l l' : Limits} {s s' : Solver} {spec : StepSpec} {x0 y0 xn h : Float} {n : UInt64}
  {m : Method} {expression : String} {f : Slope Float} {r : Rejection} {α β : Type}

/-- The limits allow no more steps than `l'` and no size outside the range of `l'`. -/
structure Limits.Within (l l' : Limits) : Prop where
  maxSteps : l.maxSteps ≤ l'.maxSteps
  minStepSize : l'.minStepSize ≤ l.minStepSize
  maxStepSize : l.maxStepSize ≤ l'.maxStepSize

/-- The outcome is a rejection of the number of steps or of their size. -/
def RejectsSteps (o : Except SolveError α) : Prop :=
  ∃ r, o = .error (.rejected r) ∧ (r.field = .numSteps ∨ r.field = .stepSize)

theorem rejectsSteps_error_iff :
    RejectsSteps (.error (.rejected r) : Except SolveError α) ↔
      r.field = .numSteps ∨ r.field = .stepSize := by
  constructor
  · rintro ⟨r', hr, hfield⟩
    cases hr
    exact hfield
  · exact fun hfield => ⟨r, rfl, hfield⟩

/-- Computations that agree unless the first rejects the steps are followed by others that do so. -/
theorem rejectsSteps_bind_or {o o' : Except SolveError α} {g g' : α → Except SolveError β}
    (ho : RejectsSteps o ∨ o' = o) (hg : ∀ a, RejectsSteps (g a) ∨ g' a = g a) :
    RejectsSteps (o >>= g) ∨ o' >>= g' = o >>= g := by
  obtain ⟨r, rfl, hfield⟩ | rfl := ho
  · exact .inl ⟨r, rfl, hfield⟩
  · cases o' with
    | error e => exact .inr rfl
    | ok a => exact hg a

/-! ### Plans -/

theorem Limits.Within.allowsStepSize (hw : l.Within l') (ha : l.allowsStepSize h = true) :
    l'.allowsStepSize h = true := by
  obtain ⟨hfin, hleast, hmost⟩ := allowsStepSize_iff.mp ha
  exact allowsStepSize_iff.mpr ⟨hfin, Binary64.le_trans hw.minStepSize hleast,
    Binary64.le_trans hmost hw.maxStepSize⟩

/-- The most steps are compared as values, which keep their order. -/
theorem Solver.toFloat_maxSteps_le (hw : s.limits.Within s'.limits) :
    s.limits.maxSteps.toFloat ≤ s'.limits.maxSteps.toFloat := by
  rw [Binary64.le_iff (Binary64.rounds_toFloat _).isNaN (Binary64.rounds_toFloat _).isNaN,
    Binary64.value_toFloat s.toNat_maxSteps_lt.le, Binary64.value_toFloat s'.toNat_maxSteps_lt.le]
  exact_mod_cast UInt64.le_iff_toNat_le.mp hw.maxSteps

namespace Plan

theorem ofCount_within (hw : s.limits.Within s'.limits) :
    RejectsSteps (ofCount x0 xn n s.limits) ∨
      ofCount x0 xn n s'.limits = ofCount x0 xn n s.limits := by
  cases hp : ofCount x0 xn n s.limits with
  | ok p =>
    obtain ⟨h0, hn, ha, rfl⟩ := ofCount_eq_ok_iff.mp hp
    exact .inr
      (ofCount_eq_ok_iff.mpr ⟨h0, UInt64.le_trans hn hw.maxSteps, hw.allowsStepSize ha, rfl⟩)
  | error e =>
    left
    simp only [ofCount] at hp
    split_ifs at hp <;> cases hp <;> simp [rejectsSteps_error_iff, Rejection.field]

/-- The direction of the interval is looked at in between the two gates, and does not depend on
them. -/
theorem ofSize_within (hw : s.limits.Within s'.limits) :
    RejectsSteps (ofSize x0 xn h s.limits) ∨
      ofSize x0 xn h s'.limits = ofSize x0 xn h s.limits := by
  by_cases ha : s.limits.allowsStepSize h = true
  · simp only [ofSize, ha, hw.allowsStepSize ha, Bool.not_true, Bool.false_eq_true, if_false]
    generalize Binary64.floor ((xn - x0) / h) = steps
    by_cases hend : (!steps.isFinite || steps < 0.0) = true
    · simp only [hend, if_true, or_true]
    · simp only [hend]
      by_cases hmost : s.limits.maxSteps.toFloat < steps
      · simp [hmost, rejectsSteps_error_iff, Rejection.field]
      · have hmost' := mt (Binary64.lt_of_le_of_lt (Solver.toFloat_maxSteps_le hw)) hmost
        simp [hmost, hmost']
  · simp [ofSize, ha, rejectsSteps_error_iff, Rejection.field]

theorem resolve_within (hw : s.limits.Within s'.limits) :
    RejectsSteps (resolve x0 xn spec s.limits) ∨
      resolve x0 xn spec s'.limits = resolve x0 xn spec s.limits := by
  unfold resolve
  split_ifs
  · exact .inr rfl
  · exact .inr rfl
  · cases spec with
    | count n => exact ofCount_within hw
    | size h => exact ofSize_within hw

end Plan

/-! ### Runs -/

namespace Solver

theorem rejection?_within (hw : s.limits.Within s'.limits) (x0 y0 h : Float) (n : UInt64) :
    (∃ r, s.rejection? x0 y0 h n = some r ∧ (r.field = .numSteps ∨ r.field = .stepSize)) ∨
      s'.rejection? x0 y0 h n = s.rejection? x0 y0 h n := by
  cases hr : s.rejection? x0 y0 h n with
  | none =>
    obtain ⟨hx, hy, hn, hh, ha⟩ := rejection?_eq_none_iff.mp hr
    exact .inr (rejection?_eq_none_iff.mpr
      ⟨hx, hy, UInt64.le_trans hn hw.maxSteps, hh, hw.allowsStepSize ha⟩)
  | some r =>
    unfold rejection? at hr
    split_ifs at hr with hx hy <;> cases hr
    · exact .inr (if_pos hx)
    · exact .inr ((if_neg hx).trans (if_pos hy))
    all_goals exact .inl ⟨_, rfl, by simp [Rejection.field]⟩

theorem integrate_within (hw : s.limits.Within s'.limits) :
    RejectsSteps ((s.integrate expression x0 y0 h n m).run f) ∨
      (s'.integrate expression x0 y0 h n m).run f = (s.integrate expression x0 y0 h n m).run f := by
  simp only [run_integrate]
  obtain ⟨r, hr, hfield⟩ | heq := rejection?_within hw x0 y0 h n
  · rw [hr]
    exact .inl ⟨r, rfl, hfield⟩
  · rw [heq]
    exact .inr rfl

theorem solve_within (hw : s.limits.Within s'.limits) :
    RejectsSteps (s.solve expression x0 y0 h n m) ∨
      s'.solve expression x0 y0 h n m = s.solve expression x0 y0 h n m := by
  obtain ⟨r, hr, hfield⟩ | heq := rejection?_within hw x0 y0 h n
  · simp only [solve, hr]
    exact .inl ⟨r, rfl, hfield⟩
  · simp only [solve, heq]
    cases s.rejection? x0 y0 h n with
    | some r => exact .inr rfl
    | none =>
      cases Expression.parse expression with
      | error e => exact .inr rfl
      | ok g =>
        dsimp only
        cases g.probe with
        | error c => exact .inr rfl
        | ok v => exact integrate_within hw

theorem solveInterval_within (hw : s.limits.Within s'.limits) :
    RejectsSteps (s.solveInterval expression x0 y0 xn spec m) ∨
      s'.solveInterval expression x0 y0 xn spec m = s.solveInterval expression x0 y0 xn spec m :=
  rejectsSteps_bind_or (Plan.resolve_within hw) fun _ => solve_within hw

theorem solveRequest_within (hw : s.limits.Within s'.limits) (q : Request) :
    RejectsSteps (s.solveRequest q) ∨ s'.solveRequest q = s.solveRequest q :=
  rejectsSteps_bind_or (.inr rfl) fun _ => solveInterval_within hw

/-- Under wider limits everything ends as it did, unless the number of steps or their size was
rejected. -/
theorem outcome_of_wider_limits (hw : s.limits.Within s'.limits) :
    (∀ expression x0 y0 h n m f, ¬ RejectsSteps ((s.integrate expression x0 y0 h n m).run f) →
      (s'.integrate expression x0 y0 h n m).run f = (s.integrate expression x0 y0 h n m).run f) ∧
    (∀ expression x0 y0 h n m, ¬ RejectsSteps (s.solve expression x0 y0 h n m) →
      s'.solve expression x0 y0 h n m = s.solve expression x0 y0 h n m) ∧
    (∀ expression x0 y0 xn spec m, ¬ RejectsSteps (s.solveInterval expression x0 y0 xn spec m) →
      s'.solveInterval expression x0 y0 xn spec m = s.solveInterval expression x0 y0 xn spec m) ∧
    ∀ q, ¬ RejectsSteps (s.solveRequest q) → s'.solveRequest q = s.solveRequest q :=
  ⟨fun _ _ _ _ _ _ _ => (integrate_within hw).resolve_left,
    fun _ _ _ _ _ _ => (solve_within hw).resolve_left,
    fun _ _ _ _ _ _ => (solveInterval_within hw).resolve_left,
    fun q => (solveRequest_within hw q).resolve_left⟩

/-- Five steps of at least a tenth, or ten thousand steps: the pole at a half is met at the same
step. -/
theorem outcome_of_five_steps :
    let s : Solver := ⟨⟨5, 0.1, 1.0⟩, by decide +kernel⟩
    let q : Request := ⟨"1/(1 - 2*x)", 0.0, 1.0, 2.0, some 4, none, .euler⟩
    s.limits.Within standard.limits ∧
      s.solveRequest q = .error (.evaluationFailed 1 .divisionByZero) ∧
      standard.solveRequest q = .error (.evaluationFailed 1 .divisionByZero) := by
  intro s q
  have hw : s.limits.Within standard.limits :=
    ⟨by decide +kernel, by decide +kernel, by decide +kernel⟩
  have hq : s.solveRequest q = .error (.evaluationFailed 1 .divisionByZero) := by decide +kernel
  have hkeep : ¬ RejectsSteps (s.solveRequest q) := by
    rintro ⟨r, hr, -⟩
    rw [hq] at hr
    cases hr
  exact ⟨hw, hq, ((outcome_of_wider_limits hw).2.2.2 q hkeep).trans hq⟩

end Solver

end InitialValue
