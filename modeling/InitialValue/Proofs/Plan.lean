import InitialValue.Proofs.Binary64.Order
import InitialValue.Proofs.Binary64.Whole
import InitialValue.Proofs.Finiteness

/-! Plans against the checks that follow them. A plan is made from the interval, and where
the size is given its number of steps is compared as a value before it is turned into a
count; the solver then checks count and size again in its own way. The two agree: the
limits are small enough for every count within them to be exact, and a positive least
size keeps zero out. So a plan that is made is carried out, unless the start value or
the expression stands in the way, and there are never too many rows to count. -/

namespace InitialValue

open Sampling (Slope)

variable {s : Solver} {l : Limits} {spec : StepSpec} {p : Plan} {x0 y0 xn h : Float} {n : UInt64}
  {m : Method} {expression : String} {f : Slope Float} {r : Rejection} {e : SolveError}

/-! ### What a plan is -/

namespace Plan

theorem ofCount_eq_ok_iff : ofCount x0 xn n l = .ok p ↔
    n ≠ 0 ∧ n ≤ l.maxSteps ∧ l.allowsStepSize ((xn - x0) / n.toFloat) = true ∧
      p = ⟨(xn - x0) / n.toFloat, n⟩ := by
  simp only [ofCount, ite_error_eq_ok_iff, UInt64.not_lt]
  split_ifs with h <;> simp [h, eq_comm (b := p)]

theorem ofSize_eq_ok_iff :
    ofSize x0 xn h l = .ok p ↔
      l.allowsStepSize h = true ∧ (Binary64.floor ((xn - x0) / h)).isFinite = true ∧
        ¬ Binary64.floor ((xn - x0) / h) < 0.0 ∧
          ¬ l.maxSteps.toFloat < Binary64.floor ((xn - x0) / h) ∧
        p = ⟨h, (Binary64.floor ((xn - x0) / h)).toUInt64⟩ := by
  simp [ofSize, ite_error_eq_ok_iff, and_assoc, eq_comm (b := p)]

theorem resolve_eq_ok_iff : resolve x0 xn spec l = .ok p ↔
    x0.isFinite = true ∧ xn.isFinite = true ∧
      ((∃ n, spec = .count n ∧ ofCount x0 xn n l = .ok p) ∨
        ∃ h, spec = .size h ∧ ofSize x0 xn h l = .ok p) := by
  cases spec <;> simp [resolve, ite_error_eq_ok_iff]

theorem allowsStepSize_of_resolve (hp : resolve x0 xn spec l = .ok p) :
    l.allowsStepSize p.h = true := by
  obtain ⟨-, -, ⟨n, -, hc⟩ | ⟨h, -, hs⟩⟩ := resolve_eq_ok_iff.mp hp
  · obtain ⟨-, -, ha, rfl⟩ := ofCount_eq_ok_iff.mp hc
    exact ha
  · obtain ⟨ha, -, -, -, rfl⟩ := ofSize_eq_ok_iff.mp hs
    exact ha

/-- A plan has the count or the size that it was asked for. -/
theorem serves_of_resolve (hp : resolve x0 xn spec l = .ok p) :
    (∀ n, spec = .count n → p.numSteps = n) ∧ ∀ h, spec = .size h → p.h = h := by
  obtain ⟨-, -, ⟨n, rfl, hc⟩ | ⟨h, rfl, hs⟩⟩ := resolve_eq_ok_iff.mp hp
  · obtain ⟨-, -, -, rfl⟩ := ofCount_eq_ok_iff.mp hc
    simp
  · obtain ⟨-, -, -, -, rfl⟩ := ofSize_eq_ok_iff.mp hs
    simp

end Plan

/-! ### The checks that follow -/

namespace Solver

theorem toNat_maxSteps_le (s : Solver) : s.limits.maxSteps.toNat ≤ 1000000 :=
  toNat_le_of_le_maxSteps (UInt64.le_refl _)

/-- The most steps are few enough for every count up to there to be a value. -/
theorem toNat_maxSteps_lt (s : Solver) : s.limits.maxSteps.toNat < 2 ^ 53 :=
  s.toNat_maxSteps_le.trans_lt (by norm_num)

/-- The count of a plan keeps within the limits, although it is its value that is compared with
them. -/
theorem numSteps_le_of_resolve (hp : Plan.resolve x0 xn spec s.limits = .ok p) :
    p.numSteps ≤ s.limits.maxSteps := by
  obtain ⟨-, -, ⟨n, -, hc⟩ | ⟨h, -, hs⟩⟩ := Plan.resolve_eq_ok_iff.mp hp
  · obtain ⟨-, hn, -, rfl⟩ := Plan.ofCount_eq_ok_iff.mp hc
    exact hn
  · obtain ⟨-, hfin, hneg, hmost, rfl⟩ := Plan.ofSize_eq_ok_iff.mp hs
    have hnan := Binary64.isNaN_eq_false hfin
    rw [Binary64.lt_iff hnan (b := 0.0) rfl, Binary64.value_zero, not_lt] at hneg
    rw [Binary64.lt_iff (Binary64.isNaN_eq_false (Binary64.isFinite_toFloat _)) hnan,
      not_lt] at hmost
    exact Binary64.toUInt64_le_of_le_toFloat hnan hneg s.toNat_maxSteps_lt.le hmost

/-- A size within usable limits is not zero. -/
theorem beq_zero_of_allowsStepSize (ha : s.limits.allowsStepSize h = true) :
    (h == 0.0) = false := by
  obtain ⟨hfin, hleast, -⟩ := Limits.allowsStepSize_iff.mp ha
  obtain ⟨-, -, ⟨hmin, hpos⟩, -⟩ := Limits.fault?_eq_none_iff.mp s.usable
  have hpos := (Binary64.lt_iff (a := 0.0) rfl (Binary64.isNaN_eq_false hmin)).mp hpos
  have hle := (Binary64.le_iff_value_le.mp hleast).2.2
  rw [Binary64.value_abs] at hle
  refine Bool.eq_false_iff.mpr fun hzero => ?_
  rw [(Binary64.beq_iff (Binary64.isNaN_eq_false hfin) (b := 0.0) rfl).mp hzero] at hle
  simp only [Binary64.value_zero, abs_zero] at hle hpos
  exact hpos.not_ge hle

/-- The check of the parameters finds nothing in a plan. -/
theorem rejection?_of_resolve (hp : Plan.resolve x0 xn spec s.limits = .ok p)
    (hy : y0.isFinite = true) : s.rejection? x0 y0 p.h p.numSteps = none := by
  have ha := Plan.allowsStepSize_of_resolve hp
  refine rejection?_eq_none_iff.mpr ⟨(Plan.resolve_eq_ok_iff.mp hp).1, hy,
    numSteps_le_of_resolve hp, ?_, ha⟩
  exact ⟨(Limits.allowsStepSize_iff.mp ha).1, beq_zero_of_allowsStepSize ha⟩

/-! ### Where rejections come from -/

/-- Integration rejects nothing but its parameters. -/
theorem rejection?_of_integrate
    (hr : (s.integrate expression x0 y0 h n m).run f = .error (.rejected r)) :
    s.rejection? x0 y0 h n = some r := by
  rw [run_integrate] at hr
  cases hc : s.rejection? x0 y0 h n with
  | some r' =>
    rw [hc] at hr
    cases hr
    rfl
  | none =>
    rw [hc, map_eq_error_iff] at hr
    obtain ⟨j, -, c, he, -⟩ := Integration.record_eq_error hr
    cases he

/-- A solution rejects its parameters, or else the expression. -/
theorem rejection?_of_solve (hr : s.solve expression x0 y0 h n m = .error (.rejected r)) :
    s.rejection? x0 y0 h n = some r ∨ s.rejection? x0 y0 h n = none ∧ r.field = .expression := by
  unfold solve at hr
  split at hr
  · next r' hc =>
    cases hr
    exact .inl hc
  · next hc =>
    split at hr
    · cases hr
    · split at hr
      · cases hr
        exact .inr ⟨hc, rfl⟩
      · exact .inl (rejection?_of_integrate hr)

/-- After a plan, the start value and the expression are all that is rejected. -/
theorem field_of_solveInterval (hp : Plan.resolve x0 xn spec s.limits = .ok p)
    (hr : s.solveInterval expression x0 y0 xn spec m = .error (.rejected r)) :
    r.field = .y0 ∨ r.field = .expression := by
  rw [solveInterval, hp, ok_bind] at hr
  obtain hc | ⟨-, hfield⟩ := rejection?_of_solve hr
  · have hx := (Plan.resolve_eq_ok_iff.mp hp).1
    by_cases hy : y0.isFinite = true
    · rw [rejection?_of_resolve hp hy] at hc
      cases hc
    · simp only [rejection?, hx, hy, Bool.not_true, Bool.not_false, Bool.false_eq_true,
        if_false, if_true, Option.some.injEq] at hc
      exact .inl (hc ▸ rfl)
  · exact .inr hfield

end Solver

/-! ### Rows that cannot be counted -/

theorem Plan.ne_tooManyRows_of_resolve (he : resolve x0 xn spec l = .error e) :
    e ≠ .rejected .tooManyRows := by
  rintro rfl
  cases spec with
  | count n =>
    simp only [resolve, ofCount] at he
    split_ifs at he <;> cases he
  | size h =>
    simp only [resolve, ofSize] at he
    split_ifs at he <;> cases he

namespace Solver

theorem ne_tooManyRows_of_rejection? (hr : s.rejection? x0 y0 h n = some r) : r ≠ .tooManyRows := by
  rintro rfl
  unfold rejection? at hr
  split_ifs at hr <;> cases hr

theorem integrate_ne_tooManyRows :
    (s.integrate expression x0 y0 h n m).run f ≠ .error (.rejected .tooManyRows) := fun hr =>
  ne_tooManyRows_of_rejection? (rejection?_of_integrate hr) rfl

theorem solve_ne_tooManyRows :
    s.solve expression x0 y0 h n m ≠ .error (.rejected .tooManyRows) := by
  intro hr
  obtain hc | ⟨-, hfield⟩ := rejection?_of_solve hr
  · exact ne_tooManyRows_of_rejection? hc rfl
  · cases hfield

theorem solveInterval_ne_tooManyRows :
    s.solveInterval expression x0 y0 xn spec m ≠ .error (.rejected .tooManyRows) := by
  intro hr
  obtain hp | ⟨p, -, hr⟩ := bind_eq_error_iff.mp hr
  · exact Plan.ne_tooManyRows_of_resolve hp rfl
  · exact solve_ne_tooManyRows hr

theorem solveRequest_ne_tooManyRows (s : Solver) (q : Request) :
    s.solveRequest q ≠ .error (.rejected .tooManyRows) := by
  intro hr
  obtain hq | ⟨spec, -, hr⟩ := bind_eq_error_iff.mp hr
  · unfold Request.stepSpec at hq
    split at hq <;> cases hq
  · exact solveInterval_ne_tooManyRows hr

end Solver

/-- The failure of the solver that stands behind one of a draft. -/
def DraftError.source? : DraftError → Option SolveError
  | .limits e | .solve _ e => some e
  | _ => none

namespace Draft

variable {d : Draft} {override : Option Method} {e : DraftError}

theorem source?_ne_of_solve (he : d.solve override = .error e) :
    e.source? ≠ some (.rejected .tooManyRows) := by
  obtain (rfl | ⟨u, rfl⟩ | ⟨n, rfl⟩) | ⟨fault, rfl⟩ | ⟨s, q, c, hc, rfl⟩ := solve_eq_error he
  · exact nofun
  · exact nofun
  · exact nofun
  · exact nofun
  · exact fun hsome => s.solveRequest_ne_tooManyRows q (Option.some.inj hsome ▸ hc)

theorem source?_ne_of_directionField (he : d.directionField = .error e) :
    e.source? ≠ some (.rejected .tooManyRows) := by
  obtain ht | ⟨t, -, he⟩ := bind_eq_error_iff.mp he
  · exact source?_ne_of_solve ht
  · obtain hf | ⟨f, -, he⟩ := bind_eq_error_iff.mp he
    · obtain ⟨c, -, rfl⟩ := mapError_eq_error_iff.mp hf
      simp [DraftError.source?]
    · obtain ⟨c, -, rfl⟩ := mapError_eq_error_iff.mp he
      simp [DraftError.source?]

theorem source?_ne_of_compare {a b : String} (he : d.compare a b = .error e) :
    e.source? ≠ some (.rejected .tooManyRows) := by
  have hname : ∀ name, (Method.ofName name).mapError .unknownMethod = .error e →
      e.source? ≠ some (.rejected .tooManyRows) := by
    intro name hn
    obtain ⟨u, -, rfl⟩ := mapError_eq_error_iff.mp hn
    simp [DraftError.source?]
  obtain ha | ⟨a, -, he⟩ := bind_eq_error_iff.mp he
  · exact hname _ ha
  obtain hb | ⟨b, -, he⟩ := bind_eq_error_iff.mp he
  · exact hname _ hb
  obtain ht | ⟨first, -, he⟩ := bind_eq_error_iff.mp he
  · exact source?_ne_of_solve ht
  obtain ht | ⟨second, -, he⟩ := bind_eq_error_iff.mp he
  · exact source?_ne_of_solve ht
  obtain ⟨c, -, rfl⟩ := mapError_eq_error_iff.mp he
  simp [DraftError.source?]

end Draft

/-- A plan that is made keeps within the limits of the solver, which no check that follows finds
fault with. So only the start value and the expression are rejected after it, and nothing is ever
rejected for too many rows. -/
theorem plan_is_carried_out :
    (∀ (s : Solver) x0 xn spec p, Plan.resolve x0 xn spec s.limits = .ok p →
      (p.numSteps ≤ s.limits.maxSteps ∧ s.limits.maxSteps.toNat ≤ 1000000) ∧
      (p.h.isFinite = true ∧ (p.h == 0.0) = false ∧ s.limits.minStepSize ≤ p.h.abs ∧
        p.h.abs ≤ s.limits.maxStepSize) ∧
      (∀ n, spec = .count n → p.numSteps = n) ∧ (∀ h, spec = .size h → p.h = h) ∧
      (∀ y0, y0.isFinite = true → s.rejection? x0 y0 p.h p.numSteps = none) ∧
      ∀ expression y0 m r, s.solveInterval expression x0 y0 xn spec m = .error (.rejected r) →
        r.field = .y0 ∨ r.field = .expression) ∧
    (∀ (s : Solver) expression x0 y0 h n m,
      (∀ f, (s.integrate expression x0 y0 h n m).run f ≠ .error (.rejected .tooManyRows)) ∧
      s.solve expression x0 y0 h n m ≠ .error (.rejected .tooManyRows)) ∧
    (∀ (s : Solver) expression x0 y0 xn spec m,
      s.solveInterval expression x0 y0 xn spec m ≠ .error (.rejected .tooManyRows)) ∧
    (∀ (s : Solver) q, s.solveRequest q ≠ .error (.rejected .tooManyRows)) ∧
    ∀ (d : Draft) e, (∃ override, d.solve override = .error e) ∨ d.directionField = .error e ∨
      (∃ a b, d.compare a b = .error e) → e.source? ≠ some (.rejected .tooManyRows) := by
  refine ⟨?_,
    fun s _ _ _ _ _ _ => ⟨fun f => Solver.integrate_ne_tooManyRows, Solver.solve_ne_tooManyRows⟩,
    fun s _ _ _ _ _ _ => Solver.solveInterval_ne_tooManyRows,
    Solver.solveRequest_ne_tooManyRows, ?_⟩
  · intro s x0 xn spec p hp
    have ha := Plan.allowsStepSize_of_resolve hp
    obtain ⟨hfin, hleast, hmost⟩ := Limits.allowsStepSize_iff.mp ha
    obtain ⟨hcount, hsize⟩ := Plan.serves_of_resolve hp
    exact ⟨⟨Solver.numSteps_le_of_resolve hp, s.toNat_maxSteps_le⟩,
      ⟨hfin, Solver.beq_zero_of_allowsStepSize ha, hleast, hmost⟩, hcount, hsize,
      fun y0 hy => Solver.rejection?_of_resolve hp hy,
      fun _ _ _ _ hr => Solver.field_of_solveInterval hp hr⟩
  · rintro d e (⟨override, he⟩ | he | ⟨a, b, he⟩)
    · exact Draft.source?_ne_of_solve he
    · exact Draft.source?_ne_of_directionField he
    · exact Draft.source?_ne_of_compare he

/-- Three steps of -0.3 from one towards zero; a start value that is not finite is what is wrong
then, and a draft that leaves no steps has other failures. -/
theorem plan_of_three_steps_back :
    let s := Solver.standard
    s.rejection? 1.0 2.0 (-0.3) 3 = none ∧
    (∃ r, s.solveInterval "y" 1.0 (1.0 / 0.0) 0.0 (.size (-0.3)) .heun = .error (.rejected r) ∧
      (r.field = .y0 ∨ r.field = .expression)) ∧
    ∃ e, Draft.solve ⟨"y", 0.0, 1.0, 1.0, some 4.0, none, some "euler", some ⟨0, 0.0, 1.0⟩⟩ none =
      .error e ∧ e.source? ≠ some (.rejected .tooManyRows) := by
  intro s
  have hp : Plan.resolve 1.0 0.0 (.size (-0.3)) s.limits = .ok ⟨-0.3, 3⟩ := by decide +kernel
  obtain ⟨-, -, -, -, hcheck, hfield⟩ := plan_is_carried_out.1 s 1.0 0.0 (.size (-0.3)) ⟨-0.3, 3⟩ hp
  have hr : s.solveInterval "y" 1.0 (1.0 / 0.0) 0.0 (.size (-0.3)) .heun =
      .error (.rejected .startValueNotFinite) := by
    decide +kernel
  have he :
      Draft.solve ⟨"y", 0.0, 1.0, 1.0, some 4.0, none, some "euler", some ⟨0, 0.0, 1.0⟩⟩ none =
      .error (.limits (.rejected (.unusableLimits .noSteps))) := by
    decide +kernel
  exact ⟨hcheck 2.0 (by decide +kernel), ⟨_, hr, hfield _ _ _ _ hr⟩, _, he,
    plan_is_carried_out.2.2.2.2 _ _ (.inl ⟨none, he⟩)⟩

end InitialValue
