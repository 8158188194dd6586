import InitialValue.Proofs.Binary64.Monotone
import InitialValue.Proofs.Grid

/-! Comparing solutions of one problem. Two methods solve a draft on the same plan, so
that their solutions have their rows at the same `x`, and a value is never further from
itself than the tolerance. So a comparison fails only where one of the two names or one
of the two solutions does. -/

namespace InitialValue

open Binary64 (value)
open Sampling (Slope)

namespace Comparison

/-! ### Rows on one grid -/

variable {xa xb : Float}

/-- How far two `x` may be apart. -/
def allowance (xa xb : Float) : Float :=
  tolerance * Binary64.larger (Binary64.larger xa.abs xb.abs) 1.0

/-- Two `x` lie as near one another as they have to: by a billionth of the larger magnitude, or of
one. -/
def Near (xa xb : Float) : Prop :=
  (xa - xb).abs ≤ 1e-9 * Binary64.larger (Binary64.larger xa.abs xb.abs) 1.0

theorem near_iff : Near xa xb ↔ (xa - xb).abs ≤ allowance xa xb := Iff.rfl

theorem exists_allowance (ha : xa.isFinite = true) (hb : xb.isFinite = true) :
    ∃ scale : Float, scale.isFinite = true ∧ value scale = max (max |value xa| |value xb|) 1 ∧
      allowance xa xb = tolerance * scale := by
  have hab : (Binary64.larger xa.abs xb.abs).isFinite = true := by
    rcases Binary64.larger_eq xa.abs xb.abs with h | h
    · rw [h, Binary64.isFinite_abs, ha]
    · rw [h, Binary64.isFinite_abs, hb]
  refine ⟨Binary64.larger (Binary64.larger xa.abs xb.abs) 1.0, ?_, ?_, rfl⟩
  · rcases Binary64.larger_eq (Binary64.larger xa.abs xb.abs) 1.0 with h | h
    · rw [h, hab]
    · rw [h]
      rfl
  · rw [Binary64.value_larger (Binary64.isNaN_eq_false hab) rfl, Binary64.value_larger
      (Binary64.isNaN_eq_false ((Binary64.isFinite_abs _).trans ha))
      (Binary64.isNaN_eq_false ((Binary64.isFinite_abs _).trans hb)), Binary64.value_abs,
      Binary64.value_abs, Binary64.value_one]

theorem isNaN_allowance (ha : xa.isFinite = true) (hb : xb.isFinite = true) :
    (allowance xa xb).isNaN = false := by
  obtain ⟨scale, hscale, -, h⟩ := exists_allowance ha hb
  rw [h]
  exact (Binary64.rounds_mul (a := tolerance) rfl hscale).isNaN

/-- The distance may be infinite, but it is a number. -/
theorem isNaN_abs_sub (ha : xa.isFinite = true) (hb : xb.isFinite = true) :
    (xa - xb).abs.isNaN = false :=
  (Binary64.isNaN_abs _).trans (Binary64.rounds_sub ha hb).isNaN

theorem sameX_eq_true_iff (ha : xa.isFinite = true) (hb : xb.isFinite = true) :
    sameX xa xb = true ↔ Near xa xb := by
  have hsame : sameX xa xb = true ↔ ¬ allowance xa xb < (xa - xb).abs := by
    change (!decide (allowance xa xb < (xa - xb).abs)) = true ↔ _
    rw [Bool.not_eq_true', decide_eq_false_iff_not]
  rw [hsame, near_iff, Binary64.lt_iff (isNaN_allowance ha hb) (isNaN_abs_sub ha hb),
    Binary64.le_iff (isNaN_abs_sub ha hb) (isNaN_allowance ha hb), not_lt]

theorem value_tolerance_nonneg : 0 ≤ value tolerance :=
  (Binary64.le_iff (a := 0.0) rfl rfl).mp (by decide)

/-- Nothing is further from itself than it may be. -/
theorem Near.refl {x : Float} (hx : x.isFinite = true) : Near x x := by
  obtain ⟨scale, hscale, hvalue, h⟩ := exists_allowance hx hx
  have hallowed : 0 ≤ value (allowance x x) := by
    rw [h]
    exact (Binary64.rounds_mul rfl hscale).ge_of_ge 0.0
      (mul_nonneg value_tolerance_nonneg (hvalue ▸ by positivity))
  have hdiff : value (x - x) = 0 :=
    ((Binary64.rounds_sub hx hx).value_eq (a := 0.0) (sub_self _).symm).trans (sub_self _)
  rw [near_iff, Binary64.le_iff (isNaN_abs_sub hx hx) (isNaN_allowance hx hx), Binary64.value_abs,
    hdiff, abs_zero]
  exact hallowed

theorem value_allowance_comm (ha : xa.isFinite = true) (hb : xb.isFinite = true) :
    value (allowance xa xb) = value (allowance xb xa) := by
  obtain ⟨s, hs, hvalue, h⟩ := exists_allowance ha hb
  obtain ⟨s', hs', hvalue', h'⟩ := exists_allowance hb ha
  have heq : value s = value s' := by rw [hvalue, hvalue', max_comm |value xa|]
  rw [h, h']
  exact le_antisymm (Binary64.value_mul_le_mul rfl value_tolerance_nonneg hs hs' heq.le)
    (Binary64.value_mul_le_mul rfl value_tolerance_nonneg hs' hs heq.ge)

theorem Near.symm (ha : xa.isFinite = true) (hb : xb.isFinite = true) (h : Near xa xb) :
    Near xb xa := by
  rw [near_iff, Binary64.le_iff (isNaN_abs_sub ha hb) (isNaN_allowance ha hb)] at h
  rw [near_iff, Binary64.le_iff (isNaN_abs_sub hb ha) (isNaN_allowance hb ha),
    Binary64.abs_sub_comm, ← value_allowance_comm ha hb]
  exact h

theorem sameX_self {x : Float} (hx : x.isFinite = true) : sameX x x = true :=
  (sameX_eq_true_iff hx hx).mpr (Near.refl hx)

end Comparison

/-- Trajectories on one grid of finite `x` can be compared. -/
theorem Trajectory.exists_compare {a b : Trajectory} (hxs : a.xs = b.xs)
    (hfin : ∀ x ∈ a.xs, x.isFinite = true) : ∃ c, a.compare b = .ok c := by
  have hlen : a.rows.length = b.rows.length := by simpa [xs] using congrArg List.length hxs
  have hfind : (a.rows.zip b.rows).find? (fun p => !Comparison.sameX p.1.x p.2.x) = none := by
    rw [List.find?_eq_none]
    intro p hp
    obtain ⟨i, hi, rfl⟩ := List.mem_iff_getElem.mp hp
    rw [List.getElem_zip]
    rw [List.length_zip, hlen, min_self] at hi
    have hx : a.xs[i]? = b.xs[i]? := by rw [hxs]
    simp only [xs, List.getElem?_map, List.getElem?_eq_getElem (hlen ▸ hi),
      List.getElem?_eq_getElem hi, Option.map_some, Option.some.injEq] at hx
    simp only [← hx, Comparison.sameX_self (hfin _ (List.mem_map_of_mem (List.getElem_mem _))),
      Bool.not_true, Bool.false_eq_true, not_false_eq_true]
  unfold compare
  rw [if_neg (not_not.mpr hlen)]
  simp only [hfind]
  exact ⟨_, rfl⟩

/-! ### One plan for all methods -/

namespace Draft

variable {d : Draft} {a b : Method} {t u : Trajectory}

/-- The request differs from another one of the draft in the method only. -/
theorem toRequest_some : d.toRequest (some a) = d.wholeSteps.map fun numSteps =>
    ⟨d.function, d.x0, d.y0, d.xn, numSteps, d.stepSize, a⟩ := by
  cases hn : d.wholeSteps <;> simp [toRequest, chosenMethod, hn]

/-- The method does not enter the plan. -/
theorem exists_plan (ht : d.solve (some a) = .ok t) (hu : d.solve (some b) = .ok u) :
    ∃ (s : Solver) (plan : Plan), s.solve d.function d.x0 d.y0 plan.h plan.numSteps a = .ok t ∧
      s.solve d.function d.x0 d.y0 plan.h plan.numSteps b = .ok u := by
  obtain ⟨r, s, hr, hs, ht⟩ := solveRequest_of_solve ht
  obtain ⟨r', s', hr', hs', hu⟩ := solveRequest_of_solve hu
  cases hs.symm.trans hs'
  rw [toRequest_some] at hr hr'
  obtain ⟨numSteps, hn, rfl⟩ := map_eq_ok_iff.mp hr
  obtain ⟨_, hn', rfl⟩ := map_eq_ok_iff.mp hr'
  cases hn.symm.trans hn'
  obtain ⟨spec, hspec, ht⟩ := Solver.solveInterval_of_solveRequest ht
  obtain ⟨_, hspec', hu⟩ := Solver.solveInterval_of_solveRequest hu
  cases hspec.symm.trans hspec'
  obtain ⟨plan, hplan, ht⟩ := Solver.solve_of_solveInterval ht
  obtain ⟨_, hplan', hu⟩ := Solver.solve_of_solveInterval hu
  cases hplan.symm.trans hplan'
  exact ⟨s, plan, ht, hu⟩

theorem compare_solutions (ht : d.solve (some a) = .ok t) (hu : d.solve (some b) = .ok u) :
    ∃ c, t.compare u = .ok c := by
  obtain ⟨s, plan, ht, hu⟩ := exists_plan ht hu
  obtain ⟨e, -, hrun⟩ := Solver.run_of_solve ht
  obtain ⟨e', -, hrun'⟩ := Solver.run_of_solve hu
  refine Trajectory.exists_compare ?_ (List.forall_mem_map.mpr fun r hr =>
    ((Solver.points_of_solve ht).2 r hr).1)
  rw [Solver.xs_of_integrate hrun, Solver.xs_of_integrate hrun']

/-- A draft that is not solved fails before anything is compared. -/
theorem solve_ne_comparison {override : Option Method} (fault : ComparisonFault) :
    d.solve override ≠ .error (.comparison fault) := by
  intro h
  simpa using solve_eq_error h

end Draft

/-- Solutions with the same start, step size and number of steps lie on one grid, whatever their
method, their slopes and the value that they start from. So two methods can be compared on a draft
exactly when both of their names are known and both solve it. -/
theorem grid_independent_of_method :
    (∀ (s s' : Solver) (f f' : Slope Float) (m m' : Method) (expression expression' : String)
      (x0 y0 y0' h : Float) (n : UInt64) (t t' : Trajectory),
      (s.integrate expression x0 y0 h n m).run f = .ok t →
      (s'.integrate expression' x0 y0' h n m').run f' = .ok t' → t.xs = t'.xs) ∧
    ∀ (d : Draft) (a b : String),
      ((∃ c, d.compare a b = .ok c) ↔
        ∃ m m' t t', Method.ofName a = .ok m ∧ Method.ofName b = .ok m' ∧
        d.solve (some m) = .ok t ∧ d.solve (some m') = .ok t') ∧
      ∀ fault, d.compare a b ≠ .error (.comparison fault) := by
  refine ⟨fun s s' f f' m m' _ _ x0 y0 y0' h n t t' ht ht' => ?_, fun d a b => ?_⟩
  · rw [Solver.xs_of_integrate ht, Solver.xs_of_integrate ht']
  constructor
  · constructor
    · rintro ⟨c, hc⟩
      obtain ⟨m, hm, hc⟩ := bind_eq_ok_iff.mp hc
      obtain ⟨m', hm', hc⟩ := bind_eq_ok_iff.mp hc
      obtain ⟨t, ht, hc⟩ := bind_eq_ok_iff.mp hc
      obtain ⟨t', ht', -⟩ := bind_eq_ok_iff.mp hc
      exact ⟨m, m', t, t', mapError_eq_ok_iff.mp hm, mapError_eq_ok_iff.mp hm', ht, ht'⟩
    · rintro ⟨m, m', t, t', hm, hm', ht, ht'⟩
      obtain ⟨c, hc⟩ := Draft.compare_solutions ht ht'
      exact ⟨c, by simp [Draft.compare, hm, hm', ht, ht', hc]⟩
  · intro fault h
    obtain h | ⟨m, -, h⟩ := bind_eq_error_iff.mp h
    · simp [mapError_eq_error_iff] at h
    obtain h | ⟨m', -, h⟩ := bind_eq_error_iff.mp h
    · simp [mapError_eq_error_iff] at h
    obtain h | ⟨t, ht, h⟩ := bind_eq_error_iff.mp h
    · exact Draft.solve_ne_comparison fault h
    obtain h | ⟨t', ht', h⟩ := bind_eq_error_iff.mp h
    · exact Draft.solve_ne_comparison fault h
    · obtain ⟨c, hc⟩ := Draft.compare_solutions ht ht'
      simp [hc] at h

/-- Euler's method and the classic one are compared on a draft that names neither. -/
theorem compare_on_growth :
    let d : Draft := ⟨"y", 0.0, 1.0, 1.0, some 4.0, none, none, none⟩
    (∃ c, d.compare "Euler" "runge-kutta" = .ok c) ∧
      ∃ t t', (Solver.standard.integrate "y" 0.0 1.0 0.25 4 .euler).run (fun _ y => .ok y) = .ok t ∧
        (Solver.standard.integrate "-x" 0.0 2.0 0.25 4 .heun).run (fun x _ => .ok (-x)) = .ok t' ∧
        t.xs = t'.xs := by
  intro d
  constructor
  · obtain ⟨t, ht⟩ := exists_eq_ok_of_isOk
      (show (d.solve (some .euler)).isOk = true by decide +kernel)
    obtain ⟨t', ht'⟩ := exists_eq_ok_of_isOk
      (show (d.solve (some .rungeKutta)).isOk = true by decide +kernel)
    exact (grid_independent_of_method.2 d "Euler" "runge-kutta").1.mpr
      ⟨.euler, .rungeKutta, t, t', by decide +kernel, by decide +kernel, ht, ht'⟩
  · obtain ⟨t, ht⟩ := exists_eq_ok_of_isOk
      (show ((Solver.standard.integrate "y" 0.0 1.0 0.25 4 .euler).run
      fun _ y => .ok y).isOk = true by decide +kernel)
    obtain ⟨t', ht'⟩ := exists_eq_ok_of_isOk
      (show ((Solver.standard.integrate "-x" 0.0 2.0 0.25 4 .heun).run
      fun x _ => .ok (-x)).isOk = true by decide +kernel)
    exact ⟨t, t', ht, ht', grid_independent_of_method.1 _ _ _ _ _ _ _ _ _ _ _ _ _ _ _ ht ht'⟩

end InitialValue
