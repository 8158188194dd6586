import InitialValue.Proofs.Gates

/-! Solutions of drafts under the limits in force. Whatever limits a draft asks for, those
in force are within the standard ones and within each bound that was asked for and is a
number. The number of steps arrives as a value; where a solution is found it was a whole
number, small enough to have been turned into that very count. -/

namespace InitialValue

open Binary64 (value)

variable {l l' : Limits} {s : Solver} {q : Request} {d : Draft} {override : Option Method}
  {spec : StepSpec}
  {n : UInt64} {v : Float} {t : Trajectory}

/-! ### Limits in force -/

namespace Limits

theorem maxSteps_restrictedBy_le : (l.restrictedBy l').maxSteps ≤ l.maxSteps ∧
    (l.restrictedBy l').maxSteps ≤ l'.maxSteps :=
  ⟨Std.min_le_left, Std.min_le_right⟩

/-- Restricted limits are within the limits that were there, when these are numbers. -/
theorem restrictedBy_within (hmin : l.minStepSize.isNaN = false)
    (hmax : l.maxStepSize.isNaN = false) : (l.restrictedBy l').Within l where
  maxSteps := maxSteps_restrictedBy_le.1
  minStepSize := Binary64.le_larger_left hmin
  maxStepSize := Binary64.smaller_le_left hmax

end Limits

namespace Draft

theorem effectiveLimits_within_standard : d.effectiveLimits.Within .standard := by
  have hmin : Limits.standard.minStepSize.isNaN = false := by decide +kernel
  have hmax : Limits.standard.maxStepSize.isNaN = false := by decide +kernel
  unfold effectiveLimits
  split
  · exact Limits.restrictedBy_within hmin hmax
  · exact ⟨UInt64.le_refl _, Binary64.le_refl hmin, Binary64.le_refl hmax⟩

end Draft

/-! ### Solutions of requests -/

theorem Request.stepSpec_eq_ok_iff : q.stepSpec = .ok spec ↔
    (∃ n, q.numSteps = some n ∧ q.stepSize = none ∧ spec = .count n) ∨
      ∃ h, q.numSteps = none ∧ q.stepSize = some h ∧ spec = .size h := by
  unfold stepSpec
  split <;> simp [*, eq_comm (b := spec)]

namespace Solver

theorem parameters_of_solve {expression : String} {x0 y0 h : Float} {m : Method}
    (ht : s.solve expression x0 y0 h n m = .ok t) :
    t.rows.length = n.toNat + 1 ∧ t.h = h ∧ t.numSteps = n := by
  obtain ⟨f, -, hrun⟩ := run_of_solve ht
  obtain ⟨-, rows, hr, rfl⟩ := run_integrate_eq_ok_iff.mp hrun
  exact ⟨(Integration.recorded_of_record hr).length_eq, rfl, rfl⟩

/-- A solution carries out a plan. -/
theorem exists_plan_of_solveRequest (ht : s.solveRequest q = .ok t) : ∃ spec p,
    q.stepSpec = .ok spec ∧ Plan.resolve q.x0 q.xn spec s.limits = .ok p ∧
      t.rows.length = p.numSteps.toNat + 1 ∧ t.h = p.h ∧ t.numSteps = p.numSteps := by
  obtain ⟨spec, hspec, ht⟩ := solveInterval_of_solveRequest ht
  obtain ⟨p, hp, ht⟩ := solve_of_solveInterval ht
  exact ⟨spec, p, hspec, hp, parameters_of_solve ht⟩

/-- A solution keeps within the limits. -/
theorem within_of_solveRequest (ht : s.solveRequest q = .ok t) :
    t.rows.length = t.numSteps.toNat + 1 ∧ t.numSteps ≤ s.limits.maxSteps ∧
      s.limits.allowsStepSize t.h = true := by
  obtain ⟨spec, p, -, hp, hlen, hh, hn⟩ := exists_plan_of_solveRequest ht
  rw [hh, hn]
  exact ⟨hlen, numSteps_le_of_resolve hp, Plan.allowsStepSize_of_resolve hp⟩

theorem numSteps_of_solveRequest (ht : s.solveRequest q = .ok t) (hn : q.numSteps = some n) :
    q.stepSize = none ∧ t.numSteps = n := by
  obtain ⟨spec, p, hspec, hp, -, -, hcount⟩ := exists_plan_of_solveRequest ht
  obtain ⟨k, hk, hsize, rfl⟩ | ⟨h, hnone, -⟩ := Request.stepSpec_eq_ok_iff.mp hspec
  · cases hn.symm.trans hk
    exact ⟨hsize, hcount.trans ((Plan.serves_of_resolve hp).1 n rfl)⟩
  · cases hn.symm.trans hnone

theorem h_of_solveRequest {h : Float} (ht : s.solveRequest q = .ok t) (hh : q.stepSize = some h) :
    t.h = h := by
  obtain ⟨spec, p, hspec, hp, -, hsize, -⟩ := exists_plan_of_solveRequest ht
  obtain ⟨k, -, hnone, -⟩ | ⟨h', -, hh', rfl⟩ := Request.stepSpec_eq_ok_iff.mp hspec
  · cases hh.symm.trans hnone
  · cases hh.symm.trans hh'
    exact hsize.trans ((Plan.serves_of_resolve hp).2 h rfl)

end Solver

/-! ### Solutions of drafts -/

namespace Draft

/-- A number of steps is passed on when it is a natural number. -/
theorem wholeSteps_of_numSteps {k : Option UInt64} (hv : d.numSteps = some v)
    (hk : d.wholeSteps = .ok k) :
    k = some v.toUInt64 ∧ Binary64.isWhole v = true ∧ 0 ≤ value v := by
  simp only [wholeSteps, hv] at hk
  split_ifs at hk with hwhole
  simp only [Bool.and_eq_true, decide_eq_true_eq] at hwhole
  have hnan := Binary64.isNaN_eq_false (Binary64.isFinite_of_isWhole hwhole.1)
  cases hk
  exact ⟨rfl, hwhole.1, (Binary64.le_iff (a := 0.0) rfl hnan).mp hwhole.2⟩

/-- The number of steps that was asked for is the number of steps taken: it is neither cut off nor
rounded. -/
theorem numSteps_of_solve (ht : d.solve override = .ok t) (hv : d.numSteps = some v) :
    v.isFinite = true ∧ value v = t.numSteps.toNat ∧ d.stepSize = none := by
  obtain ⟨q, s, hq, -, ht⟩ := solveRequest_of_solve ht
  obtain ⟨m, k, -, hk, rfl⟩ := toRequest_eq_ok_iff.mp hq
  obtain ⟨rfl, hwhole, h0⟩ := wholeSteps_of_numSteps hv hk
  obtain ⟨hsize, hn⟩ := Solver.numSteps_of_solveRequest ht rfl
  have hmost := Solver.toNat_le_of_le_maxSteps (Solver.within_of_solveRequest ht).2.1
  rw [hn] at hmost ⊢
  exact ⟨Binary64.isFinite_of_isWhole hwhole,
    Binary64.value_eq_toNat_toUInt64 hwhole h0 (by omega), hsize⟩

theorem h_of_solve {h : Float} (ht : d.solve override = .ok t) (hh : d.stepSize = some h) :
    t.h = h := by
  obtain ⟨q, s, hq, -, ht⟩ := solveRequest_of_solve ht
  obtain ⟨m, k, -, -, rfl⟩ := toRequest_eq_ok_iff.mp hq
  exact Solver.h_of_solveRequest ht hh

/-- A solution keeps within the limits in force. -/
theorem within_of_solve (ht : d.solve override = .ok t) :
    t.rows.length = t.numSteps.toNat + 1 ∧ t.numSteps ≤ d.effectiveLimits.maxSteps ∧
      d.effectiveLimits.allowsStepSize t.h = true := by
  obtain ⟨q, s, -, hs, ht⟩ := solveRequest_of_solve ht
  rw [← limits_of_solver hs]
  exact Solver.within_of_solveRequest ht

/-- Limits that a draft asks for hold as far as they are numbers. -/
theorem requested_of_solve (ht : d.solve override = .ok t) (hl : d.limits = some l) :
    t.numSteps ≤ l.maxSteps ∧ (l.minStepSize.isNaN = false → l.minStepSize ≤ t.h.abs) ∧
      (l.maxStepSize.isNaN = false → t.h.abs ≤ l.maxStepSize) := by
  obtain ⟨-, hn, ha⟩ := within_of_solve ht
  rw [Limits.allowsStepSize_iff] at ha
  simp only [effectiveLimits, hl] at hn ha
  obtain ⟨-, hleast, hmost⟩ := ha
  exact ⟨UInt64.le_trans hn Limits.maxSteps_restrictedBy_le.2,
    fun hmin => Binary64.le_trans (Binary64.le_larger_right hmin) hleast,
    fun hmax => Binary64.le_trans hmost (Binary64.smaller_le_right hmax)⟩

/-- Whatever a draft asks for, its solution is within the standard limits and within what it asks
for, and has the number of steps or the step size that it asks for. -/
theorem solution_keeps_limits (ht : d.solve override = .ok t) :
    t.rows.length ≤ 10001 ∧ (t.h.isFinite = true ∧ 1e-8 ≤ t.h.abs ∧ t.h.abs ≤ 10.0) ∧
    (∀ l, d.limits = some l → t.numSteps ≤ l.maxSteps ∧ t.rows.length ≤ l.maxSteps.toNat + 1 ∧
      (l.minStepSize.isNaN = false → l.minStepSize ≤ t.h.abs) ∧
      (l.maxStepSize.isNaN = false → t.h.abs ≤ l.maxStepSize)) ∧
    (∀ v, d.numSteps = some v →
      v.isFinite = true ∧ value v = t.numSteps.toNat ∧ d.stepSize = none) ∧
    ∀ h, d.stepSize = some h → t.h = h := by
  obtain ⟨hlen, hn, ha⟩ := within_of_solve ht
  have hw := effectiveLimits_within_standard (d := d)
  have hmost : t.numSteps.toNat ≤ 10000 :=
    UInt64.le_iff_toNat_le.mp (UInt64.le_trans hn hw.maxSteps)
  have hrange := Limits.allowsStepSize_iff.mp (hw.allowsStepSize ha)
  refine ⟨?_, hrange, fun l hl => ?_, fun v hv => numSteps_of_solve ht hv,
    fun h hh => h_of_solve ht hh⟩
  · omega
  · obtain ⟨hmax, hrange⟩ := requested_of_solve ht hl
    rw [hlen]
    exact ⟨hmax, Nat.succ_le_succ (UInt64.le_iff_toNat_le.mp hmax), hrange⟩

/-- Four steps under limits that leave five, with a least size that is not a number and a greatest
one that is too large. -/
theorem limits_of_four_steps :
    let d : Draft := ⟨"y", 0.0, 1.0, 1.0, some 4.0, none, some "heun", some ⟨5, 0.0 / 0.0, 1e6⟩⟩
    ∃ t, d.solve (some .euler) = .ok t ∧ t.numSteps ≤ 5 ∧ t.h.abs ≤ 10.0 ∧
      value 4.0 = t.numSteps.toNat := by
  intro d
  have hok : (d.solve (some .euler)).isOk = true := by decide +kernel
  obtain ⟨t, ht⟩ := exists_eq_ok_of_isOk hok
  obtain ⟨-, ⟨-, -, hmost⟩, hrequested, hcount, -⟩ := solution_keeps_limits ht
  exact ⟨t, ht, (hrequested _ rfl).1, hmost, (hcount 4.0 rfl).2.1⟩

end Draft

end InitialValue
