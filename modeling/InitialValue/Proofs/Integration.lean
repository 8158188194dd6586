import InitialValue.Proofs.Limits
import InitialValue.Proofs.Run
import Mathlib.Control.Monad.Basic

/-! Integration with parameters that a solver lets pass. The trajectory records the
run: its rows are numbered from the start, each is left by the step of the method
and bears the slope there, and only the last is not left. Runs over different
numbers of steps have their rows and their failures in common. -/

namespace InitialValue

open Sampling (Slope)

/-- The trajectory is the record of `n` steps of the method from `(x0, y0)`. -/
structure Trajectory.Records (f : Slope Float) (m : Method) (expression : String) (x0 y0 h : Float)
    (n : UInt64) (t : Trajectory) : Prop where
  length_rows : t.rows.length = n.toNat + 1
  start : ∀ r, t.rows[0]? = some r → r.x = x0 ∧ r.y = y0
  numbered : ∀ (i : Nat) (r : Row Float), t.rows[i]? = some r → r.step.toNat = i
  /-- A row and the next one are the two ends of a step, whose diagnostics the row has. -/
  stepped : ∀ (i : Nat) (r next : Row Float), t.rows[i]? = some r → t.rows[i + 1]? = some next →
    ∃ d, r.diagnostics = some d ∧ d.method = m ∧
      (m.step r.x r.y h).run f = .ok ⟨next.x, next.y, d⟩ ∧
      Step.Obeys f r.x r.y h ⟨next.x, next.y, d⟩
  slope : ∀ r ∈ t.rows, f r.x r.y = .ok r.slope
  initialSlope : ∀ r ∈ t.rows, ∀ d, r.diagnostics = some d → d.initialSlope = r.slope
  last : ∀ (i : Nat) (r : Row Float), t.rows[i]? = some r → (r.diagnostics = none ↔ i = n.toNat)
  parameters : t.method = m ∧ t.expression = expression ∧ t.x0 = x0 ∧ t.y0 = y0 ∧ t.h = h ∧
    t.numSteps = n ∧ t.summary.totalSteps = n ∧ t.summary.stepSize = h

variable {s : Solver} {f : Slope Float} {m : Method} {expression : String}
  {x0 y0 h : Float} {n : UInt64}

namespace Solver

/-- Parameters that pass make a run, whose rows are recorded. -/
theorem run_integrate : (s.integrate expression x0 y0 h n m).run f =
    match s.rejection? x0 y0 h n with
    | some r => .error (.rejected r)
    | none => (Integration.record f m h n.toNat 0 x0 y0).map (.ofRows m expression x0 y0 h n) := by
  unfold integrate
  cases hr : s.rejection? x0 y0 h n with
  | some r => rfl
  | none =>
    have hn := not_mostCountable_lt (rejection?_eq_none_iff.mp hr).2.2.1
    simp only [if_neg hn, Sampling.run_bind, Integration.run_rows]
    cases Integration.record f m h n.toNat 0 x0 y0 with
    | error e => rfl
    | ok rows => rfl

theorem run_integrate_eq_ok_iff {t : Trajectory} :
    (s.integrate expression x0 y0 h n m).run f = .ok t ↔
      s.rejection? x0 y0 h n = none ∧
        ∃ rows, Integration.record f m h n.toNat 0 x0 y0 = .ok rows ∧
          .ofRows m expression x0 y0 h n rows = t := by
  rw [run_integrate]
  cases s.rejection? x0 y0 h n with
  | some r => simp
  | none => simp [map_eq_ok_iff]

theorem run_integrate_eq_failed_iff {k : UInt64} {c : Expression.EvalError} :
    (s.integrate expression x0 y0 h n m).run f = .error (.evaluationFailed k c) ↔
      s.rejection? x0 y0 h n = none ∧
        Integration.record f m h n.toNat 0 x0 y0 = .error (.evaluationFailed k c) := by
  rw [run_integrate]
  cases s.rejection? x0 y0 h n with
  | some r => simp
  | none => simp [map_eq_error_iff]

end Solver

/-- Rows that are recorded from the start are those of a trajectory. -/
theorem Trajectory.records_of_recorded {rows : List (Row Float)}
    (hr : Integration.Recorded f m h n.toNat 0 x0 y0 rows) :
    (ofRows m expression x0 y0 h n rows).Records f m expression x0 y0 h n where
  length_rows := hr.length_eq
  start := hr.start
  numbered i r hi := by
    have hlt : i < rows.length := (List.getElem?_eq_some_iff.mp hi).1
    rw [hr.length_eq] at hlt
    rw [hr.numbered i r hi, Nat.zero_add, UInt64.toNat_ofNat_of_lt']
    exact Nat.lt_of_le_of_lt (Nat.le_of_lt_succ hlt) n.toNat_lt
  stepped i r next hi hi' := by
    obtain ⟨d, hd, hl⟩ := hr.left_by i r next hi hi'
    have hs := (Integration.leave_eq_ok_iff.mp hl).1
    obtain ⟨hm, ho⟩ := Method.run_step_eq_ok_iff.mp hs
    exact ⟨d, hd, hm, hs, ho⟩
  slope := hr.slope
  initialSlope r hmem d hd := by
    obtain ⟨next, hl, rfl⟩ := hr.leave_of_diagnostics hmem hd
    exact Except.ok.inj ((Integration.slope_of_leave hl).symm.trans (hr.slope r hmem))
  last := hr.last
  parameters := ⟨rfl, rfl, rfl, rfl, rfl, rfl, rfl, rfl⟩

namespace Solver

/-- Integration that succeeds records the run it was asked for. -/
theorem integrate_records_run {t : Trajectory}
    (ht : (s.integrate expression x0 y0 h n m).run f = .ok t) :
    t.Records f m expression x0 y0 h n := by
  obtain ⟨-, rows, hr, rfl⟩ := run_integrate_eq_ok_iff.mp ht
  exact Trajectory.records_of_recorded (Integration.recorded_of_record hr)

theorem heun_records_two_steps :
    ∃ t, (standard.integrate "x + y" 0.0 1.0 0.5 2 .heun).run (fun x y => .ok (x + y)) = .ok t ∧
      t.Records (fun x y => .ok (x + y)) .heun "x + y" 0.0 1.0 0.5 2 := by
  have hok : ((standard.integrate "x + y" 0.0 1.0 0.5 2 .heun).run
      (fun x y => .ok (x + y))).isOk = true := by
    decide +kernel
  obtain ⟨t, ht⟩ := exists_eq_ok_of_isOk hok
  exact ⟨t, ht, integrate_records_run ht⟩

/-! ### Runs over different numbers of steps -/

theorem rejection?_of_le {k : UInt64} (hr : s.rejection? x0 y0 h n = none) (hk : k ≤ n) :
    s.rejection? x0 y0 h k = none := by
  obtain ⟨hx, hy, hn, hh⟩ := rejection?_eq_none_iff.mp hr
  exact rejection?_eq_none_iff.mpr ⟨hx, hy, UInt64.le_trans hk hn, hh⟩

variable {total k : UInt64} {t : Trajectory}

/-- The run over a part of the steps has the rows of the whole run up to there. -/
theorem integrate_of_add (htotal : total.toNat = n.toNat + k.toNat)
    (ht : (s.integrate expression x0 y0 h total m).run f = .ok t) :
    ∃ r t', t.rows[n.toNat]? = some r ∧ (s.integrate expression x0 y0 h n m).run f = .ok t' ∧
      t'.rows = t.rows.take n.toNat ++ [{ r with diagnostics := none }] := by
  obtain ⟨hok, rows, hr, rfl⟩ := run_integrate_eq_ok_iff.mp ht
  rw [htotal] at hr
  have hn : n ≤ total := UInt64.le_iff_toNat_le.mpr (by omega)
  obtain ⟨r, hrow, hprefix⟩ := Integration.record_of_add hr
  exact ⟨r, _, hrow, run_integrate_eq_ok_iff.mpr ⟨rejection?_of_le hok hn, _, hprefix, rfl⟩, rfl⟩

/-- The run over the other steps, from the row in between, has the rows after it. -/
theorem integrate_from_row (htotal : total.toNat = n.toNat + k.toNat)
    (ht : (s.integrate expression x0 y0 h total m).run f = .ok t) {r : Row Float}
    (hrow : t.rows[n.toNat]? = some r) :
    ∃ t', (s.integrate expression r.x r.y h k m).run f = .ok t' ∧
      t'.rows = (t.rows.drop n.toNat).map fun r => { r with step := r.step - n } := by
  obtain ⟨hok, rows, hr, rfl⟩ := run_integrate_eq_ok_iff.mp ht
  obtain ⟨hx, hy, hle, hh⟩ := rejection?_eq_none_iff.mp hok
  rw [htotal] at hr
  have hk : k ≤ total := UInt64.le_iff_toNat_le.mpr (by omega)
  obtain ⟨r', hrow', hsuffix⟩ := Integration.record_drop_of_add hr
  obtain rfl := Option.some.inj (hrow.symm.trans hrow')
  have hfin := (Integration.recorded_of_record hr).isFinite hx hy (List.mem_of_getElem? hrow)
  have hok' := rejection?_eq_none_iff.mpr ⟨hfin.1, hfin.2, UInt64.le_trans hk hle, hh⟩
  have hrun := Integration.record_renumber hsuffix
  refine ⟨_, run_integrate_eq_ok_iff.mpr ⟨hok', _, hrun, rfl⟩, List.map_congr_left fun r _ => ?_⟩
  rw [Integration.renumber, UInt64.ofNat_toNat]

/-- A failure at a step is that of every run which gets beyond the step, and of no shorter one. -/
theorem integrate_of_failed {c : Expression.EvalError}
    (ht : (s.integrate expression x0 y0 h total m).run f = .error (.evaluationFailed k c)) :
    (∀ n < k, ∃ t, (s.integrate expression x0 y0 h n m).run f = .ok t) ∧
      ∀ n, k < n → n ≤ s.limits.maxSteps →
        (s.integrate expression x0 y0 h n m).run f = .error (.evaluationFailed k c) := by
  obtain ⟨hok, hr⟩ := run_integrate_eq_failed_iff.mp ht
  obtain ⟨j, hj, c', he, hshort, hlong⟩ := Integration.record_eq_error hr
  rw [Nat.zero_add] at he
  obtain ⟨rfl, rfl⟩ := SolveError.evaluationFailed.inj he
  have hjn : (UInt64.ofNat j).toNat = j :=
    UInt64.toNat_ofNat_of_lt' (Nat.lt_of_le_of_lt hj total.toNat_lt)
  refine ⟨fun n hn => ?_, fun n hn hle => ?_⟩
  · rw [UInt64.lt_iff_toNat_lt, hjn] at hn
    obtain ⟨rows, hrows⟩ := hshort n.toNat hn
    have hnt : n ≤ total := UInt64.le_iff_toNat_le.mpr (by omega)
    exact ⟨_, run_integrate_eq_ok_iff.mpr ⟨rejection?_of_le hok hnt, rows, hrows, rfl⟩⟩
  · rw [UInt64.lt_iff_toNat_lt, hjn] at hn
    obtain ⟨hx, hy, -, hh⟩ := rejection?_eq_none_iff.mp hok
    have hok' := rejection?_eq_none_iff.mpr ⟨hx, hy, hle, hh⟩
    exact run_integrate_eq_failed_iff.mpr ⟨hok', hlong n.toNat hn⟩

/-- Runs over different numbers of steps agree where they overlap, in their rows and in where they
break off. -/
theorem integrate_agrees_with_parts :
    (∀ (total n k : UInt64) (t : Trajectory), total.toNat = n.toNat + k.toNat →
      (s.integrate expression x0 y0 h total m).run f = .ok t →
      ∃ r, t.rows[n.toNat]? = some r ∧
        (∃ t', (s.integrate expression x0 y0 h n m).run f = .ok t' ∧
          t'.rows = t.rows.take n.toNat ++ [{ r with diagnostics := none }]) ∧
        ∃ t', (s.integrate expression r.x r.y h k m).run f = .ok t' ∧
          t'.rows = (t.rows.drop n.toNat).map fun r => { r with step := r.step - n }) ∧
    ∀ (total k : UInt64) (c : Expression.EvalError),
      (s.integrate expression x0 y0 h total m).run f = .error (.evaluationFailed k c) →
      (∀ n < k, ∃ t, (s.integrate expression x0 y0 h n m).run f = .ok t) ∧
      ∀ n, k < n → n ≤ s.limits.maxSteps →
        (s.integrate expression x0 y0 h n m).run f = .error (.evaluationFailed k c) := by
  refine ⟨?_, fun total k c ht => integrate_of_failed ht⟩
  intro total n k t htotal ht
  obtain ⟨r, t', hrow, ht', hrows⟩ := integrate_of_add htotal ht
  exact ⟨r, hrow, ⟨t', ht', hrows⟩, integrate_from_row htotal ht hrow⟩

/-- With a pole at two, five steps of a half break off at the last but one, and so do seven. Three
steps do not: their rows are those of one step and those of two steps from there. -/
theorem euler_breaks_off_at_pole :
    let f : Slope Float := fun x _ =>
      if x < 2.0 then .ok (1.0 / (2.0 - x)) else .error .divisionByZero
    let run (x0 y0 : Float) (n : UInt64) :=
      (standard.integrate "1/(2 - x)" x0 y0 0.5 n .euler).run f
    run 0.0 1.0 5 = .error (.evaluationFailed 4 .divisionByZero) ∧
      run 0.0 1.0 7 = .error (.evaluationFailed 4 .divisionByZero) ∧
      ∃ t r t₁ t₂, run 0.0 1.0 3 = .ok t ∧ t.rows[1]? = some r ∧
        run 0.0 1.0 1 = .ok t₁ ∧ t₁.rows = t.rows.take 1 ++ [{ r with diagnostics := none }] ∧
        run r.x r.y 2 = .ok t₂ ∧ t₂.rows =
          (t.rows.drop 1).map fun r => { r with step := r.step - 1 } := by
  intro f run
  have h5 : run 0.0 1.0 5 = .error (.evaluationFailed 4 .divisionByZero) := by decide +kernel
  obtain ⟨hshort, hlong⟩ := integrate_agrees_with_parts.2 5 4 .divisionByZero h5
  obtain ⟨t, ht⟩ := hshort 3 (by decide)
  obtain ⟨r, hr, ⟨t₁, ht₁, hrows₁⟩, t₂, ht₂, hrows₂⟩ :=
    integrate_agrees_with_parts.1 3 1 2 t (by decide) ht
  exact ⟨h5, hlong 7 (by decide) (by decide), t, r, t₁, t₂, ht, hr, ht₁, hrows₁, ht₂, hrows₂⟩

end Solver

end InitialValue
