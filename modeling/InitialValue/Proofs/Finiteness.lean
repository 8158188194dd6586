import InitialValue.Proofs.Binary64.Finite
import InitialValue.Proofs.Draft
import InitialValue.Proofs.Integration

/-! Every number in a solution is finite. The points are checked as they are reached
and the slopes as they are evaluated. The mean and the weighted slope are not checked
anywhere: each is the quotient by two or six of a sum that the update multiplies by a
part of the step size, and a sum that is not finite would have made the next point
not finite, whatever the factor. -/

namespace InitialValue

open Sampling (Slope)

def Diagnostics.values {α : Type} : Diagnostics α → List α
  | .euler slope => [slope]
  | .heun k1 k2 predictor average => [k1, k2, predictor, average]
  | .rungeKutta k1 k2 k3 k4 weighted => [k1, k2, k3, k4, weighted]

def Row.values {α : Type} (r : Row α) : List α :=
  r.x :: r.y :: r.slope :: (r.diagnostics.map Diagnostics.values).getD []

/-- All numbers that a trajectory holds, but for the counts. -/
def Trajectory.values (t : Trajectory) : List Float :=
  t.x0 :: t.y0 :: t.h :: t.summary.stepSize :: t.rows.flatMap Row.values

/-- A slope function with no values but finite ones. -/
def FiniteSlope (f : Slope Float) : Prop := ∀ {x y v}, f x y = .ok v → v.isFinite = true

theorem Expression.finiteSlope_evaluate (e : Expression) : FiniteSlope e.evaluate := by
  intro x y v hv
  obtain ⟨a, -, ha⟩ := bind_eq_ok_iff.mp hv
  split at ha
  · next hfin =>
    cases ha
    exact hfin
  · cases ha

variable {f : Slope Float} {m : Method} {x y h : Float}

theorem isFinite_half_of_update {total : Float} (hy : (y + h / 2.0 * total).isFinite = true) :
    (total / 2.0).isFinite = true :=
  Binary64.isFinite_div_two (Binary64.isFinite_of_mul (Binary64.isFinite_of_add hy).2).2

theorem isFinite_sixth_of_update {total : Float} (hy : (y + h / 6.0 * total).isFinite = true) :
    (total / 6.0).isFinite = true :=
  Binary64.isFinite_div_six (Binary64.isFinite_of_mul (Binary64.isFinite_of_add hy).2).2

/-- A step to a finite point has finite diagnostics. -/
theorem Step.Obeys.isFinite {next : Step Float} (ho : next.Obeys f x y h) (hf : FiniteSlope f)
    (hy : next.y.isFinite = true) : ∀ v ∈ next.diagnostics.values, v.isFinite = true := by
  obtain ⟨x', y', d⟩ := next
  cases d with
  | euler slope =>
    obtain ⟨-, h1, -⟩ := ho
    simpa [Diagnostics.values] using hf h1
  | heun k1 k2 predictor average =>
    obtain ⟨-, h1, -, hp, h2, rfl, rfl⟩ := ho
    have ha := isFinite_half_of_update hy
    simp only [Diagnostics.values, List.forall_mem_cons]
    exact ⟨hf h1, hf h2, hp, ha, by simp⟩
  | rungeKutta k1 k2 k3 k4 weighted =>
    obtain ⟨-, h1, -, h2, -, h3, -, h4, rfl, rfl⟩ := ho
    have hw := isFinite_sixth_of_update hy
    simp only [Diagnostics.values, List.forall_mem_cons]
    exact ⟨hf h1, hf h2, hf h3, hf h4, hw, by simp⟩

/-- The rows of a run from a finite point are finite. -/
theorem Integration.Recorded.values_isFinite {left step : Nat} {rows : List (Row Float)}
    (hr : Recorded f m h left step x y rows) (hf : FiniteSlope f) (hx : x.isFinite = true)
    (hy : y.isFinite = true) {r : Row Float} (hmem : r ∈ rows) :
    ∀ v ∈ r.values, v.isFinite = true := by
  obtain ⟨hrx, hry⟩ := hr.isFinite hx hy hmem
  simp only [Row.values, List.forall_mem_cons]
  refine ⟨hrx, hry, hf (hr.slope r hmem), ?_⟩
  cases hd : r.diagnostics with
  | none => simp
  | some d =>
    obtain ⟨next, hl, rfl⟩ := hr.leave_of_diagnostics hmem hd
    obtain ⟨hs, -, hny⟩ := leave_eq_ok_iff.mp hl
    exact (Method.run_step_eq_ok_iff.mp hs).2.isFinite hf hny

namespace Solver

variable {s : Solver} {expression : String} {x0 y0 : Float} {n : UInt64} {t : Trajectory}

theorem values_isFinite_of_integrate (hf : FiniteSlope f)
    (ht : (s.integrate expression x0 y0 h n m).run f = .ok t) :
    ∀ v ∈ t.values, v.isFinite = true := by
  obtain ⟨hok, rows, hr, rfl⟩ := run_integrate_eq_ok_iff.mp ht
  obtain ⟨hx, hy, -, ⟨hh, -⟩, -⟩ := rejection?_eq_none_iff.mp hok
  simp only [Trajectory.values, List.forall_mem_cons, List.mem_flatMap]
  refine ⟨hx, hy, hh, hh, ?_⟩
  rintro v ⟨r, hmem, hv⟩
  exact (Integration.recorded_of_record hr).values_isFinite hf hx hy hmem v hv

/-- A solution is the run of the expression that was read. -/
theorem run_of_solve (ht : s.solve expression x0 y0 h n m = .ok t) :
    ∃ e,
      Expression.parse expression = .ok e ∧
        (s.integrate expression x0 y0 h n m).run e.evaluate = .ok t := by
  unfold solve at ht
  split at ht
  · cases ht
  · split at ht
    · cases ht
    · next e he =>
      split at ht
      · cases ht
      · exact ⟨e, he, ht⟩

/-- A solution has a start, and only finite points. -/
theorem points_of_solve (ht : s.solve expression x0 y0 h n m = .ok t) :
    t.rows ≠ [] ∧ ∀ r ∈ t.rows, r.x.isFinite = true ∧ r.y.isFinite = true := by
  obtain ⟨e, -, hrun⟩ := run_of_solve ht
  obtain ⟨hok, rows, hrecord, rfl⟩ := run_integrate_eq_ok_iff.mp hrun
  obtain ⟨hx, hy, -⟩ := rejection?_eq_none_iff.mp hok
  have hr := Integration.recorded_of_record hrecord
  refine ⟨?_, fun r hmem => hr.isFinite hx hy hmem⟩
  obtain ⟨slope, diagnostics, rest, -, hrows⟩ := hr.exists_cons
  show rows ≠ []
  rw [hrows]
  exact List.cons_ne_nil _ _

theorem values_isFinite_of_solve (ht : s.solve expression x0 y0 h n m = .ok t) :
    ∀ v ∈ t.values, v.isFinite = true := by
  obtain ⟨e, -, hrun⟩ := run_of_solve ht
  exact values_isFinite_of_integrate e.finiteSlope_evaluate hrun

theorem solve_of_solveInterval {xn : Float} {spec : StepSpec}
    (ht : s.solveInterval expression x0 y0 xn spec m = .ok t) : ∃ plan : Plan,
    Plan.resolve x0 xn spec s.limits = .ok plan ∧
      s.solve expression x0 y0 plan.h plan.numSteps m = .ok t :=
  bind_eq_ok_iff.mp ht

theorem values_isFinite_of_solveInterval {xn : Float} {spec : StepSpec}
    (ht : s.solveInterval expression x0 y0 xn spec m = .ok t) :
    ∀ v ∈ t.values, v.isFinite = true := by
  obtain ⟨plan, -, hplan⟩ := solve_of_solveInterval ht
  exact values_isFinite_of_solve hplan

theorem solveInterval_of_solveRequest {r : Request} (ht : s.solveRequest r = .ok t) : ∃ spec,
    r.stepSpec = .ok spec ∧ s.solveInterval r.function r.x0 r.y0 r.xn spec r.method = .ok t :=
  bind_eq_ok_iff.mp ht

theorem values_isFinite_of_solveRequest {r : Request} (ht : s.solveRequest r = .ok t) :
    ∀ v ∈ t.values, v.isFinite = true := by
  obtain ⟨spec, -, hspec⟩ := solveInterval_of_solveRequest ht
  exact values_isFinite_of_solveInterval hspec

end Solver

/-- Whichever way a solution is asked for, every number in it is finite. -/
theorem solution_values_isFinite :
    (∀ (s : Solver) expression x0 y0 h n m t, s.solve expression x0 y0 h n m = .ok t →
      ∀ v ∈ t.values, v.isFinite = true) ∧
    (∀ (s : Solver) expression x0 y0 xn spec m t, s.solveInterval expression x0 y0 xn spec m =
      .ok t →
      ∀ v ∈ t.values, v.isFinite = true) ∧
    (∀ (s : Solver) r t, s.solveRequest r = .ok t → ∀ v ∈ t.values, v.isFinite = true) ∧
    ∀ (d : Draft) override t, d.solve override = .ok t → ∀ v ∈ t.values, v.isFinite = true := by
  refine ⟨fun s _ _ _ _ _ _ t => Solver.values_isFinite_of_solve,
    fun s _ _ _ _ _ _ t => Solver.values_isFinite_of_solveInterval,
    fun s r t => Solver.values_isFinite_of_solveRequest, ?_⟩
  intro d override t ht
  obtain ⟨r, s, -, -, hr⟩ := Draft.solveRequest_of_solve ht
  exact Solver.values_isFinite_of_solveRequest hr

/-- Growth near the end of the range, where the sum of the slopes of the last step exceeds 1e308. -/
theorem values_isFinite_near_overflow :
    let d : Draft := ⟨"y", 0.0, 1e307, 1.0, some 2.0, none, some "rk4", none⟩
    ∃ t, d.solve none = .ok t ∧ ∀ v ∈ t.values, v.isFinite = true := by
  intro d
  have hok : (d.solve none).isOk = true := by decide +kernel
  obtain ⟨t, ht⟩ := exists_eq_ok_of_isOk hok
  exact ⟨t, ht, solution_values_isFinite.2.2.2 d none t ht⟩

end InitialValue
