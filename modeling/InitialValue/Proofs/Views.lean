import InitialValue.Proofs.Integration
import Mathlib.Data.List.Basic

/-! The views of a recorded solution. They pass over rows that do not have what they show,
without a word about it. In the record of a run nothing is passed over that should be there:
every row but the last has the slopes of the trajectory's own method. So Heun's predicted
values are one for each step, in the order of the steps, and a calculation can be written
out for each step and for nothing else. -/

namespace InitialValue

open Sampling (Slope)

namespace Trajectory

/-- The views of a trajectory of `n` steps show its rows one by one. -/
structure Views (t : Trajectory) (n : Nat) : Prop where
  length_rows : t.rows.length = n + 1
  method : ∀ (i : Nat) (r : Row Float), t.rows[i]? = some r → i < n →
    ∃ d, r.diagnostics = some d ∧ d.method = t.method
  length_series : t.xs.length = n + 1 ∧ t.ys.length = n + 1 ∧ t.slopes.length = n + 1
  series : ∀ (i : Nat) (r : Row Float), t.rows[i]? = some r →
    t.xs[i]? = some r.x ∧ t.ys[i]? = some r.y ∧ t.slopes[i]? = some r.slope
  isSome_predictors? : t.predictors?.isSome = true ↔ t.method = .heun
  /-- Each predicted value stands where its row does, made from the first slope of the row's
  step. -/
  predictors : ∀ ps, t.predictors? = some ps → ps.length = n ∧
    ∀ (i : Nat) (r : Row Float), t.rows[i]? = some r → i < n → ∃ k2 average,
      r.diagnostics = some (.heun r.slope k2 (r.y + t.h * r.slope) average) ∧
      ps[i]? = some (r.y + t.h * r.slope)
  isSome_calculation : ∀ i, (t.calculation i).isSome = true ↔ i < n
  finalPoint : ∃ r, t.rows[n]? = some r ∧ t.finalPoint = (r.x, r.y)
  plotData : t.plotData = ⟨t.xs, t.ys, t.method.label, t.predictors?⟩

namespace Records

variable {f : Slope Float} {m : Method} {expression : String} {x0 y0 h : Float} {n : UInt64}
  {t : Trajectory}
  {i : Nat} {r : Row Float}

/-- A row before the last has the slopes by which the method left it. -/
theorem exists_diagnostics (ht : t.Records f m expression x0 y0 h n) (hr : t.rows[i]? = some r)
    (hi : i < n.toNat) :
    ∃ x y d, r.diagnostics = some d ∧ d.method = m ∧ Step.Obeys f r.x r.y h ⟨x, y, d⟩ := by
  have hnext : i + 1 < t.rows.length := by rw [ht.length_rows]; omega
  obtain ⟨d, hd, hm, -, ho⟩ := ht.stepped i r _ hr (List.getElem?_eq_getElem hnext)
  exact ⟨_, _, d, hd, hm, ho⟩

theorem exists_heun (ht : t.Records f .heun expression x0 y0 h n) (hr : t.rows[i]? = some r)
    (hi : i < n.toNat) :
    ∃ k2 average, r.diagnostics = some (.heun r.slope k2 (r.y + h * r.slope) average) := by
  obtain ⟨x, y, d, hd, hm, ho⟩ := ht.exists_diagnostics hr hi
  have hslope := ht.initialSlope r (List.mem_of_getElem? hr) d hd
  cases d with
  | euler slope => cases hm
  | heun k1 k2 predictor average =>
    obtain ⟨-, -, rfl, -⟩ := ho
    obtain rfl : k1 = r.slope := hslope
    exact ⟨k2, average, hd⟩
  | rungeKutta k1 k2 k3 k4 weighted => cases hm

/-- The rows that were left, and the one that was not. -/
theorem exists_rows_eq (ht : t.Records f m expression x0 y0 h n) :
    ∃ last, t.rows = t.rows.take n.toNat ++ [last] ∧ t.rows[n.toNat]? = some last ∧
      last.diagnostics = none := by
  have hlt : n.toNat < t.rows.length := by rw [ht.length_rows]; omega
  have hlast := List.getElem?_eq_getElem hlt
  refine ⟨t.rows[n.toNat], ?_, hlast, (ht.last _ _ hlast).mpr rfl⟩
  rw [List.take_append_getElem, ← ht.length_rows, List.take_length]

/-- No predicted value is left out, since no row before the last is of another method. -/
theorem predictors?_eq (ht : t.Records f .heun expression x0 y0 h n) :
    t.predictors? = some ((t.rows.take n.toNat).map fun r => r.y + h * r.slope) := by
  obtain ⟨last, hrows, -, hlast⟩ := ht.exists_rows_eq
  have hlast : predictorOf last = none := by rw [predictorOf, hlast]
  have hleft : ∀ r ∈ t.rows.take n.toNat, predictorOf r = some (r.y + h * r.slope) := by
    intro r hr
    obtain ⟨i, hi⟩ := List.mem_iff_getElem?.mp hr
    rw [List.getElem?_take] at hi
    split_ifs at hi with hlt
    obtain ⟨k2, average, hd⟩ := ht.exists_heun hi hlt
    rw [predictorOf, hd]
  have hall : t.rows.filterMap predictorOf =
      (t.rows.take n.toNat).map fun r => r.y + h * r.slope := calc
    _ = (t.rows.take n.toNat ++ [last]).filterMap predictorOf := by rw [← hrows]
    _ = (t.rows.take n.toNat).filterMap predictorOf := by simp [hlast]
    _ = (t.rows.take n.toNat).filterMap (some ∘ fun r => r.y + h * r.slope) :=
      List.filterMap_congr hleft
    _ = _ := by rw [List.filterMap_eq_map]
  rw [predictors?, if_pos ht.parameters.1, hall]

theorem isSome_calculation (ht : t.Records f m expression x0 y0 h n) :
    (t.calculation i).isSome = true ↔ i < n.toNat := by
  by_cases hi : i < n.toNat
  · have hlt : i < t.rows.length := by rw [ht.length_rows]; omega
    have hnext : i + 1 < t.rows.length := by rw [ht.length_rows]; omega
    obtain ⟨_, _, d, hd, -⟩ := ht.exists_diagnostics (List.getElem?_eq_getElem hlt) hi
    simp [calculation, List.getElem?_eq_getElem hlt, List.getElem?_eq_getElem hnext, hd, hi]
  · have hnext : t.rows.length ≤ i + 1 := by rw [ht.length_rows]; omega
    cases hr : t.rows[i]? <;> simp [calculation, hr, List.getElem?_eq_none hnext, hi]

theorem views (ht : t.Records f m expression x0 y0 h n) : t.Views n.toNat := by
  obtain ⟨rfl, -, -, -, rfl, -⟩ := ht.parameters
  obtain ⟨last, hrows, hlast, -⟩ := ht.exists_rows_eq
  have hpredictors : ∀ ps, t.predictors? = some ps →
      t.method = .heun ∧ ps = (t.rows.take n.toNat).map fun r => r.y + t.h * r.slope := by
    intro ps hps
    have hm : t.method = .heun := by
      by_contra hm
      simp [predictors?, hm] at hps
    rw [hm] at ht
    exact ⟨hm, (Option.some.inj (ht.predictors?_eq.symm.trans hps)).symm⟩
  exact {
    length_rows := ht.length_rows
    method i r hr hi := by
      obtain ⟨_, _, d, hd, hm, -⟩ := ht.exists_diagnostics hr hi
      exact ⟨d, hd, hm⟩
    length_series := by simp [xs, ys, slopes, ht.length_rows]
    series i r hr := by simp [xs, ys, slopes, hr]
    isSome_predictors? := by
      by_cases hm : t.method = .heun <;> simp [predictors?, hm]
    predictors ps hps := by
      obtain ⟨hm, rfl⟩ := hpredictors ps hps
      rw [hm] at ht
      refine ⟨by simp [ht.length_rows], fun i r hr hi => ?_⟩
      obtain ⟨k2, average, hd⟩ := ht.exists_heun hr hi
      exact ⟨k2, average, hd, by simp [hi, hr]⟩
    isSome_calculation _ := ht.isSome_calculation
    finalPoint := ⟨last, hlast, by rw [Trajectory.finalPoint, hrows]; simp⟩
    plotData := rfl }

end Records

end Trajectory

namespace Solver

variable {s : Solver} {f : Slope Float} {m : Method} {expression : String}
  {x0 y0 h : Float} {n : UInt64}

/-- A solution has a view of each of its rows, and Heun's method a predicted value for each of its
steps. -/
theorem views_of_integrate {t : Trajectory}
    (ht : (s.integrate expression x0 y0 h n m).run f = .ok t) : t.method = m ∧ t.Views n.toNat := by
  obtain ⟨-, rows, hr, rfl⟩ := run_integrate_eq_ok_iff.mp ht
  exact ⟨rfl, (Trajectory.records_of_recorded (Integration.recorded_of_record hr)).views⟩

/-- Two steps of Heun's method for growth are predicted, and no other method's are. -/
theorem heun_views_two_steps :
    ∃ t, (standard.integrate "y" 0.0 1.0 0.5 2 .heun).run (fun _ y => .ok y) = .ok t ∧
      t.predictors? = some [1.5, 2.4375] ∧ t.Views 2 ∧
    ∃ t', (standard.integrate "y" 0.0 1.0 0.5 2 .rungeKutta).run (fun _ y => .ok y) = .ok t' ∧
      t'.predictors? = none ∧ t'.Views 2 := by
  have hruns :
      ((standard.integrate "y" 0.0 1.0 0.5 2 .heun).run fun _ y => .ok y).map
        Trajectory.predictors? = .ok (some [1.5, 2.4375]) ∧
      ((standard.integrate "y" 0.0 1.0 0.5 2 .rungeKutta).run fun _ y => .ok y).map
        Trajectory.predictors? = .ok none := by
    decide +kernel
  obtain ⟨t, ht, hp⟩ := map_eq_ok_iff.mp hruns.1
  obtain ⟨t', ht', hp'⟩ := map_eq_ok_iff.mp hruns.2
  exact ⟨t, ht, hp, (views_of_integrate ht).2, t', ht', hp', (views_of_integrate ht').2⟩

end Solver

end InitialValue
