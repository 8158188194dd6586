import InitialValue.Proofs.Integration
import InitialValue.Proofs.Stages

/-! Where a run asks for slopes. It asks at the start, then for the stages of one step
after another, and at the end, unless no step is taken. A run that breaks off has
asked for nothing after the slope or the value at which it does, and one that is
rejected has not asked at all. -/

namespace InitialValue

open Expression (EvalError)
open Sampling (Slope callsAfter)

section Run

variable {α : Type} [Scalar α]

/-- The points at which the step that leaves a row asked for its slopes. -/
def Row.stagePoints (h : α) (r : Row α) : List (α × α) :=
  (r.diagnostics.map (Diagnostics.stagePoints r.x r.y h)).getD []

namespace Integration

/-- Steps lead from `(x, y)` through these rows, which are numbered from `step` on, to the last
point. -/
inductive Path (f : Slope α) (m : Method) (h : α) : Nat → α → α → List (Row α) → α → α → Prop
  | here {step : Nat} {x y : α} : Path f m h step x y [] x y
  | step {step : Nat} {x y x' y' : α} {next : Step α} {rows : List (Row α)} :
    leave f m h x y = .ok next → Path f m h (step + 1) next.x next.y rows x' y' →
    Path f m h step x y
      (⟨.ofNat step, x, y, next.diagnostics.initialSlope, some next.diagnostics⟩ :: rows) x' y'

variable {f : Slope α} {m : Method} {h : α}

theorem Path.length_stagePoints {step : Nat} {x y x' y' : α} {rows : List (Row α)}
    (hp : Path f m h step x y rows x' y') :
    (rows.flatMap (Row.stagePoints h)).length = rows.length * m.stageCount := by
  induction hp with
  | here => simp
  | step hl _ ih =>
    have hm := (Method.run_step_eq_ok_iff.mp (leave_eq_ok_iff.mp hl).1).1
    simp only [List.flatMap_cons, List.length_append, ih, Row.stagePoints, Option.map_some,
      Option.getD_some, Method.length_stagePoints, hm, List.length_cons]
    rw [Nat.add_comm, Nat.succ_mul]

/-! ### The loop -/

/-- The points at which the slopes of `record` are asked for. -/
def recordCalls (f : Slope α) (m : Method) (h : α) : (left : Nat) → α → α → List (α × α)
  | 0, x, y => [(x, y)]
  | left + 1, x, y => (m.step x y h).calls f ++
      match leave f m h x y with
      | .ok next => recordCalls f m h left next.x next.y
      | .error _ => []

theorem calls_advance (first : α) (step : Nat) (p : Progress α) :
    (advance m h first step p).calls f = (m.step p.x p.y h).calls f := by
  simp only [advance, Sampling.calls_bind, Sampling.calls_mapFailure, Sampling.run_mapFailure]
  cases (m.step p.x p.y h).run f with
  | error c => simp
  | ok next =>
    simp only [mapError_ok, Sampling.callsAfter_ok]
    split <;> simp

/-- The loop and the last slope ask where `record` does. -/
theorem calls_march {first : α} {left step : Nat} {p : Progress α}
    (hfirst : step = 0 → f p.x p.y = .ok first) :
    (march m h first left step p).calls f ++
        callsAfter f (fun q => boundarySlope (step + left) q.x q.y)
          ((march m h first left step p).run f) =
      recordCalls f m h left p.x p.y := by
  induction left generalizing step p with
  | zero => simp [march, recordCalls, boundarySlope]
  | succ left ih =>
    simp only [march, recordCalls, Sampling.calls_bind, Sampling.run_bind, calls_advance,
      run_advance hfirst]
    cases leave f m h p.x p.y with
    | error c => simp
    | ok next =>
      simp only [mapError_ok, map_ok, ok_bind, Sampling.callsAfter_ok, List.append_assoc]
      rw [Nat.add_comm left, ← Nat.add_assoc, ih (by simp)]

/-- A run asks once more at the start, and without steps only there. -/
theorem calls_rows (n : Nat) (x0 y0 : α) : (rows m x0 y0 h n).calls f =
    (x0, y0) :: match f x0 y0 with
      | .ok _ => if n = 0 then [] else recordCalls f m h n x0 y0
      | .error _ => [] := by
  simp only [rows, boundarySlope, Sampling.calls_bind, Sampling.calls_mapFailure,
    Sampling.calls_slope, Sampling.run_mapFailure, Sampling.run_slope]
  cases hf : f x0 y0 with
  | error c => simp
  | ok first =>
    rw [mapError_ok, Sampling.callsAfter_ok]
    -- Without steps the slope at the start serves at the end as well.
    by_cases h0 : n = 0
    · simp [h0, march, Sampling.calls_bind]
    · have hm := @calls_march _ _ f m h first n 0 ⟨[], x0, y0⟩ (fun _ => hf)
      rw [Nat.zero_add] at hm
      rw [if_neg h0, ← hm, Sampling.calls_bind]
      simp only [List.singleton_append, List.cons.injEq, true_and, List.append_cancel_left_eq]
      cases (march m h first n 0 ⟨[], x0, y0⟩).run f with
      | error e => rfl
      | ok p =>
        simp only [Sampling.callsAfter_ok, if_neg h0, Sampling.calls_bind, boundarySlope,
          Sampling.run_mapFailure, Sampling.run_slope]
        cases f p.x p.y with
        | error c => simp
        | ok last => simp

/-- Steps lead on until the end is reached, where the last slope is asked for, or until one breaks
off. -/
theorem record_course (left step : Nat) (x y : α) :
    ∃ rows x' y' asked, Path f m h step x y rows x' y' ∧
      recordCalls f m h left x y = rows.flatMap (Row.stagePoints h) ++ asked ∧
      ((rows.length = left ∧ asked = [(x', y')] ∧ ∃ slope, f x' y' = .ok slope ∧
          record f m h left step x y =
            .ok (rows ++ [⟨.ofNat (step + left), x', y', slope, none⟩])) ∨
        ∃ c, record f m h left step x y =
          .error (.evaluationFailed (.ofNat (step + rows.length)) c) ∧
          (rows.length = left ∧ asked = [(x', y')] ∧ f x' y' = .error c ∨
            rows.length < left ∧ m.BreaksOff f x' y' h asked c)) := by
  induction left generalizing step x y with
  | zero =>
    refine ⟨[], x, y, [(x, y)], .here, rfl, ?_⟩
    cases hf : f x y with
    | ok slope => exact .inl ⟨rfl, rfl, slope, rfl, by simp [record, hf]⟩
    | error c => exact .inr ⟨c, by simp [record, hf], .inl ⟨rfl, rfl, rfl⟩⟩
  | succ left ih =>
    -- Either the first of the steps breaks off, or the others go on from where it leads.
    cases hl : leave f m h x y with
    | error c =>
      have hrecord : record f m h (left + 1) step x y =
          .error (.evaluationFailed (.ofNat step) c) := by
        simp only [record, hl, mapError_error, error_bind]
      exact ⟨[], x, y, (m.step x y h).calls f, .here, by simp [recordCalls, hl],
        .inr ⟨c, hrecord, .inr ⟨Nat.succ_pos left, Method.breaksOff_of_leave hl⟩⟩⟩
    | ok next =>
      obtain ⟨rows, x', y', asked, hp, hcalls, hend⟩ := ih (step + 1) next.x next.y
      have hnumber : ∀ k, step + 1 + k = step + (k + 1) := fun k => by omega
      rw [hnumber, hnumber] at hend
      refine ⟨_, x', y', asked, hp.step hl, ?_, ?_⟩
      · simp only [recordCalls, hl, hcalls, Method.calls_step (leave_eq_ok_iff.mp hl).1,
          List.flatMap_cons, Row.stagePoints, Option.map_some, Option.getD_some, List.append_assoc]
      · simp only [record, hl, mapError_ok, ok_bind, List.length_cons, Nat.add_right_cancel_iff,
          Nat.add_lt_add_iff_right]
        refine hend.imp ?_ ?_
        · rintro ⟨hlen, hasked, slope, hf, hr⟩
          exact ⟨hlen, hasked, slope, hf, by rw [hr]; rfl⟩
        · rintro ⟨c, hr, hend⟩
          exact ⟨c, by rw [hr]; rfl, hend⟩

end Integration

end Run

namespace Solver

open Integration (Path)

variable {s : Solver} {f : Slope Float} {m : Method} {expression : String}
  {x0 y0 h : Float} {n : UInt64}

/-- A run that is rejected asks for nothing, and any other one where `rows` does. -/
theorem calls_integrate : (s.integrate expression x0 y0 h n m).calls f =
    match s.rejection? x0 y0 h n with
    | some _ => []
    | none => (Integration.rows m x0 y0 h n.toNat).calls f := by
  unfold integrate
  cases hr : s.rejection? x0 y0 h n with
  | some r => rfl
  | none =>
    have hn := not_mostCountable_lt (rejection?_eq_none_iff.mp hr).2.2.1
    simp only [if_neg hn, Sampling.calls_bind]
    cases (Integration.rows m x0 y0 h n.toNat).run f with
    | error e => simp
    | ok rows => simp

/-- How a run that is not rejected ends, and where it asks until then. -/
theorem course_of_integrate (f : Slope Float) (m : Method) (expression : String)
    (hok : s.rejection? x0 y0 h n = none) :
    (∃ c, f x0 y0 = .error c ∧
      (s.integrate expression x0 y0 h n m).run f = .error (.evaluationFailed 0 c) ∧
      (s.integrate expression x0 y0 h n m).calls f = [(x0, y0)]) ∨
    (∃ first, f x0 y0 = .ok first) ∧ ∃ rows x y asked, Path f m h 0 x0 y0 rows x y ∧
      (s.integrate expression x0 y0 h n m).calls f =
        (x0, y0) :: (rows.flatMap (Row.stagePoints h) ++ asked) ∧
      ((rows.length = n.toNat ∧ (asked = if n = 0 then [] else [(x, y)]) ∧
        ∃ slope, f x y = .ok slope ∧
          (s.integrate expression x0 y0 h n m).run f =
            .ok (.ofRows m expression x0 y0 h n (rows ++ [⟨n, x, y, slope, none⟩]))) ∨
        ∃ c, (s.integrate expression x0 y0 h n m).run f =
          .error (.evaluationFailed (.ofNat rows.length) c) ∧
          (rows.length = n.toNat ∧ n ≠ 0 ∧ f x y = .error c ∧ asked = [(x, y)] ∨
            rows.length < n.toNat ∧ m.BreaksOff f x y h asked c)) := by
  rw [calls_integrate, run_integrate, hok]
  dsimp only
  rw [Integration.calls_rows]
  cases hf : f x0 y0 with
  | error c =>
    refine .inl ⟨c, rfl, ?_, rfl⟩
    rw [Integration.record_of_error hf]
    rfl
  | ok first =>
    refine .inr ⟨⟨first, rfl⟩, ?_⟩
    by_cases h0 : n = 0
    · subst h0
      refine ⟨[], x0, y0, [], .here, rfl, .inl ⟨rfl, rfl, first, hf, ?_⟩⟩
      rw [UInt64.toNat_zero, Integration.record, hf]
      rfl
    obtain ⟨rows, x, y, asked, hp, hcalls, hend⟩ :=
      Integration.record_course (f := f) (m := m) (h := h) n.toNat 0 x0 y0
    rw [Nat.zero_add, Nat.zero_add, UInt64.ofNat_toNat] at hend
    have hn : n.toNat ≠ 0 := fun h => h0 (UInt64.toNat_inj.mp h)
    refine ⟨rows, x, y, asked, hp, by simp only [if_neg hn, hcalls], ?_⟩
    rw [if_neg h0]
    refine hend.imp ?_ ?_
    · rintro ⟨hlen, hasked, slope, hslope, hr⟩
      exact ⟨hlen, hasked, slope, hslope, by rw [hr]; rfl⟩
    · rintro ⟨c, hr, hend⟩
      refine ⟨c, by rw [hr]; rfl, hend.imp_left ?_⟩
      rintro ⟨hlen, hasked, hc⟩
      exact ⟨hlen, h0, hc, hasked⟩

theorem finalPoint_ofRows {rows : List (Row Float)} {last : Row Float} :
    (Trajectory.ofRows m expression x0 y0 h n (rows ++ [last])).finalPoint = (last.x, last.y) := by
  simp [Trajectory.ofRows, Trajectory.finalPoint]

/-- A run that is rejected asks for no slope. One that ends asks at the start, at the stages of each
step in their order, and at the point reached, unless no step is taken. One that breaks off asks at
the stages of the steps before, then up to where it breaks off, and only at the start if there is no
slope. -/
theorem calls_of_integrate :
    (∀ r, (s.integrate expression x0 y0 h n m).run f = .error (.rejected r) →
      (s.integrate expression x0 y0 h n m).calls f = []) ∧
    (∀ t, (s.integrate expression x0 y0 h n m).run f = .ok t →
      Path f m h 0 x0 y0 t.rows.dropLast t.finalPoint.1 t.finalPoint.2 ∧
      (s.integrate expression x0 y0 h n m).calls f =
        (x0, y0) ::
          (t.rows.dropLast.flatMap (Row.stagePoints h) ++ if n = 0 then [] else [t.finalPoint]) ∧
      ((s.integrate expression x0 y0 h n m).calls f).length =
        1 + n.toNat * m.stageCount + if n = 0 then 0 else 1) ∧
    ∀ k c, (s.integrate expression x0 y0 h n m).run f = .error (.evaluationFailed k c) →
      (k = 0 ∧ f x0 y0 = .error c ∧ (s.integrate expression x0 y0 h n m).calls f = [(x0, y0)]) ∨
      (∃ first, f x0 y0 = .ok first) ∧ ∃ rows x y asked,
        Path f m h 0 x0 y0 rows x y ∧ rows.length = k.toNat ∧
        (s.integrate expression x0 y0 h n m).calls f =
          (x0, y0) :: (rows.flatMap (Row.stagePoints h) ++ asked) ∧
        (k = n ∧ n ≠ 0 ∧ f x y = .error c ∧ asked = [(x, y)] ∨
          k < n ∧ m.BreaksOff f x y h asked c) := by
  cases hok : s.rejection? x0 y0 h n with
  | some r =>
    have hrun : (s.integrate expression x0 y0 h n m).run f = .error (.rejected r) := by
      rw [run_integrate, hok]
    rw [hrun, calls_integrate, hok]
    simp
  | none =>
    obtain ⟨c, hf, hrun, hcalls⟩ | ⟨hfirst, rows, x, y, asked, hp, hcalls, hend⟩ :=
      course_of_integrate f m expression hok
    · rw [hrun, hcalls]
      simp [hf]
    obtain ⟨hlen, rfl, slope, -, hrun⟩ | ⟨c, hrun, hend⟩ := hend
    · rw [hrun, hcalls]
      refine ⟨by simp, ?_, by simp⟩
      rintro t ⟨⟩
      rw [finalPoint_ofRows]
      have hrows :
          (Trajectory.ofRows m expression x0 y0 h n
            (rows ++ [⟨n, x, y, slope, none⟩])).rows.dropLast =
          rows := by simp [Trajectory.ofRows]
      rw [hrows]
      refine ⟨hp, rfl, ?_⟩
      rw [List.length_cons, List.length_append, hp.length_stagePoints, hlen]
      split <;> simp <;> omega
    · rw [hrun, hcalls]
      refine ⟨by simp, by simp, ?_⟩
      rintro k c' ⟨⟩
      have hle : rows.length ≤ n.toNat :=
        hend.elim (fun h => Nat.le_of_eq h.1) fun h => Nat.le_of_lt h.1
      have hk : (UInt64.ofNat rows.length).toNat = rows.length :=
        UInt64.toNat_ofNat_of_lt' (Nat.lt_of_le_of_lt hle n.toNat_lt)
      refine .inr ⟨hfirst, rows, x, y, asked, hp, hk.symm, rfl, hend.imp ?_ ?_⟩
      · rintro ⟨hlen, hend⟩
        exact ⟨by rw [hlen, UInt64.ofNat_toNat], hend⟩
      · rintro ⟨hlt, hbreaks⟩
        exact ⟨by rwa [UInt64.lt_iff_toNat_lt, hk], hbreaks⟩

/-- Heun's method asks twice in every step. With a pole at one it gets to the second stage of its
second step of a half. -/
theorem heun_calls_before_pole :
    let f : Slope Float := fun x _ =>
      if x < 1.0 then .ok (1.0 / (1.0 - x)) else .error .divisionByZero
    let run (h : Float) (n : UInt64) := standard.integrate "1/(1 - x)" 0.0 1.0 h n .heun
    (run 11.0 3).calls f = [] ∧ ((run 0.5 1).calls f).length = 4 ∧
      ∃ rows x y asked, Path f .heun 0.5 0 0.0 1.0 rows x y ∧ rows.length = 1 ∧
        (run 0.5 3).calls f = (0.0, 1.0) :: (rows.flatMap (Row.stagePoints 0.5) ++ asked) ∧
        Method.heun.BreaksOff f x y 0.5 asked .divisionByZero := by
  intro f run
  have hrejected : (run 11.0 3).run f = .error (.rejected (.stepSizeOutside .standard)) := by
    decide +kernel
  have hended : ((run 0.5 1).run f).isOk = true := by decide +kernel
  have hbroken : (run 0.5 3).run f = .error (.evaluationFailed 1 .divisionByZero) := by
    decide +kernel
  refine ⟨calls_of_integrate.1 _ hrejected, ?_, ?_⟩
  · obtain ⟨t, ht⟩ := exists_eq_ok_of_isOk hended
    exact (calls_of_integrate.2.1 t ht).2.2
  · obtain ⟨hk, -⟩ | ⟨-, rows, x, y, asked, hp, hlen, hcalls, ⟨hk, -⟩ | ⟨-, hbreaks⟩⟩ :=
      calls_of_integrate.2.2 1 _ hbroken
    · exact absurd hk (by decide)
    · exact absurd hk (by decide)
    · exact ⟨rows, x, y, asked, hp, hlen, hcalls, hbreaks⟩

end Solver

end InitialValue
