import InitialValue.Proofs.Binary64.Spacing
import InitialValue.Proofs.Calls

/-! Which points a run asks at. The second coordinate is checked before every stage,
and both coordinates before every row. The first coordinate of a later stage is not
checked: where the end of a step is out of range, the step may ask for a slope at an
infinite `x` before the run breaks off there. No other point is infinite. -/

namespace InitialValue

open Scalar (two isFinite)
open Sampling (Slope)
open Integration (Path)

section Stages

variable {α : Type} [Scalar α] {f : Slope α} {m : Method} {x y h : α}

/-- A point at which a step from a row at `x` may ask for a slope. -/
structure Method.StagePoint (m : Method) (x h : α) (p : α × α) : Prop where
  fst_eq : p.1 = x ∨ m = .rungeKutta ∧ p.1 = x + h / two ∨ m ≠ .euler ∧ p.1 = x + h
  isFinite_snd : isFinite p.2 = true

theorem Step.Obeys.stagePoint {next : Step α} (ho : next.Obeys f x y h)
    (hy : Scalar.isFinite y = true) :
    ∀ p ∈ next.diagnostics.stagePoints x y h, next.diagnostics.method.StagePoint x h p := by
  obtain ⟨x', y', d⟩ := next
  cases d with
  | euler slope =>
    simp only [Diagnostics.stagePoints, List.forall_mem_cons]
    exact ⟨⟨.inl rfl, hy⟩, by simp⟩
  | heun k1 k2 predictor average =>
    obtain ⟨-, -, -, hp, -⟩ := ho
    simp only [Diagnostics.stagePoints, List.forall_mem_cons]
    exact ⟨⟨.inl rfl, hy⟩, ⟨.inr (.inr ⟨by simp [Diagnostics.method], rfl⟩), hp⟩, by simp⟩
  | rungeKutta k1 k2 k3 k4 weighted =>
    obtain ⟨-, -, h2, -, h3, -, h4, -⟩ := ho
    simp only [Diagnostics.stagePoints, List.forall_mem_cons]
    exact ⟨⟨.inl rfl, hy⟩, ⟨.inr (.inl ⟨rfl, rfl⟩), h2⟩, ⟨.inr (.inl ⟨rfl, rfl⟩), h3⟩,
      ⟨.inr (.inr ⟨by simp [Diagnostics.method], rfl⟩), h4⟩, by simp⟩

namespace Method

/-- The first stage is the row itself. -/
theorem stagePoint_of_nextStage? {slopes : List α} {p : α × α}
    (hnext : m.nextStage? x y h slopes = some p) (hy : isFinite y = true)
    (hp : slopes ≠ [] → isFinite p.2 = true) : m.StagePoint x h p := by
  unfold nextStage? at hnext
  split at hnext
  case h_1 =>
    cases hnext
    exact ⟨.inl rfl, hy⟩
  case h_6 => cases hnext
  all_goals
    cases hnext
    exact ⟨by simp, hp (by simp)⟩

theorem Sampled.stagePoint {points : List (α × α)} {slopes : List α}
    (hs : Sampled f m x y h points slopes) (hy : isFinite y = true) :
    ∀ p ∈ points, m.StagePoint x h p := by
  induction hs with
  | start => simp
  | next _ hnext hfin _ ih =>
    exact List.forall_mem_append.mpr ⟨ih, by simpa using stagePoint_of_nextStage? hnext hy hfin⟩

theorem BreaksOff.stagePoint {points : List (α × α)} {c : Expression.EvalError}
    (hb : m.BreaksOff f x y h points c) (hy : isFinite y = true) :
    ∀ p ∈ points, m.StagePoint x h p := by
  cases hb with
  | slope hs hnext hfin _ =>
    exact List.forall_mem_append.mpr ⟨hs.stagePoint hy,
      by simpa using stagePoint_of_nextStage? hnext hy hfin⟩
  | stage hs _ _ _ => exact hs.stagePoint hy
  | update hs _ =>
    obtain ⟨rfl, ho⟩ := run_step_eq_ok_iff.mp hs
    exact ho.stagePoint hy

end Method

end Stages

variable {f : Slope Float} {m : Method} {x y h : Float}

/-- The stages of a step are in range when its end is. -/
theorem Method.StagePoint.isFinite_fst {p : Float × Float} (hp : m.StagePoint x h p)
    (hx : x.isFinite = true) (hend : (x + h).isFinite = true) : p.1.isFinite = true := by
  obtain heq | ⟨-, heq⟩ | ⟨-, heq⟩ := hp.fst_eq <;> rw [heq]
  · exact hx
  · exact Binary64.isFinite_add_half hend
  · exact hend

/-- Steps that end lead from finite points to finite points, and ask at no others. -/
theorem Integration.Path.isFinite {step : Nat} {x' y' : Float} {rows : List (Row Float)}
    (hp : Path f m h step x y rows x' y') (hx : x.isFinite = true) (hy : y.isFinite = true) :
    (x'.isFinite = true ∧ y'.isFinite = true) ∧
      ∀ p ∈ rows.flatMap (Row.stagePoints h), p.1.isFinite = true ∧ p.2.isFinite = true := by
  induction hp with
  | here => exact ⟨⟨hx, hy⟩, by simp⟩
  | step hl _ ih =>
    obtain ⟨hs, hx', hy'⟩ := leave_eq_ok_iff.mp hl
    obtain ⟨hend, hpoints⟩ := ih hx' hy'
    refine ⟨hend, ?_⟩
    rw [List.flatMap_cons]
    refine List.forall_mem_append.mpr ⟨fun p hmem => ?_, hpoints⟩
    have ho := (Method.run_step_eq_ok_iff.mp hs).2
    have hstage := ho.stagePoint hy p hmem
    rw [ho.1] at hx'
    exact ⟨hstage.isFinite_fst hx hx', hstage.isFinite_snd⟩

namespace Solver

variable {s : Solver} {expression : String} {x0 y0 : Float} {n : UInt64}

/-- A point that a run asks at is finite, unless the run breaks off in the step that asks there. -/
theorem isFinite_or_breaksOff (hok : s.rejection? x0 y0 h n = none) :
    ∀ p ∈ (s.integrate expression x0 y0 h n m).calls f,
      (p.1.isFinite = true ∧ p.2.isFinite = true) ∨
      ∃ k c rows x y, (s.integrate expression x0 y0 h n m).run f =
        .error (.evaluationFailed k c) ∧ k < n ∧
        Path f m h 0 x0 y0 rows x y ∧ rows.length = k.toNat ∧ x.isFinite = true ∧
        m.StagePoint x h p := by
  obtain ⟨hx0, hy0, -⟩ := rejection?_eq_none_iff.mp hok
  obtain ⟨c, -, -, hcalls⟩ | ⟨-, rows, x, y, asked, hp, hcalls, hend⟩ :=
    course_of_integrate f m expression hok
  · rw [hcalls]
    simpa using .inl ⟨hx0, hy0⟩
  obtain ⟨⟨hx, hy⟩, hrows⟩ := hp.isFinite hx0 hy0
  rw [hcalls]
  refine List.forall_mem_cons.mpr ⟨.inl ⟨hx0, hy0⟩, List.forall_mem_append.mpr ⟨?_, ?_⟩⟩
  · exact fun p hmem => .inl (hrows p hmem)
  obtain ⟨-, rfl, -⟩ | ⟨c, hrun, ⟨-, -, -, rfl⟩ | ⟨hlt, hb⟩⟩ := hend
  · intro p hmem
    split at hmem
    · cases hmem
    · rw [List.mem_singleton.mp hmem]
      exact .inl ⟨hx, hy⟩
  · simpa using .inl ⟨hx, hy⟩
  · have hk : (UInt64.ofNat rows.length).toNat = rows.length :=
      UInt64.toNat_ofNat_of_lt' (hlt.trans n.toNat_lt)
    have hkn : UInt64.ofNat rows.length < n := by rwa [UInt64.lt_iff_toNat_lt, hk]
    intro p hmem
    exact .inr ⟨_, c, rows, x, y, hrun, hkn, hp, hk.symm, hx, hb.stagePoint hy p hmem⟩

/-- Every point at which a run asks for a slope has a finite second coordinate. The first one is
finite too, unless the run breaks off in the very step that asks there, whose end `x + h` is out of
range; this takes a step of 2^970 or more. -/
theorem points_of_integrate :
    (∀ p ∈ (s.integrate expression x0 y0 h n m).calls f, p.2.isFinite = true ∧
      (p.1.isFinite = true ∨
      ∃ k c rows x y, (s.integrate expression x0 y0 h n m).run f =
        .error (.evaluationFailed k c) ∧ k < n ∧
        Path f m h 0 x0 y0 rows x y ∧ rows.length = k.toNat ∧ (x + h).isFinite = false ∧
        (m = .rungeKutta ∧ p.1 = x + h / 2.0 ∨ m ≠ .euler ∧ p.1 = x + h))) ∧
    (|Binary64.value h| < 2 ^ (970 : ℤ) → ∀ p ∈ (s.integrate expression x0 y0 h n m).calls f,
      p.1.isFinite = true ∧ p.2.isFinite = true) := by
  cases hok : s.rejection? x0 y0 h n with
  | some r =>
    rw [calls_integrate, hok]
    simp
  | none =>
    have hh := (rejection?_eq_none_iff.mp hok).2.2.2.1.1
    refine ⟨fun p hmem => ?_, fun hsmall p hmem => ?_⟩
    · obtain ⟨hx, hy⟩ | ⟨k, c, rows, x, y, hrun, hk, hp, hlen, hx, hstage⟩ :=
        isFinite_or_breaksOff hok p hmem
      · exact ⟨hy, .inl hx⟩
      · refine ⟨hstage.isFinite_snd, or_iff_not_imp_left.mpr fun hinf => ?_⟩
        have hend : ¬ (x + h).isFinite = true := mt (hstage.isFinite_fst hx) hinf
        have hne : p.1 ≠ x := fun heq => hinf (heq ▸ hx)
        exact ⟨k, c, rows, x, y, hrun, hk, hp, hlen, Bool.not_eq_true _ ▸ hend,
          hstage.fst_eq.resolve_left hne⟩
    · obtain hfin | ⟨k, c, rows, x, y, -, -, -, -, hx, hstage⟩ := isFinite_or_breaksOff hok p hmem
      · exact hfin
      · exact ⟨hstage.isFinite_fst hx (Binary64.isFinite_add_of_lt hx hh hsmall),
          hstage.isFinite_snd⟩

/-- Where wide steps are allowed, Heun's method asks at an infinite `x`. -/
theorem exists_wide_step : ∃ s : Solver, s.rejection? 1.7e308 1.0 1e308 1 = none ∧
    (s.integrate "0" 1.7e308 1.0 1e308 1 .heun).calls (fun _ _ => .ok 0.0) =
      [(1.7e308, 1.0), (1.7e308, 1.0), (Binary64.infinity, 1.0)] :=
  ⟨⟨⟨10000, 1e-8, 1e308⟩, by decide +kernel⟩, by decide +kernel, by decide +kernel⟩

/-- The standard limits keep a run of Heun's method within the range. A wide step asks out of range
and is the last one. -/
theorem points_of_heun :
    (∀ p ∈ (standard.integrate "x + y" 0.0 1.0 0.5 2 .heun).calls fun x y => .ok (x + y),
      p.1.isFinite = true ∧ p.2.isFinite = true) ∧
    ∃ (s : Solver) (c : _) (x y : Float),
      (s.integrate "0" 1.7e308 1.0 1e308 1 .heun).run (fun _ _ => .ok 0.0) =
        .error (.evaluationFailed 0 c) ∧
      Path (fun _ _ => .ok 0.0) .heun 1e308 0 1.7e308 1.0 [] x y ∧
        (x + 1e308).isFinite = false := by
  constructor
  · have hhalf : Binary64.value 0.5 = (2 ^ 52 : ℕ) * 2 ^ (-53 : ℤ) := rfl
    have habs : |Binary64.value 0.5| < 1 := by
      rw [hhalf]
      norm_num
    exact points_of_integrate.2 (habs.trans_le (one_le_zpow₀ (by norm_num) (by norm_num)))
  · obtain ⟨s, -, hcalls⟩ := exists_wide_step
    have hmem : (Binary64.infinity, 1.0) ∈
        (s.integrate "0" 1.7e308 1.0 1e308 1 .heun).calls fun _ _ => .ok 0.0 := by simp [hcalls]
    obtain ⟨-, hfin | ⟨k, c, rows, x, y, hrun, hk, hp, hlen, hend, -⟩⟩ :=
      points_of_integrate.1 _ hmem
    · cases hfin
    · obtain rfl : k = 0 := UInt64.lt_one_iff.mp hk
      obtain rfl := List.length_eq_zero_iff.mp hlen
      exact ⟨s, c, x, y, hrun, hp, hend⟩

/-- Admitted arguments do not keep all points in range. -/
theorem exists_point_out_of_range :
    ∃ s : Solver, s.rejection? 1.7e308 1.0 1e308 1 = none ∧
      ∃ p ∈ (s.integrate "0" 1.7e308 1.0 1e308 1 .heun).calls fun _ _ => .ok 0.0,
        p.1.isFinite = false := by
  obtain ⟨s, hok, hcalls⟩ := exists_wide_step
  exact ⟨s, hok, (Binary64.infinity, 1.0), by simp [hcalls], rfl⟩

end Solver

end InitialValue
