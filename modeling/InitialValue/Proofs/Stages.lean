import InitialValue.Proofs.Run

/-! Where a step asks for slopes. Every method asks where the step starts and then at
points that depend on the slopes it has. A step that ends has asked at the points its
diagnostics tell of. One that does not end has asked at the first of its stages, up to
a slope that is not there or a stage whose value is not finite. -/

namespace InitialValue

open Expression (EvalError Operation)
open Scalar (two isFinite)
open Sampling (Slope)

variable {α : Type} [Scalar α]

/-- The points at which a step from `(x, y)` with these diagnostics asked for its slopes. -/
def Diagnostics.stagePoints (x y h : α) : Diagnostics α → List (α × α)
  | .euler _ => [(x, y)]
  | .heun _ _ predictor _ => [(x, y), (x + h, predictor)]
  | .rungeKutta k1 k2 k3 _ _ =>
    [(x, y), (x + h / two, y + k1 * (h / two)), (x + h / two, y + k2 * (h / two)),
      (x + h, y + k3 * h)]

namespace Method

/-- How many slopes a step takes. -/
def stageCount : Method → Nat
  | .euler => 1
  | .heun => 2
  | .rungeKutta => 4

/-- Where a step from `(x, y)` asks for its next slope, after those it has. -/
def nextStage? (x y h : α) : Method → List α → Option (α × α)
  | _, [] => some (x, y)
  | .heun, [k1] => some (x + h, y + h * k1)
  | .rungeKutta, [k1] => some (x + h / two, y + k1 * (h / two))
  | .rungeKutta, [_, k2] => some (x + h / two, y + k2 * (h / two))
  | .rungeKutta, [_, _, k3] => some (x + h, y + k3 * h)
  | _, _ => none

/-- The name of the stage that follows so many slopes, in the message that its value is not
finite. -/
def stageName (m : Method) (slopes : Nat) : Operation :=
  match m with
  | .rungeKutta => .stage (slopes + 1)
  | .euler | .heun => .predictor

/-- The first stages of a step from `(x, y)` were asked for at these points and have these
slopes. -/
inductive Sampled (f : Slope α) (m : Method) (x y h : α) : List (α × α) → List α → Prop
  | start : Sampled f m x y h [] []
  | next {points : List (α × α)} {slopes : List α} {p : α × α} {k : α} :
    Sampled f m x y h points slopes → m.nextStage? x y h slopes = some p →
    (slopes ≠ [] → isFinite p.2 = true) → f p.1 p.2 = .ok k →
    Sampled f m x y h (points ++ [p]) (slopes ++ [k])

/-- A step from `(x, y)` breaks off for this cause after it has asked at these points: there is no
slope at the last of them, or the value of the next stage or the point reached is not finite. -/
inductive BreaksOff (f : Slope α) (m : Method) (x y h : α) : List (α × α) → EvalError → Prop
  | slope {points : List (α × α)} {slopes : List α} {p : α × α} {c : EvalError} :
    Sampled f m x y h points slopes → m.nextStage? x y h slopes = some p →
    (slopes ≠ [] → isFinite p.2 = true) → f p.1 p.2 = .error c →
      BreaksOff f m x y h (points ++ [p]) c
  | stage {points : List (α × α)} {slopes : List α} {p : α × α} :
    Sampled f m x y h points slopes → m.nextStage? x y h slopes = some p →
    slopes ≠ [] → isFinite p.2 = false →
      BreaksOff f m x y h points (.nonFinite (m.stageName slopes.length))
  | update {next : Step α} : (m.step x y h).run f = .ok next →
    (isFinite next.x && isFinite next.y) = false →
    BreaksOff f m x y h (next.diagnostics.stagePoints x y h) (.nonFinite .stepUpdate)

variable {f : Slope α} {m : Method} {x y h : α}

/-! ### Steps that end -/

theorem length_stagePoints (d : Diagnostics α) :
    (d.stagePoints x y h).length = d.method.stageCount := by
  cases d <;> rfl

/-- A step that ends has asked at the points its diagnostics tell of. -/
theorem calls_step {next : Step α} (hs : (m.step x y h).run f = .ok next) :
    (m.step x y h).calls f = next.diagnostics.stagePoints x y h := by
  obtain ⟨hm, -, ho⟩ := run_step_eq_ok_iff.mp hs
  obtain ⟨x', y', d⟩ := next
  subst hm
  cases d with
  | euler slope =>
    obtain ⟨h1, -⟩ := ho
    simp [Diagnostics.method, Diagnostics.stagePoints, step, Step.euler, Sampling.calls_bind, h1]
  | heun k1 k2 predictor average =>
    obtain ⟨h1, rfl, hp, h2, -⟩ := ho
    simp [Diagnostics.method, Diagnostics.stagePoints, step, Step.heun, Step.stage,
      Sampling.calls_bind, h1, hp, h2]
  | rungeKutta k1 k2 k3 k4 weighted =>
    obtain ⟨h1, s2, h2, s3, h3, s4, h4, -⟩ := ho
    simp [Diagnostics.method, Diagnostics.stagePoints, step, Step.rungeKutta, Step.stage,
      Sampling.calls_bind, h1, s2, h2, s3, h3, s4, h4]

/-! ### Steps that break off -/

/-- What is left of a step fails only in a way that breaks off the step, which has asked at these
points. -/
def Continues (f : Slope α) (m : Method) (x y h : α) (points : List (α × α))
    (rest : Sampling α EvalError (Step α)) : Prop :=
  ∀ c, rest.run f = .error c → BreaksOff f m x y h (points ++ rest.calls f) c

theorem continues_pure (points : List (α × α)) (next : Step α) :
    Continues f m x y h points (pure next) := by
  rintro c ⟨⟩

/-- A slope is asked for, and the step goes on with it. -/
theorem Sampled.continues_slope {points : List (α × α)} {slopes : List α} {x' y' : α}
    {g : α → Sampling α EvalError (Step α)} (hs : Sampled f m x y h points slopes)
    (hnext : m.nextStage? x y h slopes = some (x', y')) (hfin : slopes ≠ [] → isFinite y' = true)
    (hg : ∀ k, Sampled f m x y h (points ++ [(x', y')]) (slopes ++ [k]) →
      Continues f m x y h (points ++ [(x', y')]) (g k)) :
    Continues f m x y h points (Sampling.slope x' y' >>= g) := by
  intro c hc
  rw [Sampling.run_bind, Sampling.run_slope] at hc
  rw [Sampling.calls_bind, Sampling.calls_slope, Sampling.run_slope]
  cases hf : f x' y' with
  | error c' =>
    rw [hf] at hc
    cases hc
    exact .slope hs hnext hfin hf
  | ok k =>
    rw [hf, ok_bind] at hc
    have hk := hg k (hs.next hnext hfin hf) c hc
    rw [List.append_assoc] at hk
    exact hk

/-- The value of a later stage is checked before its slope is asked for. -/
theorem Sampled.continues_stage {points : List (α × α)} {slopes : List α} {x' y' : α}
    {g : α → α → Sampling α EvalError (Step α)} (hs : Sampled f m x y h points slopes)
    (hne : slopes ≠ []) (hnext : m.nextStage? x y h slopes = some (x', y'))
    (hg : ∀ k, Sampled f m x y h (points ++ [(x', y')]) (slopes ++ [k]) →
      Continues f m x y h (points ++ [(x', y')]) (g y' k)) :
    Continues f m x y h points
      (Step.stage (m.stageName slopes.length) y' >>= fun v => Sampling.slope x' v >>= g v) := by
  unfold Step.stage
  by_cases hfin : isFinite y' = true
  · rw [if_pos hfin]
    exact hs.continues_slope hnext (fun _ => hfin) hg
  · rw [if_neg hfin]
    rintro c ⟨⟩
    have hstage := BreaksOff.stage hs hnext hne (Bool.not_eq_true _ ▸ hfin)
    rwa [← List.append_nil points] at hstage

/-- Until it ends, a step asks at one stage after another. -/
theorem continues_step : Continues f m x y h [] (m.step x y h) := by
  have first : ∀ {m : Method} {g : α → Sampling α EvalError (Step α)},
      (∀ k1, Sampled f m x y h [(x, y)] [k1] → Continues f m x y h [(x, y)] (g k1)) →
      Continues f m x y h [] (Sampling.slope x y >>= g) := fun hg =>
    Sampled.start.continues_slope (by simp [nextStage?]) (by simp) hg
  cases m with
  | euler => exact first fun k1 _ => continues_pure _ _
  | heun =>
    refine first fun k1 h1 => h1.continues_stage (by simp) rfl fun k2 _ => ?_
    exact continues_pure _ _
  | rungeKutta =>
    refine first fun k1 h1 => h1.continues_stage (by simp) rfl fun k2 h2 => ?_
    refine h2.continues_stage (by simp) rfl fun k3 h3 => ?_
    refine h3.continues_stage (by simp) rfl fun k4 _ => ?_
    exact continues_pure _ _

/-- A step from which the run does not go on breaks off. -/
theorem breaksOff_of_leave {c : EvalError} (hl : Integration.leave f m h x y = .error c) :
    BreaksOff f m x y h ((m.step x y h).calls f) c := by
  unfold Integration.leave at hl
  cases hs : (m.step x y h).run f with
  | error c' =>
    rw [hs, error_bind, Except.error.injEq] at hl
    subst hl
    exact continues_step c' hs
  | ok next =>
    rw [hs, ok_bind] at hl
    rw [calls_step hs]
    split at hl
    · cases hl
    · next hfin =>
      cases hl
      exact .update hs (Bool.not_eq_true _ ▸ hfin)

end Method

end InitialValue
