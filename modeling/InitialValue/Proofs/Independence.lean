import InitialValue.Proofs.Integration
import InitialValue.Proofs.Parts
import Mathlib.Data.List.Forall2

/-! What a solution does not depend on. The value of a tree is decided by the values of
the symbols in it, so a right-hand side that does not mention `x` has one slope at each
height, and one that does not mention `y` has one slope on each vertical line. Two runs
of such a right-hand side go side by side: the coordinate that is mentioned and the
slopes agree row by row, however far apart the other coordinate drifts. -/

namespace InitialValue

open Sampling (Slope)
open Scalar (two isFinite)

/-! ### Trees -/

namespace Expression

open InitialValue.Expression.Tree (Within)

theorem Symbol.value_eq_of_ne_x {s : Symbol} (hs : s ≠ .x) (x x' y : Float) :
    s.value x y = s.value x' y := by
  cases s with
  | x => exact absurd rfl hs
  | y | constant => rfl

theorem Symbol.value_eq_of_ne_y {s : Symbol} (hs : s ≠ .y) (x y y' : Float) :
    s.value x y = s.value x y' := by
  cases s with
  | y => exact absurd rfl hs
  | x | constant => rfl

namespace Tree

variable {x y x' y' : Float}

theorem evaluateAll_congr {ts : List Tree} (h : ∀ t ∈ ts, t.evaluate x y = t.evaluate x' y') :
    evaluateAll x y ts = evaluateAll x' y' ts := by
  induction ts with
  | nil => rfl
  | cons t ts ih =>
    rw [List.forall_mem_cons] at h
    rw [evaluateAll, evaluateAll, h.1, ih h.2]

/-- The symbols in a tree decide its value, and its failure. -/
theorem evaluate_congr {t : Tree} (h : ∀ s, Within (.symbol s) t → s.value x y = s.value x' y') :
    t.evaluate x y = t.evaluate x' y' := by
  induction t with
  | literal v => rfl
  | symbol s => exact congrArg Except.ok (h s .refl)
  | binary op left right ihl ihr =>
    simp only [within_binary_iff, reduceCtorEq, false_or, or_imp, forall_and] at h
    rw [evaluate, evaluate, ihl h.1, ihr h.2]
  | signed sign operand ih =>
    simp only [within_signed_iff, reduceCtorEq, false_or] at h
    rw [evaluate, evaluate, ih h]
  | call f args ih =>
    have hargs := evaluateAll_congr fun a ha => ih a ha fun s hs => h s (.child ha hs)
    rw [evaluate, evaluate, hargs]

end Tree

end Expression

/-! ### Slopes and steps -/

/-- One slope at each height. -/
def Autonomous {α : Type} (f : Slope α) : Prop := ∀ x x' y, f x y = f x' y

/-- One slope on each vertical line. -/
def Quadrature {α : Type} (f : Slope α) : Prop := ∀ x y y', f x y = f x y'

/-- The slopes that a step asked for. -/
def Diagnostics.sampled {α : Type} : Diagnostics α → List α
  | .euler slope => [slope]
  | .heun k1 k2 _ _ => [k1, k2]
  | .rungeKutta k1 k2 k3 k4 _ => [k1, k2, k3, k4]

namespace Expression

open InitialValue.Expression.Tree (Within)

variable {e : Expression}

theorem autonomous_evaluate (he : ¬ Within (.symbol .x) e.root) : Autonomous e.evaluate := by
  intro x x' y
  have hroot : e.root.evaluate x y = e.root.evaluate x' y := Tree.evaluate_congr fun s hs =>
    Symbol.value_eq_of_ne_x (fun hx => he (hx ▸ hs)) x x' y
  rw [evaluate, evaluate, hroot]

theorem quadrature_evaluate (he : ¬ Within (.symbol .y) e.root) : Quadrature e.evaluate := by
  intro x y y'
  have hroot : e.root.evaluate x y = e.root.evaluate x y' := Tree.evaluate_congr fun s hs =>
    Symbol.value_eq_of_ne_y (fun hy => he (hy ▸ hs)) x y y'
  rw [evaluate, evaluate, hroot]

end Expression

section Slopes

variable {α : Type} {f : Slope α} {x y k : α}

theorem Autonomous.slope_at (hf : Autonomous f) (hk : f x y = .ok k) (x' : α) : f x' y = .ok k :=
  (hf x' x y).trans hk

theorem Quadrature.slope_eq (hf : Quadrature f) {y' k' : α} (hk : f x y = .ok k)
    (hk' : f x y' = .ok k') : k = k' :=
  Except.ok.inj (hk.symm.trans ((hf x y y').trans hk'))

end Slopes

variable {α : Type} [Scalar α] {f : Slope α} {m : Method} {x x' y y' h : α}

namespace Step

variable {next next' : Step α}

/-- At another `x` the step is the same one, moved there. -/
theorem Obeys.move (hf : Autonomous f) (ho : next.Obeys f x y h) (x' : α) :
    Obeys f x' y h ⟨x' + h, next.y, next.diagnostics⟩ := by
  obtain ⟨x1, y1, d⟩ := next
  cases d with
  | euler slope =>
    obtain ⟨-, h1, hy⟩ := ho
    exact ⟨rfl, hf.slope_at h1 _, hy⟩
  | heun k1 k2 predictor average =>
    obtain ⟨-, h1, hp, s2, h2, hrest⟩ := ho
    exact ⟨rfl, hf.slope_at h1 _, hp, s2, hf.slope_at h2 _, hrest⟩
  | rungeKutta k1 k2 k3 k4 weighted =>
    obtain ⟨-, h1, s2, h2, s3, h3, s4, h4, hrest⟩ := ho
    exact ⟨rfl, hf.slope_at h1 _, s2, hf.slope_at h2 _, s3, hf.slope_at h3 _, s4,
      hf.slope_at h4 _, hrest⟩

/-- At another height the step has the same slopes. -/
theorem Obeys.sampled_eq (hf : Quadrature f) (ho : next.Obeys f x y h) (ho' : next'.Obeys f x y' h)
    (hm : next.diagnostics.method = next'.diagnostics.method) :
    next.diagnostics.sampled = next'.diagnostics.sampled := by
  obtain ⟨x1, y1, d⟩ := next
  obtain ⟨x1', y1', d'⟩ := next'
  cases d with
  | euler slope =>
    cases d' with
    | euler slope' =>
      obtain ⟨-, h1, -⟩ := ho
      obtain ⟨-, h1', -⟩ := ho'
      simp only [Diagnostics.sampled, hf.slope_eq h1 h1']
    | heun | rungeKutta => cases hm
  | heun k1 k2 predictor average =>
    cases d' with
    | heun k1' k2' predictor' average' =>
      obtain ⟨-, h1, -, -, h2, -⟩ := ho
      obtain ⟨-, h1', -, -, h2', -⟩ := ho'
      simp only [Diagnostics.sampled, hf.slope_eq h1 h1', hf.slope_eq h2 h2']
    | euler | rungeKutta => cases hm
  | rungeKutta k1 k2 k3 k4 weighted =>
    cases d' with
    | rungeKutta k1' k2' k3' k4' weighted' =>
      obtain ⟨-, h1, -, h2, -, h3, -, h4, -⟩ := ho
      obtain ⟨-, h1', -, h2', -, h3', -, h4', -⟩ := ho'
      simp only [Diagnostics.sampled, hf.slope_eq h1 h1', hf.slope_eq h2 h2', hf.slope_eq h3 h3',
        hf.slope_eq h4 h4']
    | euler | heun => cases hm

/-- Both slopes at the middle of a step are the one slope there. -/
theorem Obeys.middle_slopes_eq (hf : Quadrature f) {k1 k2 k3 k4 weighted x1 y1 : α}
    (ho : Obeys f x y h ⟨x1, y1, .rungeKutta k1 k2 k3 k4 weighted⟩) : k2 = k3 := by
  obtain ⟨-, -, -, h2, -, h3, -⟩ := ho
  exact hf.slope_eq h2 h3

end Step

/-! ### Runs side by side -/

namespace Integration

/-- Two runs whose points stay related have rows that compare one by one. -/
theorem forall₂_record {S : α → α → α → α → Prop} {R : Row α → Row α → Prop}
    (hstep : ∀ {x y x' y' next next'}, S x y x' y' → leave f m h x y = .ok next →
      leave f m h x' y' = .ok next' → S next.x next.y next'.x next'.y ∧
      ∀ step, R ⟨step, x, y, next.diagnostics.initialSlope, some next.diagnostics⟩
        ⟨step, x', y', next'.diagnostics.initialSlope, some next'.diagnostics⟩)
    (hlast : ∀ {x y x' y' slope slope'}, S x y x' y' → f x y = .ok slope → f x' y' = .ok slope' →
      ∀ step, R ⟨step, x, y, slope, none⟩ ⟨step, x', y', slope', none⟩)
    {left step : Nat} {rows rows' : List (Row α)} (hs : S x y x' y')
    (hr : record f m h left step x y = .ok rows) (hr' : record f m h left step x' y' = .ok rows') :
    List.Forall₂ R rows rows' := by
  induction left generalizing step x y x' y' rows rows' with
  | zero =>
    obtain ⟨slope, hslope, rfl⟩ := record_zero_eq_ok_iff.mp hr
    obtain ⟨slope', hslope', rfl⟩ := record_zero_eq_ok_iff.mp hr'
    exact .cons (hlast hs hslope hslope' _) .nil
  | succ left ih =>
    obtain ⟨next, hl, rest, hrest, rfl⟩ := record_succ_eq_ok_iff.mp hr
    obtain ⟨next', hl', rest', hrest', rfl⟩ := record_succ_eq_ok_iff.mp hr'
    obtain ⟨hs', hrow⟩ := hstep hs hl hl'
    exact .cons (hrow _) (ih hs' hrest hrest')

/-- The rows differ in their `x` at most. -/
def SameHeight (r r' : Row α) : Prop :=
  r.y = r'.y ∧ r.slope = r'.slope ∧ r.diagnostics = r'.diagnostics

/-- The rows have the same `x` and the same slopes. -/
def SameSlopes (r r' : Row α) : Prop :=
  r.x = r'.x ∧ r.slope = r'.slope ∧
    r.diagnostics.map Diagnostics.sampled = r'.diagnostics.map Diagnostics.sampled

variable {left step : Nat} {rows rows' : List (Row α)}

theorem sameHeight_of_autonomous (hf : Autonomous f) (hr : record f m h left step x y = .ok rows)
    (hr' : record f m h left step x' y = .ok rows') : List.Forall₂ SameHeight rows rows' := by
  refine forall₂_record (S := fun _ y _ y' => y = y') ?_ ?_ rfl hr hr'
  · rintro x y x' _ next next' rfl hl hl'
    obtain ⟨hm, ho⟩ := Method.run_step_eq_ok_iff.mp (leave_eq_ok_iff.mp hl).1
    have hmoved : (m.step x' y h).run f = .ok ⟨x' + h, next.y, next.diagnostics⟩ :=
      Method.run_step_eq_ok_iff.mpr ⟨hm, ho.move hf x'⟩
    obtain rfl := Except.ok.inj (hmoved.symm.trans (leave_eq_ok_iff.mp hl').1)
    exact ⟨rfl, fun step => ⟨rfl, rfl, rfl⟩⟩
  · rintro x y x' _ slope slope' rfl hslope hslope' step
    obtain rfl := Except.ok.inj ((hf.slope_at hslope x').symm.trans hslope')
    exact ⟨rfl, rfl, rfl⟩

theorem sameSlopes_of_quadrature (hf : Quadrature f) (hr : record f m h left step x y = .ok rows)
    (hr' : record f m h left step x y' = .ok rows') : List.Forall₂ SameSlopes rows rows' := by
  refine forall₂_record (S := fun x _ x' _ => x = x') ?_ ?_ rfl hr hr'
  · rintro x y _ y' next next' rfl hl hl'
    have hslope := hf.slope_eq (slope_of_leave hl) (slope_of_leave hl')
    obtain ⟨hm, ho⟩ := Method.run_step_eq_ok_iff.mp (leave_eq_ok_iff.mp hl).1
    obtain ⟨hm', ho'⟩ := Method.run_step_eq_ok_iff.mp (leave_eq_ok_iff.mp hl').1
    have hsampled := ho.sampled_eq hf ho' (hm.trans hm'.symm)
    exact ⟨ho.1.trans ho'.1.symm, fun step => ⟨rfl, hslope, congrArg some hsampled⟩⟩
  · rintro x y _ y' slope slope' rfl hslope hslope' step
    exact ⟨rfl, hf.slope_eq hslope hslope', rfl⟩

theorem middle_slopes_eq_of_quadrature (hf : Quadrature f)
    (hr : record f m h left step x y = .ok rows) {r : Row α} (hmem : r ∈ rows)
    {k1 k2 k3 k4 weighted : α} (hd : r.diagnostics = some (.rungeKutta k1 k2 k3 k4 weighted)) :
    k2 = k3 := by
  obtain ⟨⟨x1, y1, d⟩, hl, rfl⟩ := (recorded_of_record hr).leave_of_diagnostics hmem hd
  exact (Method.run_step_eq_ok_iff.mp (leave_eq_ok_iff.mp hl).1).2.middle_slopes_eq hf

end Integration

namespace Solver

open InitialValue.Expression.Tree (Within)

/-- A right-hand side that does not mention `x` has solutions with the same heights, slopes and
diagnostics from any two starts at one height. One that does not mention `y` has solutions with the
same slopes from any two starts above one another, and the classic method then takes the slope at
the middle of a step twice. -/
theorem integrate_independent_of_absent_variable (e : Expression) (s s' : Solver)
    (source source' : String) (h : Float) (n : UInt64) (m : Method) :
    (¬ Within (.symbol .x) e.root → ∀ x0 x0' y0 t t',
      (s.integrate source x0 y0 h n m).run e.evaluate = .ok t →
      (s'.integrate source' x0' y0 h n m).run e.evaluate = .ok t' →
      List.Forall₂ (fun r r' => r.y = r'.y ∧ r.slope = r'.slope ∧ r.diagnostics = r'.diagnostics)
        t.rows t'.rows) ∧
    (¬ Within (.symbol .y) e.root → ∀ x0 y0 y0' t t',
      (s.integrate source x0 y0 h n m).run e.evaluate = .ok t →
      (s'.integrate source' x0 y0' h n m).run e.evaluate = .ok t' →
      List.Forall₂ (fun r r' => r.x = r'.x ∧ r.slope = r'.slope ∧
        r.diagnostics.map Diagnostics.sampled = r'.diagnostics.map Diagnostics.sampled)
          t.rows t'.rows ∧
      ∀ r ∈ t.rows, ∀ k1 k2 k3 k4 weighted,
        r.diagnostics = some (.rungeKutta k1 k2 k3 k4 weighted) → k2 = k3) := by
  constructor
  · intro hx x0 x0' y0 t t' ht ht'
    obtain ⟨-, rows, hr, rfl⟩ := run_integrate_eq_ok_iff.mp ht
    obtain ⟨-, rows', hr', rfl⟩ := run_integrate_eq_ok_iff.mp ht'
    exact Integration.sameHeight_of_autonomous (Expression.autonomous_evaluate hx) hr hr'
  · intro hy x0 y0 y0' t t' ht ht'
    have hf := Expression.quadrature_evaluate hy
    obtain ⟨-, rows, hr, rfl⟩ := run_integrate_eq_ok_iff.mp ht
    obtain ⟨-, rows', hr', rfl⟩ := run_integrate_eq_ok_iff.mp ht'
    refine ⟨Integration.sameSlopes_of_quadrature hf hr hr',
      fun r hmem k1 k2 k3 k4 weighted hd => ?_⟩
    exact Integration.middle_slopes_eq_of_quadrature hf hr hmem hd

/-- A solver for few and large steps. -/
def coarse : Solver := ⟨⟨16, 0.25, 2.0⟩, by decide +kernel⟩

/-- Growth with saturation from two starts at the same height, and the integral of `x * x` from two
heights, each time by two solvers. -/
theorem integrate_saturation_and_square :
    let saturation : Expression :=
      ⟨"y*(1 - y)", .binary .mul (.symbol .y) (.binary .sub (.literal 1.0) (.symbol .y))⟩
    let square : Expression := ⟨"x*x", .binary .mul (.symbol .x) (.symbol .x)⟩
    (∃ t t', (standard.integrate "y*(1 - y)" 0.0 0.25 0.5 3 .heun).run saturation.evaluate = .ok t ∧
      (coarse.integrate "y*(1 - y)" (-7.0) 0.25 0.5 3 .heun).run saturation.evaluate = .ok t' ∧
      List.Forall₂ (fun r r' => r.y = r'.y ∧ r.slope = r'.slope ∧ r.diagnostics = r'.diagnostics)
        t.rows t'.rows) ∧
    ∃ t t', (standard.integrate "x*x" 1.0 0.0 (-0.5) 2 .rungeKutta).run square.evaluate = .ok t ∧
      (coarse.integrate "x*x" 1.0 1e300 (-0.5) 2 .rungeKutta).run square.evaluate = .ok t' ∧
      List.Forall₂ (fun r r' => r.x = r'.x ∧ r.slope = r'.slope ∧
        r.diagnostics.map Diagnostics.sampled = r'.diagnostics.map Diagnostics.sampled)
          t.rows t'.rows ∧
      ∀ r ∈ t.rows, ∀ k1 k2 k3 k4 weighted,
        r.diagnostics = some (.rungeKutta k1 k2 k3 k4 weighted) → k2 = k3 := by
  intro saturation square
  obtain ⟨t₁, ht₁⟩ := exists_eq_ok_of_isOk
    (show ((standard.integrate "y*(1 - y)" 0.0 0.25 0.5 3 .heun).run
    saturation.evaluate).isOk = true by decide +kernel)
  obtain ⟨t₁', ht₁'⟩ := exists_eq_ok_of_isOk
    (show ((coarse.integrate "y*(1 - y)" (-7.0) 0.25 0.5 3 .heun).run
    saturation.evaluate).isOk = true by decide +kernel)
  obtain ⟨t₂, ht₂⟩ := exists_eq_ok_of_isOk
    (show ((standard.integrate "x*x" 1.0 0.0 (-0.5) 2 .rungeKutta).run
    square.evaluate).isOk = true by decide +kernel)
  obtain ⟨t₂', ht₂'⟩ := exists_eq_ok_of_isOk
    (show ((coarse.integrate "x*x" 1.0 1e300 (-0.5) 2 .rungeKutta).run
    square.evaluate).isOk = true by decide +kernel)
  have hx : ¬ Within (.symbol .x) saturation.root := by simp [saturation]
  have hy : ¬ Within (.symbol .y) square.root := by simp [square]
  refine ⟨⟨t₁, t₁', ht₁, ht₁', ?_⟩, t₂, t₂', ht₂, ht₂', ?_⟩
  · exact (integrate_independent_of_absent_variable saturation _ _ _ _ _ _ _).1 hx _ _
      _ _ _ ht₁ ht₁'
  · exact (integrate_independent_of_absent_variable square _ _ _ _ _ _ _).2 hy _ _ _ _ _ ht₂ ht₂'

end Solver

end InitialValue
