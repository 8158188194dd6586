import InitialValue.Proofs.Binary64.Spacing
import InitialValue.Proofs.Finiteness

/-! The grid of `x` on which a solution is recorded. It is made by adding the step size
again and again, whatever the method and the slopes are, and it never turns back. But
it does not always advance: a step that is lost in the rounding is lost for good. So
the last step tells whether all of them advanced, and a start that is not too far out
for the step size is enough for that. -/

namespace InitialValue

open Binary64 (value Rounds)
open Sampling (Slope)

namespace Integration

variable {α : Type} [Scalar α] {f : Slope α} {m : Method} {h : α}

/-- The points from `x` on that are reached by `n` steps of size `h`. -/
def grid (h : α) : (n : Nat) → α → List α
  | 0, x => [x]
  | n + 1, x => x :: grid h n (x + h)

theorem mem_grid_self (n : Nat) (x : α) : x ∈ grid h n x := by
  cases n <;> simp [grid]

/-- The rows of a run lie on the grid. -/
theorem map_x_of_record {left step : Nat} {x y : α} {rows : List (Row α)}
    (hr : record f m h left step x y = .ok rows) : rows.map Row.x = grid h left x := by
  induction left generalizing step x y rows with
  | zero =>
    obtain ⟨slope, -, rfl⟩ := record_zero_eq_ok_iff.mp hr
    rfl
  | succ left ih =>
    obtain ⟨next, hl, rest, hrest, rfl⟩ := record_succ_eq_ok_iff.mp hr
    have ho := (Method.run_step_eq_ok_iff.mp (leave_eq_ok_iff.mp hl).1).2
    rw [List.map_cons, ih hrest, ho.1]
    rfl

end Integration

open Integration (grid mem_grid_self)

/-! ### Directions -/

variable {h x : Float}

/-- `b` is further than `a` in the direction of steps of size `h`. -/
def Ahead (h a b : Float) : Prop := if 0.0 < h then a < b else b < a

/-- The position of a value in the direction of steps of size `h`. -/
def along (h x : Float) : ℚ := if 0 < value h then value x else -value x

theorem ahead_iff {a b : Float} (hh : h.isFinite = true) (ha : a.isFinite = true)
    (hb : b.isFinite = true) : Ahead h a b ↔ along h a < along h b := by
  have hpos : 0.0 < h ↔ 0 < value h := Binary64.lt_iff rfl (Binary64.isNaN_eq_false hh)
  unfold Ahead along
  by_cases h0 : 0 < value h
  · rw [if_pos (hpos.mpr h0), if_pos h0, if_pos h0]
    exact Binary64.lt_iff (Binary64.isNaN_eq_false ha) (Binary64.isNaN_eq_false hb)
  · rw [if_neg (mt hpos.mp h0), if_neg h0, if_neg h0, neg_lt_neg_iff]
    exact Binary64.lt_iff (Binary64.isNaN_eq_false hb) (Binary64.isNaN_eq_false ha)

theorem abs_along (h x : Float) : |along h x| = |value x| := by
  unfold along
  split_ifs
  · rfl
  · exact abs_neg _

/-- A step in either direction, seen as one towards larger values. -/
theorem exists_step_up (hx : (x + h).isFinite = true) (hne : value h ≠ 0) :
    ∃ a b y : Float, a.isFinite = true ∧ b.isFinite = true ∧ 0 < value b ∧
      Rounds (value a + value b) y.toModel.unpack ∧ along h x = value a ∧
        along h (x + h) = value y ∧
      |value h| = value b := by
  obtain ⟨ha, hb⟩ := Binary64.isFinite_of_add hx
  have hsum := Binary64.rounds_add ha hb
  unfold along
  rcases lt_or_gt_of_ne hne with hneg | hpos
  · refine ⟨-x, -h, -(x + h), (Binary64.isFinite_neg x).trans ha,
      (Binary64.isFinite_neg h).trans hb, ?_⟩
    simp only [if_neg hneg.not_gt, Binary64.value_neg, abs_of_neg hneg, Left.neg_pos_iff, and_true]
    refine ⟨hneg, ?_⟩
    rw [Binary64.unpack_neg, ← neg_add]
    exact hsum.neg
  · exact ⟨x, h, x + h, ha, hb, hpos, hsum, if_pos hpos, if_pos hpos, abs_of_pos hpos⟩

section Advance

variable (hx : (x + h).isFinite = true) (hne : value h ≠ 0)

include hx hne

/-- A step never goes back. -/
theorem along_le_along_add : along h x ≤ along h (x + h) := by
  obtain ⟨a, b, y, ha, hb, hpos, hsum, hxa, hxy, -⟩ := exists_step_up hx hne
  rw [hxa, hxy]
  exact hsum.ge_of_ge a (le_add_of_nonneg_right hpos.le)

theorem along_lt_along_add (hle : |value x| ≤ 2 ^ 52 * |value h|) :
    along h x < along h (x + h) := by
  obtain ⟨a, b, y, ha, hb, hpos, hsum, hxa, hxy, hhb⟩ := exists_step_up hx hne
  rw [← abs_along h, hxa, hhb] at hle
  rw [hxa, hxy]
  exact Binary64.lt_of_rounds_add ha hb hpos hle hsum

theorem along_add_le (hle : |value x| + |value h| ≤ 2 ^ 52 * |value h|) :
    along h (x + h) ≤ along h x + 2 * |value h| := by
  obtain ⟨a, b, y, ha, hb, hpos, hsum, hxa, hxy, hhb⟩ := exists_step_up hx hne
  rw [← abs_along h, hxa, hhb] at hle
  rw [hxa, hxy, hhb]
  exact Binary64.le_of_rounds_add ha hb hpos hle hsum

/-- A step that does not advance is followed by no other that does. -/
theorem along_lt_of_next_lt (hnext : along h (x + h) < along h (x + h + h)) :
    along h x < along h (x + h) := by
  refine lt_of_le_of_ne (along_le_along_add hx hne) fun hlost => ?_
  have hvalue : value (x + h) = value x := by
    unfold along at hlost
    split_ifs at hlost
    · exact hlost.symm
    · exact (neg_injective hlost).symm
  rw [Binary64.add_add_of_value_eq hx hne hvalue] at hnext
  exact lt_irrefl _ hnext

omit hx

/-! ### Grids -/

variable {n : Nat}

theorem along_le_of_mem_grid (hfin : ∀ a ∈ grid h n x, a.isFinite = true) :
    ∀ a ∈ grid h n x, along h x ≤ along h a := by
  induction n generalizing x with
  | zero => simp [grid]
  | succ n ih =>
    obtain ⟨-, htail⟩ := List.forall_mem_cons.mp hfin
    have hstep := along_le_along_add (htail _ (mem_grid_self n _)) hne
    exact List.forall_mem_cons.mpr ⟨le_rfl, fun a ha => hstep.trans (ih htail a ha)⟩

/-- A grid never turns back. -/
theorem pairwise_le_grid (hfin : ∀ a ∈ grid h n x, a.isFinite = true) :
    (grid h n x).Pairwise fun a b => along h a ≤ along h b := by
  induction n generalizing x with
  | zero => simp [grid]
  | succ n ih =>
    exact List.pairwise_cons.mpr
      ⟨fun a ha => along_le_of_mem_grid hne hfin a (List.mem_cons_of_mem _ ha),
        ih (List.forall_mem_cons.mp hfin).2⟩

/-- A grid that advances at the first step and from there on advances. -/
theorem pairwise_lt_grid_succ (hfin : ∀ a ∈ grid h (n + 1) x, a.isFinite = true)
    (hstep : along h x < along h (x + h))
    (htail : (grid h n (x + h)).Pairwise fun a b => along h a < along h b) :
    (grid h (n + 1) x).Pairwise fun a b => along h a < along h b := by
  have hfin' := (List.forall_mem_cons.mp hfin).2
  exact List.pairwise_cons.mpr
    ⟨fun a ha => hstep.trans_le (along_le_of_mem_grid hne hfin' a ha), htail⟩

/-- A grid advances when its last step does. -/
theorem pairwise_lt_grid_of_last (hfin : ∀ a ∈ grid h n x, a.isFinite = true)
    (hlast : ∀ i a b, i + 1 = n → (grid h n x)[i]? = some a → (grid h n x)[i + 1]? = some b →
      along h a < along h b) : (grid h n x).Pairwise fun a b => along h a < along h b := by
  induction n generalizing x with
  | zero => simp [grid]
  | succ n ih =>
    have hfin' := (List.forall_mem_cons.mp hfin).2
    have htail := ih hfin' fun i a b hi ha hb => hlast (i + 1) a b (by omega) ha hb
    refine pairwise_lt_grid_succ hne hfin ?_ htail
    -- The first step advances because the next one does, if there is one.
    cases n with
    | zero => exact hlast 0 x (x + h) rfl rfl rfl
    | succ n =>
      have hnext := (List.pairwise_cons.mp htail).1 (x + h + h) (mem_grid_self n _)
      exact along_lt_of_next_lt (hfin' _ (mem_grid_self _ _)) hne hnext

/-- A grid advances when its start is not too far out. -/
theorem pairwise_lt_grid_of_le (hfin : ∀ a ∈ grid h n x, a.isFinite = true)
    (hle : |value x| + (2 * n + 1) * |value h| ≤ 2 ^ 52 * |value h|) :
    (grid h n x).Pairwise fun a b => along h a < along h b := by
  induction n generalizing x with
  | zero => simp [grid]
  | succ n ih =>
    have hfin' := (List.forall_mem_cons.mp hfin).2
    have hxh := hfin' _ (mem_grid_self n _)
    have habs := abs_nonneg (value h)
    have hroom : 0 ≤ (n : ℚ) * |value h| := mul_nonneg (Nat.cast_nonneg n) habs
    push_cast at hle
    -- A step moves the start out by less than two, so that there is room for the steps that are
    -- left.
    have hstep : |value (x + h)| ≤ |value x| + 2 * |value h| := by
      have hback := along_le_along_add hxh hne
      have hahead := along_add_le hxh hne (by linarith)
      rw [← abs_along h x, ← abs_along h (x + h), abs_le]
      constructor
      · linarith [neg_abs_le (along h x)]
      · linarith [le_abs_self (along h x)]
    exact pairwise_lt_grid_succ hne hfin (along_lt_along_add hxh hne (by linarith))
      (ih hfin' (by linarith))

end Advance

/-! ### Solutions -/

namespace Solver

variable {s : Solver} {f : Slope Float} {m : Method} {expression : String}
  {x0 y0 h : Float} {n : UInt64}
  {t : Trajectory}

/-- Solutions with the same start, step size and number of steps have their rows at the same `x`. -/
theorem xs_of_integrate (ht : (s.integrate expression x0 y0 h n m).run f = .ok t) :
    t.xs = grid h n.toNat x0 := by
  obtain ⟨-, rows, hr, rfl⟩ := run_integrate_eq_ok_iff.mp ht
  exact Integration.map_x_of_record hr

theorem value_ne_zero (hok : s.rejection? x0 y0 h n = none) : h.isFinite = true ∧ value h ≠ 0 := by
  obtain ⟨-, -, -, ⟨hh, hne⟩, -⟩ := rejection?_eq_none_iff.mp hok
  exact ⟨hh,
    mt (Binary64.beq_iff (b := 0.0) (Binary64.isNaN_eq_false hh) rfl).mpr
      (Bool.eq_false_iff.mp hne)⟩

/-- The `x` of a solution never go back. They advance at every step when they do at the last one,
and also when the start is not further out than 2^51 steps. -/
theorem xs_advance_of_solve (ht : s.solve expression x0 y0 h n m = .ok t) :
    t.xs.Pairwise (fun a b => ¬ Ahead h b a) ∧
    (t.xs.Pairwise (Ahead h) ↔
      ∀ i a b, i + 1 = n.toNat → t.xs[i]? = some a → t.xs[i + 1]? = some b →
      Ahead h a b) ∧
    (|value x0| ≤ 2 ^ 51 * |value h| → t.xs.Pairwise (Ahead h)) := by
  obtain ⟨e, -, hrun⟩ := run_of_solve ht
  have hok := (run_integrate_eq_ok_iff.mp hrun).1
  obtain ⟨hh, hne⟩ := value_ne_zero hok
  have hfin : ∀ a ∈ t.xs, a.isFinite = true :=
    List.forall_mem_map.mpr fun r hr => ((points_of_solve ht).2 r hr).1
  have hahead : t.xs.Pairwise (Ahead h) ↔ t.xs.Pairwise fun a b => along h a < along h b :=
    List.Pairwise.iff_of_mem fun {a b} ha hb => ahead_iff hh (hfin a ha) (hfin b hb)
  have hxs := xs_of_integrate hrun
  have hgrid := hxs ▸ hfin
  rw [hahead]
  refine ⟨?_, ⟨fun hlt i a b _ ha hb => ?_, fun hlast => ?_⟩, fun hle => ?_⟩
  · have hback : t.xs.Pairwise fun a b => along h a ≤ along h b := hxs ▸ pairwise_le_grid hne hgrid
    refine hback.imp_of_mem fun {a b} ha hb hab => ?_
    rw [ahead_iff hh (hfin b hb) (hfin a ha), not_lt]
    exact hab
  · obtain ⟨hi, rfl⟩ := List.getElem?_eq_some_iff.mp ha
    obtain ⟨hi', rfl⟩ := List.getElem?_eq_some_iff.mp hb
    rw [ahead_iff hh (hfin _ (List.getElem_mem hi)) (hfin _ (List.getElem_mem hi'))]
    exact List.pairwise_iff_getElem.mp hlt i (i + 1) hi hi' (Nat.lt_succ_self i)
  · rw [hxs] at hlast ⊢
    refine pairwise_lt_grid_of_last hne hgrid fun i a b hi ha hb => ?_
    rw [← ahead_iff hh (hgrid a (List.mem_of_getElem? ha)) (hgrid b (List.mem_of_getElem? hb))]
    exact hlast i a b hi ha hb
  · rw [hxs]
    refine pairwise_lt_grid_of_le hne hgrid ?_
    have hmax := toNat_le_of_le_maxSteps (rejection?_eq_none_iff.mp hok).2.2.1
    have hn : (n.toNat : ℚ) ≤ 1000000 := by exact_mod_cast hmax
    have hroom := mul_le_mul_of_nonneg_right hn (abs_nonneg (value h))
    linarith [abs_nonneg (value h)]

/-- Steps of a quarter go down from one. -/
theorem xs_advance_of_decay :
    ∃ t, standard.solve "-y" 1.0 1.0 (-0.25) 4 .heun = .ok t ∧ t.xs.Pairwise (Ahead (-0.25)) := by
  obtain ⟨t, ht⟩ := exists_eq_ok_of_isOk
    (show (standard.solve "-y" 1.0 1.0 (-0.25) 4 .heun).isOk = true by decide +kernel)
  refine ⟨t, ht, (xs_advance_of_solve ht).2.2 ?_⟩
  have hquarter : value 0.25 = (2 ^ 52 : ℕ) * 2 ^ (-54 : ℤ) := rfl
  rw [Binary64.value_neg, Binary64.value_one, hquarter]
  norm_num

/-- Steps of one are lost at 1e16, where the values lie two apart. -/
theorem xs_stay_at_large_start :
    ∃ t, standard.solve "1" 1e16 0.0 1.0 2 .euler = .ok t ∧ t.xs = [1e16, 1e16, 1e16] ∧ 0.0 < 1.0 ∧
      ¬ t.xs.Pairwise (· < ·) := by
  obtain ⟨t, ht⟩ := exists_eq_ok_of_isOk
    (show (standard.solve "1" 1e16 0.0 1.0 2 .euler).isOk = true by decide +kernel)
  have hxs : (standard.solve "1" 1e16 0.0 1.0 2 .euler).map Trajectory.xs =
      .ok [1e16, 1e16, 1e16] := by
    decide +kernel
  rw [ht, map_ok, Except.ok.injEq] at hxs
  refine ⟨t, ht, hxs, by decide, ?_⟩
  rw [hxs]
  decide

end Solver

end InitialValue
