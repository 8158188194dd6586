import InitialValue.Proofs.Binary64.Spacing
import InitialValue.Proofs.Finiteness
import InitialValue.Proofs.Samples

/-! When a frame shows a solution. On an axis with two different values the margin is
at least zero, so that the frame is never inverted and has no grid only where its ends
are too large to be finite. On a flat axis the margin is one, which is lost in the
rounding of large values: there the frame can be empty. -/

namespace InitialValue

open Binary64 (value value_zero value_one unit smaller larger)

namespace Frame

/-- One of the values is the least and one the greatest of them. -/
structure Spans (values : List Float) (hull : Float × Float) : Prop where
  low_mem : hull.1 ∈ values
  high_mem : hull.2 ∈ values
  between : ∀ v ∈ values, value hull.1 ≤ value v ∧ value v ≤ value hull.2

/-- Takes one more value into the hull. -/
def widen (hull : Float × Float) (v : Float) : Float × Float := (smaller hull.1 v, larger hull.2 v)

theorem hull_eq (values : List Float) :
    hull values = values.foldl widen (Binary64.infinity, -Binary64.infinity) := rfl

theorem Spans.widen {seen : List Float} {hull : Float × Float} {v : Float} (h : Spans seen hull)
    (hseen : ∀ w ∈ seen, w.isNaN = false) (hv : v.isNaN = false) :
    Spans (seen ++ [v]) (widen hull v) := by
  have hlow := Binary64.value_smaller (hseen _ h.low_mem) hv
  have hhigh := Binary64.value_larger (hseen _ h.high_mem) hv
  refine ⟨?_, ?_, ?_⟩
  · show smaller hull.1 v ∈ seen ++ [v]
    rcases Binary64.smaller_eq hull.1 v with heq | heq <;> simp [heq, h.low_mem]
  · show larger hull.2 v ∈ seen ++ [v]
    rcases Binary64.larger_eq hull.2 v with heq | heq <;> simp [heq, h.high_mem]
  · intro w hw
    show value (smaller hull.1 v) ≤ value w ∧ value w ≤ value (larger hull.2 v)
    rw [hlow, hhigh]
    rcases List.mem_append.mp hw with hw | hw
    · have hbetween := h.between w hw
      exact ⟨(min_le_left _ _).trans hbetween.1, hbetween.2.trans (le_max_left _ _)⟩
    · rw [List.mem_singleton.mp hw]
      exact ⟨min_le_right _ _, le_max_right _ _⟩

theorem Spans.foldl_widen {seen rest : List Float} {hull : Float × Float} (h : Spans seen hull)
    (hnum : ∀ w ∈ seen ++ rest, w.isNaN = false) :
    Spans (seen ++ rest) (rest.foldl Frame.widen hull) := by
  induction rest generalizing seen hull with
  | nil => simpa using h
  | cons v rest ih =>
    have hseen : ∀ w ∈ seen, w.isNaN = false := fun w hw => hnum w (by simp [hw])
    have hnext := ih (h.widen hseen (hnum v (by simp))) (by simpa using hnum)
    simpa using hnext

variable {v : Float} {vs : List Float}

/-- The first value replaces both infinities. -/
theorem hull_cons (hv : v.isFinite = true) : hull (v :: vs) = vs.foldl widen (v, v) := by
  have hnum := Binary64.isNaN_eq_false hv
  have habs := abs_lt.mp (Binary64.abs_value_lt hv)
  have hlow : v < Binary64.infinity := (Binary64.lt_iff hnum rfl).mpr habs.2
  have hhigh : -Binary64.infinity < v := (Binary64.lt_iff rfl hnum).mpr habs.1
  rw [hull_eq, List.foldl_cons, widen]
  simp only [smaller, larger, if_pos hlow, if_pos hhigh, ite_self]

theorem spans_hull (hfin : ∀ w ∈ v :: vs, w.isFinite = true) :
    Spans (v :: vs) (hull (v :: vs)) := by
  rw [hull_cons (hfin v (by simp))]
  have hfirst : Spans [v] (v, v) := ⟨by simp, by simp, by simp⟩
  exact hfirst.foldl_widen fun w hw => Binary64.isNaN_eq_false (hfin w hw)

/-- Two of the values are different. -/
def Spread (values : List Float) : Prop := ∃ a ∈ values, ∃ b ∈ values, a < b

/-- On a flat axis the first value is both the least and the greatest one. -/
theorem hull_of_flat (hv : v.isFinite = true) (hflat : ¬ Spread (v :: vs)) :
    hull (v :: vs) = (v, v) := by
  rw [hull_cons hv]
  have hstay : ∀ w ∈ vs, widen (v, v) w = (v, v) := by
    intro w hw
    have hnum := Binary64.isNaN_eq_false hv
    have hlow : ¬ w < v := fun h => hflat ⟨w, by simp [hw], v, by simp, h⟩
    have hhigh : ¬ v < w := fun h => hflat ⟨v, by simp, w, by simp [hw], h⟩
    unfold widen smaller larger
    rw [if_neg (Bool.eq_false_iff.mp hnum), if_neg hlow, if_neg (Bool.eq_false_iff.mp hnum),
      if_neg hhigh]
  clear hflat
  induction vs with
  | nil => rfl
  | cons w ws ih =>
    rw [List.foldl_cons, hstay w (by simp)]
    exact ih fun u hu => hstay u (by simp [hu])

/-! ### The margin -/

theorem value_margin : value margin = 7205759403792794 * 2 ^ (-56 : ℤ) := rfl

theorem margin_bounds : 0 ≤ value margin ∧ value margin ≤ 1 / 8 := by
  rw [value_margin]
  norm_num

/-- An axis is shown when its ends are finite and not in the wrong order. -/
def Shown (values : List Float) : Prop :=
  (padded values).1.isFinite = true ∧ (padded values).2.isFinite = true ∧
    ¬ (padded values).2 ≤ (padded values).1

theorem fault?_around_eq_none_iff {t : Trajectory} :
    (around t).fault? = none ↔ Shown t.xs ∧ Shown t.ys := by
  have hnx : 2 ≤ standardNx.toNat := by decide
  have hny : 2 ≤ standardNy.toNat := by decide
  rw [fault?_eq_none_iff]
  exact ⟨fun ⟨hx, hy, _⟩ => ⟨hx, hy⟩, fun ⟨hx, hy⟩ => ⟨hx, hy, hnx, hny⟩⟩

/-- The span of two different values is positive: their difference is at least the least positive
value. -/
theorem span_pos {low high : Float} (hlow : low.isFinite = true) (hhigh : high.isFinite = true)
    (hlt : value low < value high) : 0.0 < high - low := by
  have hspan := Binary64.rounds_sub hhigh hlow
  obtain ⟨a, ha, hunit⟩ := Binary64.exists_value_eq_of_canonical (m := 1)
    (e := Binary64.leastExponent)
    (by decide) ⟨by decide, le_rfl, by decide, .inr rfl⟩
  obtain ⟨j, hj⟩ := Binary64.exists_value_eq low
  obtain ⟨k, hk⟩ := Binary64.exists_value_eq high
  have hpos : 0 < unit := Binary64.two_zpow_pos _
  have hjk : j < k := by
    rw [hj, hk] at hlt
    exact_mod_cast lt_of_mul_lt_mul_right hlt hpos.le
  have hle : value a ≤ value high - value low := by
    have hone : (1 : ℚ) ≤ k - j := by exact_mod_cast Int.sub_pos.mpr hjk
    rw [hunit, hj, hk, ← sub_mul, Nat.cast_one]
    exact mul_le_mul_of_nonneg_right hone hpos.le
  rw [Binary64.lt_iff rfl hspan.isNaN, value_zero]
  refine lt_of_lt_of_le ?_ (hspan.ge_of_ge a hle)
  rw [hunit, Nat.cast_one, one_mul]
  exact hpos

variable {values : List Float} {low high : Float}

/-- On an axis with two different values the ends of a frame are in order if they are finite. -/
theorem ends_lt_of_finite (hlow : low.isFinite = true) (hhigh : high.isFinite = true)
    (hlt : value low < value high) (hend : (high + margin * (high - low)).isFinite = true) :
    value (low - margin * (high - low)) < value (high + margin * (high - low)) := by
  have hpad : (margin * (high - low)).isFinite = true := (Binary64.isFinite_of_add hend).2
  have hspan : (high - low).isFinite = true := (Binary64.isFinite_of_mul hpad).2
  have hspan0 : 0 ≤ value (high - low) :=
    (Binary64.rounds_sub hhigh hlow).ge_of_ge 0.0 (sub_nonneg.mpr hlt.le)
  have hpad0 : 0 ≤ value (margin * (high - low)) :=
    (Binary64.rounds_mul rfl hspan).ge_of_ge 0.0 (mul_nonneg margin_bounds.1 hspan0)
  calc value (low - margin * (high - low)) ≤ value low :=
        (Binary64.rounds_sub hlow hpad).le_of_le low (sub_le_self _ hpad0)
    _ < value high := hlt
    _ ≤ value (high + margin * (high - low)) :=
        (Binary64.rounds_add hhigh hpad).ge_of_ge high (le_add_of_nonneg_right hpad0)

theorem lt_of_spread (hfin : ∀ v ∈ values, v.isFinite = true) (hs : Spans values (low, high))
    (hspread : Spread values) : value low < value high := by
  obtain ⟨a, ha, b, hb, hlt⟩ := hspread
  have hlt := (Binary64.lt_iff (Binary64.isNaN_eq_false (hfin a ha))
    (Binary64.isNaN_eq_false (hfin b hb))).mp hlt
  exact (hs.between a ha).1.trans_lt (hlt.trans_le (hs.between b hb).2)

theorem padded_eq {values : List Float} {low high pad : Float} (h : hull values = (low, high))
    (hpad : (if 0.0 < high - low then margin * (high - low) else 1.0) = pad) :
    padded values = (low - pad, high + pad) := by
  simp only [padded, h, hpad]

theorem padded_of_spread (hfin : ∀ v ∈ values, v.isFinite = true) (hspread : Spread values) :
    ∃ low high, Spans values (low, high) ∧ value low < value high ∧
      padded values = (low - margin * (high - low), high + margin * (high - low)) := by
  obtain ⟨v, vs, rfl⟩ : ∃ v vs, values = v :: vs := by
    obtain ⟨a, ha, -⟩ := hspread
    exact List.exists_cons_of_ne_nil (List.ne_nil_of_mem ha)
  have hs := spans_hull hfin
  generalize hhull : hull (v :: vs) = p at hs
  obtain ⟨low, high⟩ := p
  have hlt := lt_of_spread hfin hs hspread
  have hpos := span_pos (hfin low hs.low_mem) (hfin high hs.high_mem) hlt
  exact ⟨low, high, hs, hlt, padded_eq hhull (if_pos hpos)⟩

theorem padded_of_flat {v : Float} {vs : List Float} (hv : v.isFinite = true)
    (hflat : ¬ Spread (v :: vs)) : padded (v :: vs) = (v - 1.0, v + 1.0) := by
  have hspan := Binary64.rounds_sub hv hv
  have hzero : ¬ 0.0 < v - v := by
    rw [Binary64.lt_iff rfl hspan.isNaN, value_zero,
      hspan.value_eq (a := 0.0) (by rw [value_zero, sub_self]), sub_self]
    exact lt_irrefl 0
  exact padded_eq (hull_of_flat hv hflat) (if_neg hzero)

/-- Where two values are different only ends that are too large keep an axis from being shown. -/
theorem shown_iff_of_spread (hfin : ∀ v ∈ values, v.isFinite = true) (hspread : Spread values) :
    Shown values ↔ (padded values).1.isFinite = true ∧ (padded values).2.isFinite = true := by
  obtain ⟨low, high, hs, hlt, hpadded⟩ := padded_of_spread hfin hspread
  unfold Shown
  rw [hpadded]
  refine ⟨fun h => ⟨h.1, h.2.1⟩, fun ⟨h₁, h₂⟩ => ⟨h₁, h₂, fun hle => ?_⟩⟩
  have hends := ends_lt_of_finite (hfin _ hs.low_mem) (hfin _ hs.high_mem) hlt h₂
  exact (not_lt.mpr
    ((Binary64.le_iff (Binary64.isNaN_eq_false h₂) (Binary64.isNaN_eq_false h₁)).mp hle)) hends

section Room

variable (hlow : low.isFinite = true) (hhigh : high.isFinite = true) (hlt : value low < value high)
  (hlow' : |value low| ≤ 2 ^ (1022 : ℤ)) (hhigh' : |value high| ≤ 2 ^ (1022 : ℤ))

include hlow hhigh hlt hlow' hhigh'

theorem span_of_le :
    (high - low).isFinite = true ∧ 0 ≤ value (high - low) ∧
      value (high - low) ≤ 2 ^ (1023 : ℤ) := by
  have hspan := Binary64.rounds_sub hhigh hlow
  have h1023 : (2 : ℚ) ^ (1023 : ℤ) = 2 * 2 ^ (1022 : ℤ) := Binary64.two_zpow_add_one 1022
  have hdiff : value high - value low ≤ 2 ^ (1023 : ℤ) := by
    calc value high - value low ≤ |value high| + |value low| := (le_abs_self _).trans (abs_sub _ _)
      _ ≤ 2 ^ (1022 : ℤ) + 2 ^ (1022 : ℤ) := add_le_add hhigh' hlow'
      _ = 2 ^ (1023 : ℤ) := by rw [h1023, two_mul]
  have hdiff0 : 0 < value high - value low := sub_pos.mpr hlt
  obtain ⟨a, -, ha⟩ := Binary64.exists_value_eq_two_zpow (e := 1023) (by decide) le_rfl
  refine ⟨hspan.isFinite_of_le ((abs_of_pos hdiff0).trans_le hdiff),
    hspan.ge_of_ge 0.0 hdiff0.le, ?_⟩
  rw [← ha] at hdiff ⊢
  exact hspan.le_of_le a hdiff

theorem pad_of_le : (margin * (high - low)).isFinite = true ∧ 0 ≤ value (margin * (high - low)) ∧
    value (margin * (high - low)) ≤ 2 ^ (1020 : ℤ) := by
  obtain ⟨hfin, h0, hle⟩ := span_of_le hlow hhigh hlt hlow' hhigh'
  have hpad := Binary64.rounds_mul (a := margin) rfl hfin
  have h1023 : (2 : ℚ) ^ (1023 : ℤ) = 2 ^ 3 * 2 ^ (1020 : ℤ) := Binary64.two_zpow_nat_add 3 1020
  have hprod0 : 0 ≤ value margin * value (high - low) := mul_nonneg margin_bounds.1 h0
  have hprod : value margin * value (high - low) ≤ 2 ^ (1020 : ℤ) := by
    calc value margin * value (high - low) ≤ 1 / 8 * value (high - low) :=
          mul_le_mul_of_nonneg_right margin_bounds.2 h0
      _ ≤ 1 / 8 * 2 ^ (1023 : ℤ) := mul_le_mul_of_nonneg_left hle (by norm_num)
      _ = 2 ^ (1020 : ℤ) := by
        rw [h1023]
        ring
  obtain ⟨a, -, ha⟩ := Binary64.exists_value_eq_two_zpow (e := 1020) (by decide) (by decide)
  refine ⟨hpad.isFinite_of_le ?_, hpad.ge_of_ge 0.0 hprod0, ?_⟩
  · rw [abs_of_nonneg hprod0]
    exact hprod.trans (Binary64.two_zpow_le (by decide))
  · rw [← ha] at hprod ⊢
    exact hpad.le_of_le a hprod

/-- Half of the range leaves room for the margin. -/
theorem ends_isFinite_of_le :
    (low - margin * (high - low)).isFinite = true ∧
      (high + margin * (high - low)).isFinite = true := by
  obtain ⟨hfin, h0, hle⟩ := pad_of_le hlow hhigh hlt hlow' hhigh'
  have h1023 : (2 : ℚ) ^ (1023 : ℤ) = 2 * 2 ^ (1022 : ℤ) := Binary64.two_zpow_add_one 1022
  have hroom : ∀ {q : ℚ}, |q| ≤ 2 ^ (1022 : ℤ) →
      |q| + |value (margin * (high - low))| ≤ 2 ^ (1023 : ℤ) := by
    intro q hq
    rw [h1023, two_mul, abs_of_nonneg h0]
    exact add_le_add hq (hle.trans (Binary64.two_zpow_le (by decide)))
  refine ⟨(Binary64.rounds_sub hlow hfin).isFinite_of_le ?_,
    (Binary64.rounds_add hhigh hfin).isFinite_of_le ?_⟩
  · exact (abs_sub _ _).trans (hroom hlow')
  · exact (abs_add_le _ _).trans (hroom hhigh')

end Room

theorem shown_of_spread (hfin : ∀ v ∈ values, v.isFinite = true) (hspread : Spread values)
    (hsmall : ∀ v ∈ values, |value v| ≤ 2 ^ (1022 : ℤ)) : Shown values := by
  rw [shown_iff_of_spread hfin hspread]
  obtain ⟨low, high, hs, hlt, hpadded⟩ := padded_of_spread hfin hspread
  rw [hpadded]
  exact ends_isFinite_of_le (hfin low hs.low_mem) (hfin high hs.high_mem) hlt
    (hsmall low hs.low_mem)
    (hsmall high hs.high_mem)

/-! ### Flat axes -/

/-- A step to either side of a finite value does not overflow. -/
theorem isFinite_sub_add_one {v : Float} (hv : v.isFinite = true) :
    (v - 1.0).isFinite = true ∧ (v + 1.0).isFinite = true := by
  have hone : |(1 : ℚ)| < 2 ^ (970 : ℤ) := by
    rw [abs_one]
    exact one_lt_zpow₀ (by norm_num) (by norm_num)
  refine ⟨?_, Binary64.isFinite_add_of_lt hv rfl (by rwa [value_one])⟩
  rw [Binary64.sub_eq_add]
  exact Binary64.isFinite_add_of_lt hv rfl (by rwa [Binary64.value_neg, value_one, abs_neg])

/-- A flat axis is shown when the margin is not lost in the rounding. -/
theorem shown_iff_of_flat {v : Float} {vs : List Float} (hv : v.isFinite = true)
    (hflat : ¬ Spread (v :: vs)) : Shown (v :: vs) ↔ v - 1.0 < v + 1.0 := by
  obtain ⟨h₁, h₂⟩ := isFinite_sub_add_one hv
  have hn₁ := Binary64.isNaN_eq_false h₁
  have hn₂ := Binary64.isNaN_eq_false h₂
  unfold Shown
  rw [padded_of_flat hv hflat, Binary64.lt_iff hn₁ hn₂, Binary64.le_iff hn₂ hn₁, not_le]
  exact ⟨fun h => h.2.2, fun h => ⟨h₁, h₂, h⟩⟩

/-- Up to 53 bits a whole number lies between a value and one of the neighbours at a distance of
one. -/
theorem sub_one_lt_add_one {v : Float} (hv : v.isFinite = true) (hsmall : |value v| ≤ 2 ^ 53) :
    v - 1.0 < v + 1.0 := by
  have h₁ := Binary64.rounds_sub hv (b := 1.0) rfl
  have h₂ := Binary64.rounds_add hv (b := 1.0) rfl
  rw [value_one] at h₁ h₂
  rw [Binary64.lt_iff h₁.isNaN h₂.isNaN]
  have habs := abs_le.mp hsmall
  rcases le_total 0 (value v) with hsign | hsign
  · have hceil := Int.le_ceil (value v)
    have hceil' := Int.ceil_lt_add_one (value v)
    obtain ⟨a, -, ha⟩ := Binary64.exists_value_eq_int (n := ⌈value v⌉ - 1) (by
      have h1 : ⌈value v⌉ ≤ 2 ^ 53 := Int.ceil_le.mpr (by exact_mod_cast habs.2)
      have h0 : 0 ≤ ⌈value v⌉ := Int.ceil_nonneg hsign
      rw [abs_lt]
      omega)
    push_cast at ha
    calc value (v - 1.0) ≤ value a := h₁.le_of_le a (by linarith)
      _ < value v := by linarith
      _ ≤ value (v + 1.0) := h₂.ge_of_ge v (by linarith)
  · have hfloor := Int.floor_le (value v)
    have hfloor' := Int.lt_floor_add_one (value v)
    obtain ⟨a, -, ha⟩ := Binary64.exists_value_eq_int (n := ⌊value v⌋ + 1) (by
      have h1 : -2 ^ 53 ≤ ⌊value v⌋ := Int.le_floor.mpr (by exact_mod_cast habs.1)
      have h0 : ⌊value v⌋ ≤ 0 := Int.floor_nonpos hsign
      rw [abs_lt]
      omega)
    push_cast at ha
    calc value (v - 1.0) ≤ value v := h₁.le_of_le v (by linarith)
      _ < value a := by linarith
      _ ≤ value (v + 1.0) := h₂.ge_of_ge a (by linarith)

theorem shown_of_small {v : Float} {vs : List Float} (hfin : ∀ w ∈ v :: vs, w.isFinite = true)
    (hsmall : ∀ w ∈ v :: vs, |value w| ≤ 2 ^ 53) : Shown (v :: vs) := by
  by_cases hspread : Spread (v :: vs)
  · have hle : (2 : ℚ) ^ 53 ≤ 2 ^ (1022 : ℤ) := by
      exact_mod_cast (Binary64.two_zpow_le (by decide) : (2 : ℚ) ^ (53 : ℤ) ≤ 2 ^ (1022 : ℤ))
    exact shown_of_spread hfin hspread fun w hw => (hsmall w hw).trans hle
  · have hv := hfin v List.mem_cons_self
    exact (shown_iff_of_flat hv hspread).mpr (sub_one_lt_add_one hv (hsmall v List.mem_cons_self))

theorem fits_around (t : Trajectory) : (around t).Fits := by
  have hnx : (around t).nx = standardNx := rfl
  have hny : (around t).ny = standardNy := rfl
  rw [Fits, hnx, hny]
  decide

end Frame

/-! ### Direction fields of solutions -/

namespace Draft

variable {d : Draft} {t : Trajectory}

theorem function_of_toRequest {override : Option Method} {r : Request}
    (hr : d.toRequest override = .ok r) : r.function = d.function := by
  obtain ⟨m, numSteps, -, -, rfl⟩ := toRequest_eq_ok_iff.mp hr
  rfl

/-- A solution has an expression that was read, and finite points. -/
theorem points_of_solve (ht : d.solve none = .ok t) : (∃ e, Expression.parse d.function = .ok e) ∧
    t.rows ≠ [] ∧ ∀ r ∈ t.rows, r.x.isFinite = true ∧ r.y.isFinite = true := by
  obtain ⟨r, s, hr, -, hrequest⟩ := solveRequest_of_solve ht
  obtain ⟨spec, -, hinterval⟩ := Solver.solveInterval_of_solveRequest hrequest
  obtain ⟨plan, -, hsolve⟩ := Solver.solve_of_solveInterval hinterval
  obtain ⟨e, he, -⟩ := Solver.run_of_solve hsolve
  rw [function_of_toRequest hr] at he
  exact ⟨⟨e, he⟩, Solver.points_of_solve hsolve⟩

theorem exists_directionField_iff (ht : d.solve none = .ok t) :
    (∃ field, d.directionField = .ok field) ↔ Frame.Shown t.xs ∧ Frame.Shown t.ys := by
  obtain ⟨⟨e, he⟩, -⟩ := points_of_solve ht
  have hfield : d.directionField =
      (DirectionField.sample e.evaluate (.around t)).mapError .frame := by
    simp only [directionField, ht, he, ok_bind, mapError_ok]
  rw [hfield, ← Frame.fault?_around_eq_none_iff]
  unfold DirectionField.sample
  cases (Frame.around t).fault? with
  | none => simp [Frame.fits_around]
  | some fault => simp

/-- Both axes of a solution have a first value, and finite values only. -/
theorem axes_of_solve (ht : d.solve none = .ok t) {values : List Float}
    (hmem : values ∈ [t.xs, t.ys]) :
    ∃ v vs, values = v :: vs ∧ ∀ w ∈ v :: vs, w.isFinite = true := by
  obtain ⟨-, hne, hfin⟩ := points_of_solve ht
  obtain ⟨r, rest, hrows⟩ := List.exists_cons_of_ne_nil hne
  simp only [List.mem_cons, List.not_mem_nil, or_false] at hmem
  rcases hmem with rfl | rfl
  · refine ⟨r.x, rest.map Row.x, by rw [Trajectory.xs, hrows, List.map_cons], ?_⟩
    rw [← List.map_cons, ← hrows]
    exact List.forall_mem_map.mpr fun q hq => (hfin q hq).1
  · refine ⟨r.y, rest.map Row.y, by rw [Trajectory.ys, hrows, List.map_cons], ?_⟩
    rw [← List.map_cons, ← hrows]
    exact List.forall_mem_map.mpr fun q hq => (hfin q hq).2

/-- The direction field of a solution exists when both of its axes are shown: one with different
values if the ends of the frame are finite, a flat one if the margin of one is not lost in the
rounding. Different values up to half of the range and any values up to 53 bits are always shown. -/
theorem directionField_of_solve (ht : d.solve none = .ok t) :
    ((∃ field, d.directionField = .ok field) ↔ ∀ values ∈ [t.xs, t.ys],
      Frame.Spread values ∧ (Frame.padded values).1.isFinite = true ∧
        (Frame.padded values).2.isFinite = true ∨
      ¬ Frame.Spread values ∧ ∀ v ∈ values.head?, v - 1.0 < v + 1.0) ∧
    ((∀ values ∈ [t.xs, t.ys],
      Frame.Spread values ∧ (∀ v ∈ values, |value v| ≤ 2 ^ (1022 : ℤ)) ∨
        ∀ v ∈ values, |value v| ≤ 2 ^ 53) →
      ∃ field, d.directionField = .ok field) := by
  have haxes : ∀ {P : List Float → Prop},
    (∀ values ∈ [t.xs, t.ys], (P values ↔ Frame.Shown values)) →
      ((∃ field, d.directionField = .ok field) ↔ ∀ values ∈ [t.xs, t.ys], P values) := by
    intro P hP
    rw [exists_directionField_iff ht, forall₂_congr hP]
    simp
  constructor
  · refine haxes fun values hmem => ?_
    obtain ⟨v, vs, rfl, hfin⟩ := axes_of_solve ht hmem
    by_cases hspread : Frame.Spread (v :: vs)
    · rw [Frame.shown_iff_of_spread hfin hspread]
      simp [hspread]
    · rw [Frame.shown_iff_of_flat (hfin v List.mem_cons_self) hspread]
      simp [hspread]
  · intro hsmall
    refine (haxes (P := Frame.Shown) fun values _ => Iff.rfl).mpr fun values hmem => ?_
    obtain ⟨v, vs, rfl, hfin⟩ := axes_of_solve ht hmem
    rcases hsmall _ hmem with ⟨hspread, hle⟩ | hle
    · exact Frame.shown_of_spread hfin hspread hle
    · exact Frame.shown_of_small hfin hle

/-- Heun's solution of a decay has a frame. -/
theorem directionField_of_decay :
    let d : Draft := ⟨"-y", 0.0, 1.0, 1.0, some 4.0, none, some "heun", none⟩
    ∃ t, d.solve none = .ok t ∧ ∀ values ∈ [t.xs, t.ys],
      Frame.Spread values ∧ (Frame.padded values).1.isFinite = true ∧
        (Frame.padded values).2.isFinite = true ∨
      ¬ Frame.Spread values ∧ ∀ v ∈ values.head?, v - 1.0 < v + 1.0 := by
  intro d
  obtain ⟨t, ht⟩ := exists_eq_ok_of_isOk (show (d.solve none).isOk = true by decide +kernel)
  have hfield := exists_eq_ok_of_isOk (show d.directionField.isOk = true by decide +kernel)
  exact ⟨t, ht, (directionField_of_solve ht).1.mp hfield⟩

/-- The frame of a constant solution is empty when the margin of one is lost, and that of a solution
through most of the range has ends that are not finite. -/
theorem no_directionField_of_large :
    let flat : Draft := ⟨"0", 0.0, 1e300, 1.0, some 4.0, none, some "euler", none⟩
    let steep : Draft := ⟨"4e307", 0.0, -1e308, 5.0, some 5.0, none, some "euler", none⟩
    (flat.solve none).isOk = true ∧ flat.directionField = .error (.frame (.emptyY 1e300 1e300)) ∧
      (steep.solve none).isOk = true ∧ steep.directionField = .error (.frame .notFinite) := by
  decide +kernel

end Draft

end InitialValue
