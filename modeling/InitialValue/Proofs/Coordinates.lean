import InitialValue.Proofs.Binary64.Monotone
import InitialValue.Proofs.Samples

/-! Whether the points of a direction field are in range. The ends of an axis are finite
and in order, but their distance need not be finite, and then no coordinate is a finite
one. The coordinates do not fall from one point to the next, so that all of them are
finite when the last one is. This fails for a finite distance only where rounding carries
the last point out of range, which takes an end or a distance near the largest value. -/

namespace InitialValue

open Binary64 (value value_zero value_one bound brink Rounds)
open Sampling (Slope)

namespace Frame

/-! ### Coordinates on an axis -/

/-- The distance of neighbouring points among `n` that go from one end to the other. -/
def spacing (low high : Float) (n : UInt64) : Float := (high - low) / (n - 1).toFloat

/-- The coordinate of one of these points. -/
def tick (low high : Float) (n : UInt64) (i : ℕ) : Float :=
  low + spacing low high n * (UInt64.ofNat i).toFloat

theorem gridX_eq_tick (r : Frame) (ix : ℕ) : r.gridX ix = tick r.xMin r.xMax r.nx ix := rfl

theorem gridY_eq_tick (r : Frame) (iy : ℕ) : r.gridY iy = tick r.yMin r.yMax r.ny iy := rfl

/-- An axis has two finite ends in order, and at least these two points. -/
structure Axis (low high : Float) (n : UInt64) : Prop where
  low_finite : low.isFinite = true
  high_finite : high.isFinite = true
  lt : value low < value high
  two_le : 2 ≤ n.toNat

theorem axes_of_fault? {r : Frame} (hr : r.fault? = none) :
    Axis r.xMin r.xMax r.nx ∧ Axis r.yMin r.yMax r.ny := by
  have horder : ∀ {low high : Float}, low.isFinite = true → high.isFinite = true → ¬ high ≤ low →
      value low < value high := fun hlow hhigh hle =>
    not_le.mp
      (mt (Binary64.le_iff (Binary64.isNaN_eq_false hhigh) (Binary64.isNaN_eq_false hlow)).mpr hle)
  obtain ⟨⟨hxl, hxh, hx⟩, ⟨hyl, hyh, hy⟩, hnx, hny⟩ := fault?_eq_none_iff.mp hr
  exact ⟨⟨hxl, hxh, horder hxl hxh hx, hnx⟩, ⟨hyl, hyh, horder hyl hyh hy, hny⟩⟩

/-- The upper end and the distance of the ends are not among the largest numbers. -/
structure Roomy (low high : Float) : Prop where
  high_le : value high ≤ bound - 32 * brink
  span_le : value high - value low ≤ bound - 32 * brink

variable {low high : Float} {n : UInt64} {i : ℕ}

/-- Ends within a quarter of the range leave room. -/
theorem roomy_of_abs_le (hlow : |value low| ≤ 2 ^ (1022 : ℤ))
    (hhigh : |value high| ≤ 2 ^ (1022 : ℤ)) : Roomy low high := by
  have hbrink := Binary64.brink_pos
  have hquarter : (2 : ℚ) ^ (1022 : ℤ) = 2 ^ 52 * brink := Binary64.two_zpow_nat_add 52 970
  rw [hquarter, abs_le] at hlow hhigh
  constructor <;> rw [Binary64.bound_eq_brink]
  · linarith only [hbrink, hhigh.2]
  · linarith only [hbrink, hhigh.2, hlow.1]

/-- No coordinate is finite where the distance of the ends is not. -/
theorem isFinite_span_of_tick (hfin : (tick low high n i).isFinite = true) :
    (high - low).isFinite = true :=
  Binary64.isFinite_of_div (Binary64.isFinite_of_mul (Binary64.isFinite_of_add hfin).2).1

theorem toNat_sub_one (hn : 0 < n.toNat) : (n - 1).toNat = n.toNat - 1 :=
  UInt64.toNat_sub_of_le _ _ (UInt64.le_iff_toNat_le.mpr hn)

theorem ofNat_le_sub_one (hi : i < n.toNat) : UInt64.ofNat i ≤ n - 1 := by
  rw [UInt64.le_iff_toNat_le, UInt64.toNat_ofNat_of_lt' (hi.trans n.toNat_lt),
    toNat_sub_one (Nat.zero_lt_of_lt hi)]
  omega

/-- The number of the last point is what the distance is divided by. -/
theorem tick_last (hn : 0 < n.toNat) : tick low high n (n.toNat - 1) =
    low + spacing low high n * (n - 1).toFloat := by
  rw [tick, ← toNat_sub_one hn, UInt64.ofNat_toNat]

namespace Axis

theorem one_le_value (h : Axis low high n) : 1 ≤ value (n - 1).toFloat := by
  have hle := Binary64.value_toFloat_le_toFloat (ofNat_le_sub_one h.two_le)
  exact (Binary64.value_toFloat (n := 1) (by decide)).ge.trans hle

theorem span_nonneg (h : Axis low high n) : 0 ≤ value (high - low) :=
  (Binary64.rounds_sub h.high_finite h.low_finite).ge_of_ge 0.0
    (by rw [value_zero]; linarith [h.lt])

theorem rounds_spacing (h : Axis low high n) (hspan : (high - low).isFinite = true) :
    Rounds (value (high - low) / value (n - 1).toFloat) (spacing low high n).toModel.unpack :=
  Binary64.rounds_div hspan (Binary64.isFinite_toFloat _) (zero_lt_one.trans_le h.one_le_value).ne'

theorem spacing_nonneg (h : Axis low high n) (hspan : (high - low).isFinite = true) :
    0 ≤ value (spacing low high n) := by
  refine (h.rounds_spacing hspan).ge_of_ge 0.0 (value_zero.trans_le ?_)
  exact div_nonneg h.span_nonneg (zero_le_one.trans h.one_le_value)

/-- Coordinates are finite up to a finite last one. -/
theorem isFinite_tick (h : Axis low high n)
    (hlast : (tick low high n (n.toNat - 1)).isFinite = true) (hi : i < n.toNat) :
    (tick low high n i).isFinite = true := by
  have hspan := isFinite_span_of_tick hlast
  rw [tick_last (Nat.zero_lt_of_lt hi)] at hlast
  obtain ⟨hlow, hfar⟩ := Binary64.isFinite_of_add hlast
  have hspacing := (Binary64.isFinite_of_mul hfar).1
  have h0 := h.spacing_nonneg hspan
  unfold tick
  generalize spacing low high n = d at hlast hfar hspacing h0 ⊢
  have hcount := Binary64.isFinite_toFloat (.ofNat i)
  have hmul := Binary64.rounds_mul hspacing hcount
  -- The way from the lower end is not negative, and no longer than that to the last point.
  have hway : 0 ≤ value (d * (UInt64.ofNat i).toFloat) :=
    hmul.ge_of_ge 0.0 (value_zero.trans_le (mul_nonneg h0 (Binary64.value_toFloat_nonneg _)))
  have hshort := Binary64.value_mul_le_mul hspacing h0 hcount (Binary64.isFinite_toFloat (n - 1))
    (Binary64.value_toFloat_le_toFloat (ofNat_le_sub_one hi))
  have hway' := Binary64.isFinite_of_between (a := 0.0) hmul.isNaN rfl hfar
    (value_zero.trans_le hway) hshort
  exact Binary64.isFinite_of_between (Binary64.rounds_add hlow hway').isNaN hlow hlast
    ((Binary64.rounds_add hlow hway').ge_of_ge low (le_add_of_nonneg_right hway))
    (Binary64.value_add_le_add hlow hway' hfar hshort)

/-! ### Roomy axes -/

theorem span_of_roomy (h : Axis low high n) (hroom : Roomy low high) :
    (high - low).isFinite = true ∧ value (high - low) ≤ value high - value low + 5 * brink := by
  have hbrink := Binary64.brink_pos
  have hle := hroom.span_le
  have h0 : 0 ≤ value high - value low := sub_nonneg.mpr h.lt.le
  have hspan := Binary64.rounds_sub h.high_finite h.low_finite
  have hnear := hspan.mul_value_le_add h0 zero_le_one (by norm_num) (by linarith)
  rw [one_mul, one_mul] at hnear
  exact ⟨hspan.isFinite_of_lt (by rw [abs_of_nonneg h0]; linarith), hnear⟩

theorem spacing_of_roomy (h : Axis low high n) (hroom : Roomy low high) :
    (spacing low high n).isFinite = true ∧
      value (spacing low high n) * value (n - 1).toFloat ≤
        value high - value low + 10 * brink := by
  have hbrink := Binary64.brink_pos
  have hle := hroom.span_le
  obtain ⟨hspan, hnear⟩ := h.span_of_roomy hroom
  have hspacing := h.rounds_spacing hspan
  have h0 := h.span_nonneg
  have hcount := h.one_le_value
  have hcount0 := zero_lt_one.trans_le hcount
  have hquotient := div_nonneg h0 hcount0.le
  have hcancel : value (n - 1).toFloat * (value (high - low) / value (n - 1).toFloat) =
    value (high - low) :=
    mul_div_cancel₀ _ hcount0.ne'
  have hnear' := hspacing.mul_value_le_add hquotient hcount0.le (Binary64.value_toFloat_le _)
    (by linarith)
  rw [hcancel, mul_comm] at hnear'
  refine ⟨hspacing.isFinite_of_lt ?_, by linarith⟩
  rw [abs_of_nonneg hquotient]
  exact (div_le_self h0 hcount).trans_lt (by linarith)

/-- The way to the last point is hardly longer than the distance of the ends. -/
theorem way_of_roomy (h : Axis low high n) (hroom : Roomy low high) :
    (spacing low high n * (n - 1).toFloat).isFinite = true ∧
      0 ≤ value (spacing low high n * (n - 1).toFloat) ∧
      value (spacing low high n * (n - 1).toFloat) ≤ value high - value low + 15 * brink := by
  have hbrink := Binary64.brink_pos
  have hle := hroom.span_le
  obtain ⟨hspacing, hnear⟩ := h.spacing_of_roomy hroom
  have h0 := mul_nonneg (h.spacing_nonneg (h.span_of_roomy hroom).1)
    (zero_le_one.trans h.one_le_value)
  have hway := Binary64.rounds_mul hspacing (Binary64.isFinite_toFloat (n - 1))
  have hnear' := hway.mul_value_le_add h0 zero_le_one (by norm_num) (by linarith)
  refine ⟨hway.isFinite_of_lt (by rw [abs_of_nonneg h0]; linarith), ?_, by linarith⟩
  exact hway.ge_of_ge 0.0 (value_zero.trans_le h0)

theorem isFinite_last (h : Axis low high n) (hroom : Roomy low high) :
    (tick low high n (n.toNat - 1)).isFinite = true := by
  obtain ⟨hway, hway0, hle⟩ := h.way_of_roomy hroom
  have hbrink := Binary64.brink_pos
  have hhigh := hroom.high_le
  have hlow := (abs_le.mp (Binary64.abs_value_le_sub_brink h.low_finite)).1
  rw [tick_last (zero_lt_two.trans_le h.two_le)]
  refine (Binary64.rounds_add h.low_finite hway).isFinite_of_lt (abs_lt.mpr ⟨?_, ?_⟩) <;> linarith

end Axis

end Frame

/-! ### Where slopes are asked for -/

namespace DirectionField

/-- The points of a grid, row by row. -/
def points (r : Frame) : List (Float × Float) :=
  (List.range r.ny.toNat).flatMap fun iy => (List.range r.nx.toNat).map fun ix =>
    (r.gridX ix, r.gridY iy)

/-- The sample at a point, from the slope that is asked for there. -/
def look (p : Float × Float) : Sampling Float FrameFault Sample :=
  .ask p.1 p.2 fun answer => pure ⟨p.1, p.2, answer.toOption.map Sample.unit⟩

def lookAll : List (Float × Float) → Sampling Float FrameFault (List Sample)
  | [] => pure []
  | p :: ps => do
    let s ← look p
    let samples ← lookAll ps
    pure (s :: samples)

/-- The sampling of a frame as a computation that asks for the slopes. -/
def survey (r : Frame) : Sampling Float FrameFault DirectionField :=
  match r.fault? with
  | some fault => .fail fault
  | none =>
    if r.Fits then do
      let samples ← lookAll (points r)
      pure ⟨r, samples⟩
    else .fail .capacityOverflow

variable {f : Slope Float} {r : Frame} {d : DirectionField}

theorem run_lookAll (f : Slope Float) (ps : List (Float × Float)) :
    (lookAll ps).run f = .ok (ps.map fun p => .take f p.1 p.2) := by
  induction ps with
  | nil => rfl
  | cons p ps ih =>
    have hlook : (look p).run f = .ok (.take f p.1 p.2) := rfl
    simp [lookAll, hlook, ih]

/-- A point is asked for once, whatever the answers to the others are. -/
theorem calls_lookAll (f : Slope Float) (ps : List (Float × Float)) :
    (lookAll ps).calls f = ps := by
  induction ps with
  | nil => rfl
  | cons p ps ih =>
    have hlook : (look p).run f = .ok (.take f p.1 p.2) := rfl
    have hask : (look p).calls f = [p] := rfl
    simp [lookAll, Sampling.calls_bind, hlook, hask, run_lookAll, ih]

theorem samplesOver_eq_map (f : Slope Float) (r : Frame) :
    samplesOver f r = (points r).map fun p => .take f p.1 p.2 := by
  simp only [samplesOver, points, List.map_flatMap, List.map_map]
  rfl

theorem survey_of_fits (hr : r.fault? = none) (hfit : r.Fits) :
    survey r = lookAll (points r) >>= fun samples => pure ⟨r, samples⟩ := by
  unfold survey
  rw [hr]
  exact if_pos hfit

theorem run_survey (f : Slope Float) (r : Frame) : (survey r).run f = sample f r := by
  cases hr : r.fault? with
  | some fault => simp [survey, sample, hr]
  | none =>
    by_cases hfit : r.Fits
    · simp [survey_of_fits hr hfit, sample_of_fits hr hfit, run_lookAll, samplesOver_eq_map]
    · simp [survey, sample, hr, hfit]

theorem calls_survey (hr : r.fault? = none) (hfit : r.Fits) (f : Slope Float) :
    (survey r).calls f = points r := by
  simp [survey_of_fits hr hfit, Sampling.calls_bind, calls_lookAll, run_lookAll]

theorem mem_points {p : Float × Float} : p ∈ points r ↔
    ∃ iy < r.ny.toNat, ∃ ix < r.nx.toNat, (r.gridX ix, r.gridY iy) = p := by
  simp [points]

/-- The points of a grid are all finite when the one at its upper right corner is. -/
theorem isFinite_points_iff (hr : r.fault? = none) :
    (∀ p ∈ points r, p.1.isFinite = true ∧ p.2.isFinite = true) ↔
      (r.gridX (r.nx.toNat - 1)).isFinite = true ∧ (r.gridY (r.ny.toNat - 1)).isFinite = true := by
  obtain ⟨hx, hy⟩ := Frame.axes_of_fault? hr
  constructor
  · intro hall
    have hnx : r.nx.toNat - 1 < r.nx.toNat := Nat.sub_one_lt_of_lt hx.two_le
    have hny : r.ny.toNat - 1 < r.ny.toNat := Nat.sub_one_lt_of_lt hy.two_le
    exact hall (r.gridX (r.nx.toNat - 1), r.gridY (r.ny.toNat - 1))
      (mem_points.mpr ⟨_, hny, _, hnx, rfl⟩)
  · rintro ⟨hright, hupper⟩ p hp
    obtain ⟨iy, hiy, ix, hix, rfl⟩ := mem_points.mp hp
    rw [Frame.gridX_eq_tick] at hright ⊢
    rw [Frame.gridY_eq_tick] at hupper ⊢
    exact ⟨hx.isFinite_tick hright hix, hy.isFinite_tick hupper hiy⟩

theorem map_samples (hd : sample f r = .ok d) : d.samples.map (fun s => (s.x, s.y)) = points r := by
  obtain ⟨-, -, rfl⟩ := sample_eq_ok_iff.mp hd
  simp [samplesOver_eq_map, Sample.take, Function.comp_def]

/-- A field has its samples where it asks for slopes. Their coordinates are finite when those at the
upper right corner are, as they are on roomy axes; on an axis whose ends have no finite distance
none is. -/
theorem coordinates_of_sample (hd : sample f r = .ok d) :
    (survey r).run f = .ok d ∧ (survey r).calls f = d.samples.map (fun s => (s.x, s.y)) ∧
      ((∀ s ∈ d.samples, s.x.isFinite = true ∧ s.y.isFinite = true) ↔
        (r.gridX (r.nx.toNat - 1)).isFinite = true ∧ (r.gridY (r.ny.toNat - 1)).isFinite = true) ∧
      (Frame.Roomy r.xMin r.xMax → Frame.Roomy r.yMin r.yMax →
        ∀ s ∈ d.samples, s.x.isFinite = true ∧ s.y.isFinite = true) ∧
      ∀ s ∈ d.samples, (s.x.isFinite = true → (r.xMax - r.xMin).isFinite = true) ∧
        (s.y.isFinite = true → (r.yMax - r.yMin).isFinite = true) := by
  obtain ⟨hr, hfit, -⟩ := sample_eq_ok_iff.mp hd
  have hpoints := map_samples hd
  have hmem : ∀ {P : Float → Float → Prop},
      (∀ s ∈ d.samples, P s.x s.y) ↔ ∀ p ∈ points r, P p.1 p.2 := by
    intro P
    rw [← hpoints, List.forall_mem_map]
  have hcorner := (hmem (P := fun x y => x.isFinite = true ∧ y.isFinite = true)).trans
    (isFinite_points_iff hr)
  obtain ⟨hx, hy⟩ := Frame.axes_of_fault? hr
  refine ⟨(run_survey f r).trans hd, (calls_survey hr hfit f).trans hpoints.symm, hcorner,
    fun hroomx hroomy => hcorner.mpr ⟨hx.isFinite_last hroomx, hy.isFinite_last hroomy⟩, ?_⟩
  refine (hmem (P := fun x y => (x.isFinite = true → _) ∧ (y.isFinite = true → _))).mpr
    fun p hp => ?_
  obtain ⟨iy, -, ix, -, rfl⟩ := mem_points.mp hp
  exact ⟨Frame.isFinite_span_of_tick, Frame.isFinite_span_of_tick⟩

/-- The unit square has finite coordinates. Among four points up to the largest value the last one
is out of range, although the distance of the ends is not. -/
theorem coordinates_of_unit_square_and_largest :
    (∃ d, sample (fun _ y => .ok y) ⟨0.0, 1.0, 0.0, 1.0, 3, 2⟩ = .ok d ∧
      ∀ s ∈ d.samples, s.x.isFinite = true ∧ s.y.isFinite = true) ∧
    ∃ d, sample (fun _ y => .ok y) ⟨0.0, 1.7976931348623157e308, 0.0, 1.0, 4, 2⟩ = .ok d ∧
      (1.7976931348623157e308 - 0.0 : Float).isFinite = true ∧
      ¬ ∀ s ∈ d.samples, s.x.isFinite = true ∧ s.y.isFinite = true := by
  have hroom : Frame.Roomy 0.0 1.0 := by
    have hone : (1 : ℚ) ≤ 2 ^ (1022 : ℤ) := one_le_zpow₀ (by norm_num) (by norm_num)
    refine Frame.roomy_of_abs_le ?_ ?_
    · rw [value_zero, abs_zero]
      exact zero_le_one.trans hone
    · rwa [value_one, abs_one]
  have hwide : (⟨0.0, 1.7976931348623157e308, 0.0, 1.0, 4, 2⟩ : Frame).fault? = none := by
    decide +kernel
  have hd := sample_of_fits (Frame.fault?_unit_square 3 2 (by decide) (by decide)) (by decide)
    fun _ y => .ok y
  have hd' := sample_of_fits hwide (by decide) fun _ y => .ok y
  refine ⟨⟨_, hd, (coordinates_of_sample hd).2.2.2.1 hroom hroom⟩, _, hd', by decide +kernel,
    fun hall => ?_⟩
  exact absurd ((coordinates_of_sample hd').2.2.1.mp hall).1 (by decide +kernel)

/-- Between ends whose distance overflows, a field asks for slopes at a coordinate that is not a
number and at an infinite one. -/
theorem survey_between_distant_ends :
    let r : Frame := ⟨-1e308, 1e308, 0.0, 1.0, 2, 2⟩
    r.fault? = none ∧ (∃ p ∈ (survey r).calls fun _ _ => .ok 0.0, p.1.isNaN = true) ∧
      ∃ p ∈ (survey r).calls fun _ _ => .ok 0.0, p.1.isInf = true := by
  intro r
  have hr : r.fault? = none := by decide +kernel
  rw [calls_survey hr (by decide)]
  exact ⟨hr,
    ⟨(r.gridX 0, r.gridY 0), mem_points.mpr ⟨0, by decide, 0, by decide, rfl⟩, by decide +kernel⟩,
    (r.gridX 1, r.gridY 0), mem_points.mpr ⟨0, by decide, 1, by decide, rfl⟩, by decide +kernel⟩

end DirectionField

end InitialValue
