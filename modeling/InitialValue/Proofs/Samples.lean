import InitialValue.DirectionField
import InitialValue.Proofs.Binary64.Elementary
import InitialValue.Proofs.Limits
import InitialValue.Proofs.Outcome
import Mathlib.Algebra.Group.Nat.Defs

/-! Where the samples of a direction field are, and what they show. The rows of the grid
are put one behind the other, so that the place of a sample is reckoned from its column
and its row and tells them in turn. A sample depends on the slope at its own point alone;
its direction is a unit vector, as far as the rounding lets it be. The place is reckoned
in 64-bit words: a row beyond the grid that is far enough away comes round to the places
of the samples again. -/

namespace InitialValue

open Binary64 (value value_one)
open Sampling (Slope)

/-! ### Rows put together -/

section Rows

variable {α β : Type} {l : List α} {g : α → List β} {n : Nat}

theorem length_flatMap_of_length (hlen : ∀ a ∈ l, (g a).length = n) :
    (l.flatMap g).length = l.length * n := by
  induction l with
  | nil => simp
  | cons a l ih =>
    obtain ⟨ha, hl⟩ := List.forall_mem_cons.mp hlen
    rw [List.flatMap_cons, List.length_append, ha, ih hl, List.length_cons, Nat.succ_mul,
      Nat.add_comm]

/-- Rows of one length are found again by the quotient and the remainder of a place. -/
theorem getElem?_flatMap_of_length (hlen : ∀ a ∈ l, (g a).length = n) (hn : 0 < n) (k : Nat) :
    (l.flatMap g)[k]? = l[k / n]?.bind fun a => (g a)[k % n]? := by
  induction l generalizing k with
  | nil => simp
  | cons a l ih =>
    obtain ⟨ha, hl⟩ := List.forall_mem_cons.mp hlen
    rw [List.flatMap_cons]
    rcases Nat.lt_or_ge k n with hk | hk
    · rw [List.getElem?_append_left (by omega), Nat.div_eq_of_lt hk, Nat.mod_eq_of_lt hk]
      rfl
    · obtain ⟨j, rfl⟩ := Nat.exists_eq_add_of_le' hk
      rw [List.getElem?_append_right (by omega), ha, Nat.add_sub_cancel, ih hl,
        Nat.add_div_right j hn, Nat.add_mod_right]
      rfl

end Rows

/-! ### Frames that have a grid -/

theorem Frame.fault?_eq_none_iff {r : Frame} : r.fault? = none ↔
    (r.xMin.isFinite = true ∧ r.xMax.isFinite = true ∧ ¬ r.xMax ≤ r.xMin) ∧
      (r.yMin.isFinite = true ∧ r.yMax.isFinite = true ∧ ¬ r.yMax ≤ r.yMin) ∧
      2 ≤ r.nx.toNat ∧ 2 ≤ r.ny.toNat := by
  simp only [fault?, ite_some_eq_none_iff, List.any_cons, List.any_nil, Bool.or_false,
    Bool.or_eq_true, Bool.not_eq_true', decide_eq_true_eq, not_or, Bool.not_eq_false,
    UInt64.lt_iff_toNat_lt, Nat.not_lt, and_true]
  exact ⟨fun ⟨⟨hxl, hxh, hyl, hyh⟩, hx, hy, hfew⟩ => ⟨⟨hxl, hxh, hx⟩, ⟨hyl, hyh, hy⟩, hfew⟩,
    fun ⟨⟨hxl, hxh, hx⟩, ⟨hyl, hyh, hy⟩, hfew⟩ => ⟨⟨hxl, hxh, hyl, hyh⟩, hx, hy, hfew⟩⟩

/-- A sample has 40 bytes. -/
theorem Frame.fits_iff {r : Frame} : r.Fits ↔ 40 * (r.nx.toNat * r.ny.toNat) < 2 ^ 63 := by
  unfold Fits Sample.bytes DirectionField.maxBytes
  omega

theorem Frame.fault?_unit_square (nx ny : UInt64) (hnx : 2 ≤ nx.toNat) (hny : 2 ≤ ny.toNat) :
    (⟨0.0, 1.0, 0.0, 1.0, nx, ny⟩ : Frame).fault? = none := by
  have haxis : (0.0 : Float).isFinite = true ∧ (1.0 : Float).isFinite = true ∧
      ¬ (1.0 : Float) ≤ 0.0 := by
    decide +kernel
  exact fault?_eq_none_iff.mpr ⟨haxis, haxis, hnx, hny⟩

/-! ### Directions -/

namespace Sample

variable {slope norm : Float}

/-- The length of `(1, slope)`: of a finite slope no less than its parts are, and in its square
right to one part in 2^47. -/
structure IsNorm (slope norm : Float) : Prop where
  of_isFinite : slope.isFinite = true →
    norm.isFinite = true ∧ 1 ≤ value norm ∧ |value slope| ≤ value norm ∧
    |value norm ^ 2 - (1 + value slope ^ 2)| ≤ 1 / 2 ^ 47 * (1 + value slope ^ 2)
  of_isInf : slope.isInf = true → norm = Binary64.infinity
  of_isNaN : slope.isNaN = true → norm.isNaN = true

theorem isNorm_hypotenuse (slope : Float) : IsNorm slope (Binary64.hypotenuse 1.0 slope) where
  of_isFinite hs := by
    have hone : (1.0 : Float).isFinite = true := rfl
    have hfin := Binary64.isFinite_hypotenuse_one hs
    obtain ⟨h1, hle⟩ := max_le_iff.mp (Binary64.max_le_hypotenuse hone hs)
    have hnormal : (2 : ℚ) ^ (-1022 : ℤ) ≤ max |value 1.0| |value slope| := by
      rw [value_one, abs_one]
      exact le_max_of_le_left (zpow_le_one_of_nonpos₀ one_le_two (by norm_num))
    have hsq := Binary64.abs_sq_hypotenuse_sub_le hone hs hnormal hfin
    rw [value_one, abs_one] at h1
    rw [value_one, one_pow] at hsq
    exact ⟨hfin, h1, hle, hsq⟩
  of_isInf hs := Binary64.hypotenuse_of_isInf (.inr hs)
  of_isNaN hs := Binary64.isNaN_hypotenuse rfl (Binary64.isInf_of_isNaN hs) (.inr hs)

/-- The exact quotients by the length have the sum of squares that the length allows for. -/
theorem IsNorm.abs_exact_sub_one_le (h : IsNorm slope norm) (hs : slope.isFinite = true) :
    |(1 / value norm) ^ 2 + (value slope / value norm) ^ 2 - 1| ≤ 3 / 2 ^ 48 := by
  obtain ⟨-, h1, -, hsq⟩ := h.of_isFinite hs
  have hpos := zero_lt_one.trans_le h1
  have hsum : (1 / value norm) ^ 2 + (value slope / value norm) ^ 2 - 1 =
      (1 + value slope ^ 2 - value norm ^ 2) / value norm ^ 2 := by
    field_simp
  rw [hsum, abs_div, abs_sub_comm, abs_of_pos (pow_pos hpos 2), div_le_iff₀ (pow_pos hpos 2)]
  linarith [abs_le.mp hsq]

/-- Division by its length makes a vector of length one. -/
theorem IsNorm.abs_sq_add_sq_sub_one_le (h : IsNorm slope norm) (hs : slope.isFinite = true) :
    |value (1.0 / norm) ^ 2 + value (slope / norm) ^ 2 - 1| ≤ 1 / 2 ^ 46 := by
  obtain ⟨hfin, h1, hle, hsq⟩ := h.of_isFinite hs
  have hpos := zero_lt_one.trans_le h1
  have hx := Binary64.rounds_div (a := 1.0) rfl hfin hpos.ne'
  have hy := Binary64.rounds_div hs hfin hpos.ne'
  rw [value_one] at hx
  have hx1 : |1 / value norm| ≤ 1 := by
    rw [abs_div, abs_one, abs_of_pos hpos]
    exact (div_le_one hpos).mpr h1
  have hy1 : |value slope / value norm| ≤ 1 := by
    rw [abs_div, abs_of_pos hpos]
    exact (div_le_one hpos).mpr hle
  obtain ⟨-, hx1', hxnear⟩ := hx.near_of_abs_le_one hx1
  obtain ⟨-, hy1', hynear⟩ := hy.near_of_abs_le_one hy1
  have hxsq := abs_le.mp (Binary64.abs_sq_sub_sq_le_of_abs_le_one hx1' hx1 hxnear)
  have hysq := abs_le.mp (Binary64.abs_sq_sub_sq_le_of_abs_le_one hy1' hy1 hynear)
  have hunit := Binary64.unit_le
  have hexact := abs_le.mp (h.abs_exact_sub_one_le hs)
  exact abs_le.mpr ⟨by linarith, by linarith⟩

end Sample

/-! ### Samples -/

/-- A sample tells what the slope function does at its point: no direction where it fails, and else
the vector `(1, slope)` divided by its length, which is a unit vector if the slope is finite. -/
structure Sample.Shows (f : Slope Float) (x y : Float) (s : Sample) : Prop where
  x_eq : s.x = x
  y_eq : s.y = y
  none_iff : s.direction = none ↔ ∃ c, f x y = .error c
  unit : ∀ slope, f x y = .ok slope →
    ∃ norm, IsNorm slope norm ∧ s.direction = some (1.0 / norm, slope / norm) ∧
      (slope.isFinite = true → |value (1.0 / norm) ^ 2 + value (slope / norm) ^ 2 - 1| ≤ 1 / 2 ^ 46)

theorem Sample.shows_take (f : Slope Float) (x y : Float) : (take f x y).Shows f x y := by
  refine ⟨rfl, rfl, ?_, fun slope hslope => ?_⟩
  · cases hf : f x y <;> simp [take, hf, Except.toOption]
  · refine ⟨_, isNorm_hypotenuse slope, ?_, (isNorm_hypotenuse slope).abs_sq_add_sq_sub_one_le⟩
    simp [take, hslope, Sample.unit, Except.toOption]

theorem Sample.take_congr {f g : Slope Float} {x y : Float}
    (h : (g x y).toOption = (f x y).toOption) : take g x y = take f x y := by
  rw [take, take, h]

namespace DirectionField

variable {f : Slope Float} {r : Frame} {d : DirectionField} {ix iy : UInt64}

/-- The samples of a frame, row by row. -/
def samplesOver (f : Slope Float) (r : Frame) : List Sample :=
  (List.range r.ny.toNat).flatMap fun iy =>
    (List.range r.nx.toNat).map fun ix => .take f (r.gridX ix) (r.gridY iy)

theorem sample_of_fits (hr : r.fault? = none) (hfit : r.Fits) (f : Slope Float) :
    sample f r = .ok ⟨r, samplesOver f r⟩ := by
  unfold sample
  rw [hr]
  exact if_pos hfit

theorem sample_of_not_fits (hr : r.fault? = none) (hfit : ¬ r.Fits) (f : Slope Float) :
    sample f r = .error .capacityOverflow := by
  unfold sample
  rw [hr]
  exact if_neg hfit

theorem sample_eq_ok_iff :
    sample f r = .ok d ↔ r.fault? = none ∧ r.Fits ∧ d = ⟨r, samplesOver f r⟩ := by
  cases hr : r.fault? with
  | some fault => simp [sample, hr]
  | none =>
    by_cases hfit : r.Fits
    · simp [sample_of_fits hr hfit, hfit, eq_comm]
    · simp [sample_of_not_fits hr hfit, hfit]

theorem length_samplesOver (f : Slope Float) (r : Frame) :
    (samplesOver f r).length = r.nx.toNat * r.ny.toNat := by
  rw [samplesOver, length_flatMap_of_length (n := r.nx.toNat) (by simp), List.length_range,
    Nat.mul_comm]

/-- The sample at a place is that of the column and the row which the place stands for. -/
theorem getElem?_samplesOver {k : Nat} (hk : k < r.nx.toNat * r.ny.toNat) :
    (samplesOver f r)[k]? =
      some (.take f (r.gridX (k % r.nx.toNat)) (r.gridY (k / r.nx.toNat))) := by
  have hnx : 0 < r.nx.toNat := Nat.pos_of_mul_pos_right (Nat.zero_lt_of_lt hk)
  have hrow : k / r.nx.toNat < r.ny.toNat := Nat.div_lt_of_lt_mul hk
  rw [samplesOver, getElem?_flatMap_of_length (n := r.nx.toNat) (by simp) hnx,
    List.getElem?_range hrow, Option.bind_some, List.getElem?_map,
    List.getElem?_range (Nat.mod_lt k hnx)]
  rfl

/-! ### Places in 64-bit words -/

/-- The place of a column and a row, before it is reckoned in 64-bit words. -/
def place (nx ix iy : UInt64) : Nat := iy.toNat * nx.toNat + ix.toNat

theorem get?_eq (hd : sample f r = .ok d) (hix : ix < r.nx) :
    d.get? ix iy = (samplesOver f r)[place r.nx ix iy % 2 ^ 64]? := by
  obtain ⟨-, -, rfl⟩ := sample_eq_ok_iff.mp hd
  have hword : (iy * r.nx + ix).toNat = place r.nx ix iy % 2 ^ 64 := by
    rw [UInt64.toNat_add, UInt64.toNat_mul, Nat.mod_add_mod]
    rfl
  unfold get?
  rw [if_neg (UInt64.not_le.mpr hix), hword]

theorem get?_of_le (hd : sample f r = .ok d) (hix : r.nx ≤ ix) : d.get? ix iy = none := by
  obtain ⟨-, -, rfl⟩ := sample_eq_ok_iff.mp hd
  exact if_pos hix

/-- In a column of the grid, the places of the samples are those of the rows of the grid. -/
theorem place_lt_iff {nx ny : UInt64} (hix : ix < nx) :
    place nx ix iy < nx.toNat * ny.toNat ↔ iy < ny := by
  rw [UInt64.lt_iff_toNat_lt] at hix ⊢
  unfold place
  constructor
  · intro hlt
    rcases Nat.lt_or_ge iy.toNat ny.toNat with hiy | hiy
    · exact hiy
    · have habove := Nat.mul_le_mul_right nx.toNat hiy
      rw [Nat.mul_comm nx.toNat] at hlt
      omega
  · intro hlt
    have hbelow := Nat.mul_le_mul_right nx.toNat hlt
    rw [Nat.succ_mul] at hbelow
    rw [Nat.mul_comm nx.toNat]
    omega

/-- A point of the grid has its own sample there. -/
theorem get?_of_lt (hd : sample f r = .ok d) (hix : ix < r.nx) (hiy : iy < r.ny)
    (hfit : place r.nx ix iy < 2 ^ 64) :
    d.get? ix iy = some (.take f (r.gridX ix.toNat) (r.gridY iy.toNat)) := by
  have hlt := UInt64.lt_iff_toNat_lt.mp hix
  have hcolumn : place r.nx ix iy % r.nx.toNat = ix.toNat := by
    rw [place, Nat.mul_comm, Nat.mul_add_mod, Nat.mod_eq_of_lt hlt]
  have hrow : place r.nx ix iy / r.nx.toNat = iy.toNat := by
    rw [place, Nat.mul_comm, Nat.mul_add_div (Nat.zero_lt_of_lt hlt), Nat.div_eq_of_lt hlt,
      Nat.add_zero]
  rw [get?_eq hd hix, Nat.mod_eq_of_lt hfit, getElem?_samplesOver ((place_lt_iff hix).mpr hiy),
    hcolumn, hrow]

theorem isSome_get? (hd : sample f r = .ok d) : (d.get? ix iy).isSome = true ↔
    ix < r.nx ∧ place r.nx ix iy % 2 ^ 64 < r.nx.toNat * r.ny.toNat := by
  rcases Nat.lt_or_ge ix.toNat r.nx.toNat with hix | hix
  · rw [get?_eq hd (UInt64.lt_iff_toNat_lt.mpr hix), isSome_getElem?, length_samplesOver]
    simp [UInt64.lt_iff_toNat_lt, hix]
  · rw [get?_of_le hd (UInt64.le_iff_toNat_le.mpr hix)]
    simp [UInt64.lt_iff_toNat_lt, Nat.not_lt.mpr hix]

/-- The place that comes round to that of the first sample belongs to a row above the grid. -/
theorem exists_above_eq_corner (hd : sample f r = .ok d) (hfit : r.nx.toNat * r.ny.toNat ≤ 2 ^ 64) :
    ∃ ix iy, ix < r.nx ∧ r.ny ≤ iy ∧ d.get? ix iy = d.get? 0 0 ∧ (d.get? ix iy).isSome = true := by
  -- Quotient and remainder of 2^64 are the row and the column with this place.
  obtain ⟨-, -, hnx, hny⟩ := Frame.fault?_eq_none_iff.mp (sample_eq_ok_iff.mp hd).1
  have hcolumn : 2 ^ 64 % r.nx.toNat < r.nx.toNat := Nat.mod_lt _ (by omega)
  have hrow : 2 ^ 64 / r.nx.toNat < 2 ^ 64 := Nat.div_lt_self (by omega) hnx
  obtain ⟨ix, hix⟩ : ∃ ix : UInt64, ix.toNat = 2 ^ 64 % r.nx.toNat :=
    ⟨.ofNatLT _ (Nat.lt_trans hcolumn r.nx.toNat_lt), rfl⟩
  obtain ⟨iy, hiy⟩ : ∃ iy : UInt64, iy.toNat = 2 ^ 64 / r.nx.toNat := ⟨.ofNatLT _ hrow, rfl⟩
  have hlt : ix < r.nx := UInt64.lt_iff_toNat_lt.mpr (hix ▸ hcolumn)
  have hle : r.ny ≤ iy := by
    rw [UInt64.le_iff_toNat_le, hiy, Nat.le_div_iff_mul_le (by omega), Nat.mul_comm]
    exact hfit
  have hplace : place r.nx ix iy = 2 ^ 64 := by
    rw [place, hix, hiy, Nat.mul_comm, Nat.div_add_mod]
  have h0 : (0 : UInt64) < r.nx := UInt64.lt_iff_toNat_lt.mpr (Nat.lt_of_lt_of_le Nat.two_pos hnx)
  refine ⟨ix, iy, hlt, hle, ?_, ?_⟩
  · rw [get?_eq hd hlt, get?_eq hd h0, hplace]
    simp [place]
  · rw [isSome_get? hd, hplace, Nat.mod_self]
    exact ⟨hlt, Nat.mul_pos (by omega) (by omega)⟩

/-! ### Reading a field -/

/-- The samples of a frame are a list where they take up less than 2^63 bytes, at 40 bytes each.
Whatever the slope function does elsewhere, each point of the grid is then found with its own
sample, which the slope at that point alone decides. -/
theorem samples_of_frame (f : Slope Float) (hr : r.fault? = none) :
    (40 * (r.nx.toNat * r.ny.toNat) < 2 ^ 63 →
      ∃ d, sample f r = .ok d ∧ d.frame = r ∧ d.samples.length = r.nx.toNat * r.ny.toNat ∧
        ∀ ix iy, ix < r.nx → iy < r.ny →
          ∃ s, d.get? ix iy = some s ∧
            s.Shows f (r.xMin + (r.xMax - r.xMin) / (r.nx - 1).toFloat * ix.toFloat)
              (r.yMin + (r.yMax - r.yMin) / (r.ny - 1).toFloat * iy.toFloat) ∧
            ∀ g : Slope Float, (g s.x s.y).toOption = (f s.x s.y).toOption →
              ∃ d', sample g r = .ok d' ∧ d'.get? ix iy = some s) ∧
      (2 ^ 63 ≤ 40 * (r.nx.toNat * r.ny.toNat) → sample f r = .error .capacityOverflow) := by
  refine ⟨fun hbytes => ?_,
    fun hbytes => sample_of_not_fits hr (mt Frame.fits_iff.mp (Nat.not_lt.mpr hbytes)) f⟩
  have hfit : r.Fits := Frame.fits_iff.mpr hbytes
  refine ⟨⟨r, samplesOver f r⟩, sample_of_fits hr hfit f, rfl, length_samplesOver f r,
    fun ix iy hix hiy => ?_⟩
  have hplace : place r.nx ix iy < 2 ^ 64 := Nat.lt_trans ((place_lt_iff hix).mpr hiy) (by omega)
  have hget (g : Slope Float) := get?_of_lt (sample_of_fits hr hfit g) hix hiy hplace
  have hx : r.gridX ix.toNat = r.xMin + (r.xMax - r.xMin) / (r.nx - 1).toFloat * ix.toFloat := by
    rw [Frame.gridX, UInt64.ofNat_toNat, Frame.dx]
  have hy : r.gridY iy.toNat = r.yMin + (r.yMax - r.yMin) / (r.ny - 1).toFloat * iy.toFloat := by
    rw [Frame.gridY, UInt64.ofNat_toNat, Frame.dy]
  rw [hx, hy] at hget
  refine ⟨_, hget f, Sample.shows_take f _ _, fun g hg => ⟨_, sample_of_fits hr hfit g, ?_⟩⟩
  exact (hget g).trans (congrArg some (Sample.take_congr hg))

/-- On a frame that is wider than high the reciprocal has no direction at the left edge, which moves
none of the samples beside it. -/
theorem samples_of_reciprocal :
    let f : Slope Float := fun x _ => if x == 0.0 then .error .divisionByZero else .ok (1.0 / x)
    let r : Frame := ⟨0.0, 2.0, 0.0, 1.0, 3, 2⟩
    r.fault? = none ∧ 40 * (r.nx.toNat * r.ny.toNat) < 2 ^ 63 ∧ ∃ d, sample f r = .ok d ∧
      d.samples.length = 6 ∧
      (∃ s, d.get? 0 1 = some s ∧ (s.x, s.y) = (0.0, 1.0) ∧ s.direction = none) ∧
      ∃ s, d.get? 1 1 = some s ∧ (s.x, s.y) = (1.0, 1.0) ∧ ∃ norm, Sample.IsNorm 1.0 norm ∧
        s.direction = some (1.0 / norm, 1.0 / norm) := by
  intro f r
  have hr : r.fault? = none := by decide +kernel
  have hfit : 40 * (r.nx.toNat * r.ny.toNat) < 2 ^ 63 := by decide
  obtain ⟨d, hd, -, hlen, hget⟩ := (samples_of_frame f hr).1 hfit
  obtain ⟨left, hleft, hl, -⟩ := hget 0 1 (by decide) (by decide)
  obtain ⟨right, hright, hm, -⟩ := hget 1 1 (by decide) (by decide)
  have hzero : r.xMin + (r.xMax - r.xMin) / (r.nx - 1).toFloat * (0 : UInt64).toFloat = 0.0 := by
    decide +kernel
  have hone : r.xMin + (r.xMax - r.xMin) / (r.nx - 1).toFloat * (1 : UInt64).toFloat = 1.0 := by
    decide +kernel
  have htop : r.yMin + (r.yMax - r.yMin) / (r.ny - 1).toFloat * (1 : UInt64).toFloat = 1.0 := by
    decide +kernel
  rw [hzero, htop] at hl
  rw [hone, htop] at hm
  have hfail : f 0.0 1.0 = .error .divisionByZero := if_pos (by decide +kernel)
  have hvalue : f 1.0 1.0 = .ok 1.0 :=
    (if_neg (by decide +kernel)).trans (congrArg _ (by decide +kernel))
  obtain ⟨norm, hnorm, hdirection, -⟩ := hm.unit _ hvalue
  exact ⟨hr, hfit, d, hd, hlen, ⟨left, hleft, by rw [hl.x_eq, hl.y_eq], hl.none_iff.mpr ⟨_, hfail⟩⟩,
    right, hright, by rw [hm.x_eq, hm.y_eq], norm, hnorm, hdirection⟩

/-- There is no room for the samples of a frame with 2^30 points across and up, although a word can
count them. -/
theorem no_room_for_samples :
    let r : Frame := ⟨0.0, 1.0, 0.0, 1.0, 1073741824, 1073741824⟩
    r.fault? = none ∧ r.nx.toNat * r.ny.toNat < 2 ^ 64 ∧
      ¬ ∃ d, sample (fun _ y => .ok y) r = .ok d ∧ d.samples.length = r.nx.toNat * r.ny.toNat := by
  intro r
  have hr : r.fault? = none := Frame.fault?_unit_square _ _ (by decide) (by decide)
  refine ⟨hr, by decide, ?_⟩
  rintro ⟨d, hd, -⟩
  exact absurd (sample_eq_ok_iff.mp hd).2.1 (by decide)

/-- A field has no sample beside the grid, and none above it as long as the place is not too large
for a word. Rows whose places come round to those of the samples do have samples, and there always
is such a row. -/
theorem indices_of_samples (hd : sample f r = .ok d) :
    (∀ ix iy, place r.nx ix iy < 2 ^ 64 → ((d.get? ix iy).isSome = true ↔ ix < r.nx ∧ iy < r.ny)) ∧
      (∀ ix iy, (d.get? ix iy).isSome = true ↔
        ix < r.nx ∧ place r.nx ix iy % 2 ^ 64 < r.nx.toNat * r.ny.toNat) ∧
      (r.nx.toNat * r.ny.toNat ≤ 2 ^ 64 →
        ∃ ix iy, ix < r.nx ∧ r.ny ≤ iy ∧ d.get? ix iy = d.get? 0 0 ∧
          (d.get? ix iy).isSome = true) := by
  refine ⟨fun ix iy hfit => ?_, fun ix iy => isSome_get? hd, fun hfit => ?_⟩
  · rw [isSome_get? hd, Nat.mod_eq_of_lt hfit]
    exact and_congr_right place_lt_iff
  · exact exists_above_eq_corner hd hfit

/-- The field of the unit square with two points across and up has its four samples, and the first
of them once more two to the power of 63 rows above. -/
theorem indices_of_unit_square : ∃ d, sample (fun _ y => .ok y) ⟨0.0, 1.0, 0.0, 1.0, 2, 2⟩ = .ok d ∧
    (d.get? 1 1).isSome = true ∧ (d.get? 0 2).isSome = false ∧
    (d.get? 0 9223372036854775808).isSome = true := by
  have hd := sample_of_fits (Frame.fault?_unit_square 2 2 (by decide) (by decide)) (by decide)
    fun _ y => .ok y
  obtain ⟨hwithin, hall, -⟩ := indices_of_samples hd
  refine ⟨_, hd, (hwithin 1 1 (by decide)).mpr (by decide), ?_,
    (hall 0 9223372036854775808).mpr (by decide)⟩
  exact Bool.eq_false_iff.mpr fun habove => absurd ((hwithin 0 2 (by decide)).mp habove) (by decide)

/-- There is a sample in a row that the grid does not have. -/
theorem exists_sample_above_grid :
    ∃ d, sample (fun _ y => .ok y) ⟨0.0, 1.0, 0.0, 1.0, 2, 2⟩ = .ok d ∧
      ¬ ∀ ix iy, (d.get? ix iy).isSome = true ↔ ix < 2 ∧ iy < 2 := by
  have hd := sample_of_fits (Frame.fault?_unit_square 2 2 (by decide) (by decide)) (by decide)
    fun _ y => .ok y
  refine ⟨_, hd, fun hall => ?_⟩
  exact absurd ((hall 0 9223372036854775808).mp ((isSome_get? hd).mpr (by decide))).2 (by decide)

end DirectionField

end InitialValue
