import InitialValue.Binary64.Elementary
import InitialValue.Proofs.Binary64.Monotone
import InitialValue.Proofs.Binary64.Order
import InitialValue.Proofs.Binary64.Root

/-! What the elementary functions compute. A hypotenuse is no shorter than a leg, and its
square is the sum of the squares of the legs but for one part in 2^47, unless both legs
are below the normal values. The logarithm of `1 + x` is that of the rounded sum,
corrected by the ratio of `x` to what the rounding leaves of it. -/

namespace InitialValue.Binary64

open Float.Model (Format UnpackedFloat)
open Float.Model.UnpackedFloat

variable {a b : Float}

/-! ### Errors of one step after another -/

section Errors

variable {x y z ε δ : ℚ}

theorem abs_sub_le_chain (hε : 0 ≤ ε) (h : |x - y| ≤ ε * y) (h' : |y - z| ≤ δ * z) :
    |x - z| ≤ (ε + δ + ε * δ) * z := by
  have hy : y ≤ z + δ * z := by linarith [(abs_le.mp h').2]
  calc |x - z| ≤ |x - y| + |y - z| := abs_sub_le x y z
    _ ≤ ε * y + δ * z := add_le_add h h'
    _ ≤ ε * (z + δ * z) + δ * z := add_le_add_left (mul_le_mul_of_nonneg_left hy hε) _
    _ = (ε + δ + ε * δ) * z := by ring

theorem abs_sq_sub_sq_le (hy : 0 ≤ y) (h : |x - y| ≤ ε * y) :
    |x ^ 2 - y ^ 2| ≤ (2 * ε + ε ^ 2) * y ^ 2 := by
  have hsum : |x + y| ≤ ε * y + 2 * y := calc
    |x + y| = |x - y + 2 * y| := by ring_nf
    _ ≤ |x - y| + |2 * y| := abs_add_le _ _
    _ ≤ ε * y + 2 * y := add_le_add h (abs_of_nonneg (by linarith)).le
  calc |x ^ 2 - y ^ 2| = |x - y| * |x + y| := by rw [← abs_mul]; ring_nf
    _ ≤ ε * y * (ε * y + 2 * y) := mul_le_mul h hsum (abs_nonneg _) ((abs_nonneg _).trans h)
    _ = (2 * ε + ε ^ 2) * y ^ 2 := by ring

theorem abs_sq_sub_sq_le_of_abs_le_one (hx : |x| ≤ 1) (hy : |y| ≤ 1) (h : |x - y| ≤ δ) :
    |x ^ 2 - y ^ 2| ≤ 2 * δ := by
  have hsum : |x + y| ≤ 2 := (abs_add_le x y).trans (by linarith)
  calc |x ^ 2 - y ^ 2| = |x + y| * |x - y| := by rw [← abs_mul, sq_sub_sq]
    _ ≤ 2 * δ := mul_le_mul hsum h (abs_nonneg _) zero_le_two

end Errors

/-! ### Two legs -/

theorem unit_le : unit ≤ 1 / 2 ^ 60 := by
  have h : (2 : ℚ) ^ (-60 : ℤ) = 1 / 2 ^ 60 := by norm_num
  rw [← h]
  exact two_zpow_le (by decide)

theorem two_le_half_bound : (2 : ℚ) ≤ 2 ^ (1023 : ℤ) := by
  rw [← zpow_one (2 : ℚ)]
  exact two_zpow_le (by norm_num)

theorem two_lt_bound : 2 < bound :=
  two_le_half_bound.trans_lt (zpow_lt_zpow_right₀ one_lt_two (by norm_num))

namespace Rounds

variable {q : ℚ}

theorem near_of_abs_le_two (h : Rounds q a.toModel.unpack) (hq : |q| ≤ 2) :
    a.isFinite = true ∧ |value a - q| ≤ |q| / 2 ^ 52 + unit :=
  ⟨h.isFinite_of_le (hq.trans two_le_half_bound), h.abs_sub_le (hq.trans_lt two_lt_bound)⟩

theorem near_of_abs_le_one (h : Rounds q a.toModel.unpack) (hq : |q| ≤ 1) :
    a.isFinite = true ∧ |value a| ≤ 1 ∧ |value a - q| ≤ 1 / 2 ^ 52 + unit := by
  obtain ⟨hfin, hnear⟩ := h.near_of_abs_le_two (by linarith)
  have hone : |value 1.0| = 1 := by rw [value_one, abs_one]
  exact ⟨hfin, (h.abs_le_of_le (a := 1.0) (by rwa [hone])).trans hone.le, by linarith⟩

end Rounds

/-- The factor by which the long side is longer than the longer leg. -/
def stretch (long short : Float) : Float := (1.0 + short / long * (short / long)).sqrt

/-- Two legs, the longer one first. -/
structure Legs (long short : Float) : Prop where
  long_finite : long.isFinite = true
  short_finite : short.isFinite = true
  nonneg : 0 ≤ value short
  le : value short ≤ value long
  pos : 0 < value long

namespace Legs

variable {long short : Float}

theorem quotient_nonneg (h : Legs long short) : 0 ≤ value short / value long :=
  div_nonneg h.nonneg h.pos.le

theorem quotient_le_one (h : Legs long short) : value short / value long ≤ 1 :=
  (div_le_one h.pos).mpr h.le

/-- The ratio of the legs, rounded. -/
theorem ratio (h : Legs long short) :
    (short / long).isFinite = true ∧ 0 ≤ value (short / long) ∧
      value (short / long) ≤ 1 ∧
        |value (short / long) - value short / value long| ≤ 1 / 2 ^ 52 + unit := by
  have hround := rounds_div h.short_finite h.long_finite h.pos.ne'
  have habs := abs_of_nonneg h.quotient_nonneg
  obtain ⟨hfin, h1, hnear⟩ := hround.near_of_abs_le_one (habs.trans_le h.quotient_le_one)
  exact ⟨hfin, hround.ge_of_ge 0.0 h.quotient_nonneg, (le_abs_self _).trans h1, hnear⟩

/-- The square of the ratio, rounded. -/
theorem sq_ratio (h : Legs long short) : (short / long * (short / long)).isFinite = true ∧
    0 ≤ value (short / long * (short / long)) ∧ value (short / long * (short / long)) ≤ 1 ∧
    |value (short / long * (short / long)) - (value short / value long) ^ 2| ≤ 4 / 2 ^ 52 := by
  obtain ⟨hfin, h0, h1, hnear⟩ := h.ratio
  have hround := rounds_mul hfin hfin
  rw [← sq] at hround
  have hsq0 := sq_nonneg (value (short / long))
  have hsq1 := pow_le_one₀ h0 h1 (n := 2)
  obtain ⟨hsqfin, hle, hlast⟩ := hround.near_of_abs_le_one ((abs_of_nonneg hsq0).trans_le hsq1)
  refine ⟨hsqfin, hround.ge_of_ge 0.0 hsq0, (le_abs_self _).trans hle, ?_⟩
  have hexact := abs_sq_sub_sq_le_of_abs_le_one ((abs_of_nonneg h0).trans_le h1)
    ((abs_of_nonneg h.quotient_nonneg).trans_le h.quotient_le_one) hnear
  have hunit := unit_le
  exact (abs_sub_le _ _ _).trans ((add_le_add hlast hexact).trans (by linarith))

/-- What the root is taken of. -/
theorem one_add_sq_ratio (h : Legs long short) {t : Float}
    (ht : 1.0 + short / long * (short / long) = t) :
    t.isFinite = true ∧ 1 ≤ value t ∧ value t ≤ 2 ∧
      |value t - (1 + (value short / value long) ^ 2)| ≤
        7 / 2 ^ 52 * (1 + (value short / value long) ^ 2) := by
  obtain ⟨hfin, h0, h1, hnear⟩ := h.sq_ratio
  have hround := rounds_add (a := 1.0) rfl hfin
  rw [ht, value_one] at hround
  generalize value (short / long * (short / long)) = p at h0 h1 hnear hround
  have hq2 := sq_nonneg (value short / value long)
  generalize (value short / value long) ^ 2 = q2 at hnear hq2 ⊢
  have habs : |1 + p| = 1 + p := abs_of_nonneg (by linarith)
  have hunit := unit_le
  obtain ⟨htfin, hlast⟩ := hround.near_of_abs_le_two (by linarith)
  rw [habs] at hlast
  refine ⟨htfin, ?_, ?_, ?_⟩
  · exact value_one.ge.trans (hround.ge_of_ge 1.0 (by rw [value_one]; linarith))
  · exact (hround.le_of_le 2.0 (by rw [value_two]; linarith)).trans value_two.le
  · have hfirst : |value t - (1 + p)| ≤ 2 / 2 ^ 52 * (1 + p) := by linarith
    have hsecond : |1 + p - (1 + q2)| ≤ 4 / 2 ^ 52 * (1 + q2) := by
      rw [add_sub_add_left_eq_sub]
      linarith
    refine (abs_sub_le_chain (by norm_num) hfirst hsecond).trans ?_
    exact mul_le_mul_of_nonneg_right (by norm_num) (by linarith)

theorem stretch_bounds (h : Legs long short) : (stretch long short).isFinite = true ∧
    1 ≤ value (stretch long short) ∧ value (stretch long short) ≤ 2 := by
  obtain ⟨hfin, h1, h2, -⟩ := h.one_add_sq_ratio rfl
  have hpos := zero_lt_one.trans_le h1
  refine ⟨isFinite_sqrt hfin hpos (by linarith), ?_, ?_⟩
  · have hle := value_le_sqrt hfin hpos (c := 1.0) (by rw [value_one]; norm_num)
      (by rwa [value_one, one_pow])
    rwa [value_one] at hle
  · have hle := value_sqrt_le hfin hpos (c := 2.0) (by rw [value_two]; norm_num)
      (by rw [value_two]; linarith)
    rwa [value_two] at hle

/-- The square of the factor. -/
theorem abs_sq_stretch_sub_le (h : Legs long short) :
    |value (stretch long short) ^ 2 - (1 + (value short / value long) ^ 2)| ≤
      11 / 2 ^ 52 * (1 + (value short / value long) ^ 2) := by
  obtain ⟨hfin, h1, h2, hnear⟩ := h.one_add_sq_ratio rfl
  have hroot := abs_sq_sqrt_sub_le hfin h1 (by linarith)
  refine (abs_sub_le_chain (by norm_num) hroot hnear).trans ?_
  exact mul_le_mul_of_nonneg_right (by norm_num) (add_nonneg zero_le_one (sq_nonneg _))

theorem rounds_mul_stretch (h : Legs long short) :
    Rounds (value long * value (stretch long short)) (long * stretch long short).toModel.unpack :=
  rounds_mul h.long_finite h.stretch_bounds.1

/-- The long side is no shorter than a leg. -/
theorem le_mul_stretch (h : Legs long short) : value long ≤ value (long * stretch long short) :=
  h.rounds_mul_stretch.ge_of_ge long (le_mul_of_one_le_right h.pos.le h.stretch_bounds.2.1)

/-- The square of the long side is the sum of the squares, but for the rounding. -/
theorem abs_sq_mul_stretch_sub_le (h : Legs long short) (hnormal : 2 ^ (-1022 : ℤ) ≤ value long)
    (hfin : (long * stretch long short).isFinite = true) :
    |value (long * stretch long short) ^ 2 - (value long ^ 2 + value short ^ 2)| ≤
      1 / 2 ^ 47 * (value long ^ 2 + value short ^ 2) := by
  obtain ⟨-, h1, -⟩ := h.stretch_bounds
  have hround := h.rounds_mul_stretch
  have hsquare := h.abs_sq_stretch_sub_le
  have hpos := h.pos
  have hsum : value long ^ 2 + value short ^ 2 =
      value long ^ 2 * (1 + (value short / value long) ^ 2) := by
    field_simp
  generalize stretch long short = s at h1 hround hsquare hfin ⊢
  have hlong : value long ≤ value long * value s := le_mul_of_one_le_right hpos.le h1
  have habs := abs_of_pos (hpos.trans_le hlong)
  have hunit : unit ≤ 1 / 2 ^ 52 * value long := calc
    unit = 1 / 2 ^ 52 * 2 ^ (-1022 : ℤ) := by
      rw [show (-1022 : ℤ) = (52 : ℕ) + leastExponent from rfl, two_zpow_nat_add, unit]
      ring
    _ ≤ 1 / 2 ^ 52 * value long := mul_le_mul_of_nonneg_left hnormal (by norm_num)
  have hrange : |value long * value s| < bound :=
    not_le.mp fun hover => hround.not_isFinite hover hfin
  have hlast := hround.abs_sub_le hrange
  rw [habs] at hlast
  have hfirst : |value (long * s) - value long * value s| ≤
      2 / 2 ^ 52 * (value long * value s) := by linarith
  have hsecond : |(value long * value s) ^ 2 - (value long ^ 2 + value short ^ 2)| ≤
      11 / 2 ^ 52 * (value long ^ 2 + value short ^ 2) := calc
    _ = value long ^ 2 * |value s ^ 2 - (1 + (value short / value long) ^ 2)| := by
      rw [hsum, mul_pow, ← mul_sub, abs_mul, abs_of_nonneg (sq_nonneg _)]
    _ ≤ value long ^ 2 * (11 / 2 ^ 52 * (1 + (value short / value long) ^ 2)) :=
      mul_le_mul_of_nonneg_left hsquare (sq_nonneg _)
    _ = 11 / 2 ^ 52 * (value long ^ 2 + value short ^ 2) := by
      rw [hsum]
      ring
  refine (abs_sub_le_chain (by norm_num)
    (abs_sq_sub_sq_le (hpos.trans_le hlong).le hfirst) hsecond).trans ?_
  exact mul_le_mul_of_nonneg_right (by norm_num) (add_nonneg (sq_nonneg _) (sq_nonneg _))

end Legs

/-! ### The long side of a right triangle -/

section Hypotenuse

theorem isInf_abs (a : Float) : a.abs.isInf = a.isInf := by
  change a.abs.toModel.unpack.isInf = a.toModel.unpack.isInf
  rw [unpack_abs]
  cases a.toModel.unpack <;> rfl

theorem isInf_of_isNaN (ha : a.isNaN = true) : a.isInf = false := by
  change a.toModel.unpack.isInf = false
  rw [unpack_of_isNaN ha]
  rfl

theorem abs_eq_infinity (ha : a.isInf = true) : a.abs = infinity := by
  change a.toModel.unpack.isInf = true at ha
  change Float.ofModel (Float.Model.pack a.toModel.unpack.abs) = infinity
  cases hu : a.toModel.unpack with
  | infinity s => rfl
  | notANumber | zero s | finite s m e hm =>
    rw [hu] at ha
    cases ha

theorem larger_infinity_left (b : Float) : larger infinity b = infinity := by
  unfold larger
  rw [if_neg (by decide)]
  refine if_neg fun hlt => ?_
  have hb := (isNaN_of_lt hlt).2
  exact absurd ((lt_iff rfl hb).mp hlt) (not_lt.mpr ((le_iff hb rfl).mp (le_infinity hb)))

theorem larger_infinity_right (ha : a.isInf = false) : larger a infinity = infinity := by
  unfold larger
  split_ifs with hn hlt
  · rfl
  · rfl
  · have hfin := isFinite_iff.mpr ⟨Bool.eq_false_iff.mpr hn, ha⟩
    have hbelow : value a < value infinity := (le_abs_self _).trans_lt (abs_value_lt hfin)
    exact absurd ((lt_iff (isNaN_eq_false hfin) rfl).mpr hbelow) hlt

theorem isNaN_add (h : a.isNaN = true ∨ b.isNaN = true) : (a + b).isNaN = true := by
  have hsum : add Format.binary64 a.toModel.unpack b.toModel.unpack = .notANumber := by
    rcases h with h | h <;> rw [unpack_of_isNaN h]
    · rfl
    · cases a.toModel.unpack <;> rfl
  change (Float.Model.pack (add _ a.toModel.unpack b.toModel.unpack)).unpack.isNaN = true
  rw [hsum]
  rfl

/-- An infinite leg makes the long side infinite, even beside what is not a number. -/
theorem hypotenuse_of_isInf (h : a.isInf = true ∨ b.isInf = true) : hypotenuse a b = infinity := by
  have hlong : larger a.abs b.abs = infinity := by
    cases ha : a.isInf with
    | true => rw [abs_eq_infinity ha, larger_infinity_left]
    | false =>
      rw [abs_eq_infinity (h.resolve_left (by simp [ha]))]
      exact larger_infinity_right ((isInf_abs a).trans ha)
  unfold hypotenuse
  dsimp only
  rw [hlong]
  exact if_pos rfl

theorem isNaN_hypotenuse (ha : a.isInf = false) (hb : b.isInf = false)
    (h : a.isNaN = true ∨ b.isNaN = true) : (hypotenuse a b).isNaN = true := by
  have hlong : (larger a.abs b.abs).isInf = false := by
    rcases larger_eq a.abs b.abs with hl | hl <;> rw [hl, isInf_abs]
    · exact ha
    · exact hb
  unfold hypotenuse
  dsimp only
  rw [if_neg (by simp [hlong]), if_pos (by simpa using h)]
  exact isNaN_add h

variable (ha : a.isFinite = true) (hb : b.isFinite = true)

include ha hb

theorem value_larger_abs : value (larger a.abs b.abs) = max |value a| |value b| := by
  rw [value_larger ((isNaN_abs a).trans (isNaN_eq_false ha))
    ((isNaN_abs b).trans (isNaN_eq_false hb)), value_abs, value_abs]

theorem value_smaller_abs : value (smaller a.abs b.abs) = min |value a| |value b| := by
  rw [value_smaller ((isNaN_abs a).trans (isNaN_eq_false ha))
    ((isNaN_abs b).trans (isNaN_eq_false hb)), value_abs, value_abs]

theorem isFinite_larger_abs : (larger a.abs b.abs).isFinite = true := by
  rcases larger_eq a.abs b.abs with h | h <;> rw [h, isFinite_abs] <;> assumption

theorem legs (hpos : 0 < max |value a| |value b|) :
    Legs (larger a.abs b.abs) (smaller a.abs b.abs) where
  long_finite := isFinite_larger_abs ha hb
  short_finite := by
    rcases smaller_eq a.abs b.abs with h | h <;> rw [h, isFinite_abs] <;> assumption
  nonneg := by
    rw [value_smaller_abs ha hb]
    exact le_min (abs_nonneg _) (abs_nonneg _)
  le := by
    rw [value_smaller_abs ha hb, value_larger_abs ha hb]
    exact min_le_max
  pos := by rwa [value_larger_abs ha hb]

theorem hypotenuse_eq : hypotenuse a b = if larger a.abs b.abs == 0.0 then larger a.abs b.abs
    else larger a.abs b.abs * stretch (larger a.abs b.abs) (smaller a.abs b.abs) := by
  have hinf := (isFinite_iff.mp (isFinite_larger_abs ha hb)).2
  unfold hypotenuse
  dsimp only
  have hnan : ¬ (a.isNaN || b.isNaN) = true := by rw [isNaN_eq_false ha, isNaN_eq_false hb]; decide
  rw [if_neg (Bool.eq_false_iff.mp hinf), if_neg hnan]
  rfl

theorem hypotenuse_of_pos (hpos : 0 < max |value a| |value b|) : hypotenuse a b =
    larger a.abs b.abs * stretch (larger a.abs b.abs) (smaller a.abs b.abs) := by
  have hlegs := legs ha hb hpos
  rw [hypotenuse_eq ha hb]
  refine if_neg fun hzero => hlegs.pos.ne' ?_
  exact ((beq_iff (isNaN_eq_false hlegs.long_finite) rfl).mp hzero).trans value_zero

/-- The long side is no shorter than the legs. -/
theorem max_le_hypotenuse : max |value a| |value b| ≤ value (hypotenuse a b) := by
  rcases (le_max_of_le_left (abs_nonneg (value a)) : 0 ≤ max |value a| |value b|).eq_or_lt
    with hzero | hpos
  · have hnum := isNaN_eq_false (isFinite_larger_abs ha hb)
    have hbeq := (beq_iff hnum (b := 0.0) rfl).mpr ((value_larger_abs ha hb).trans hzero.symm)
    rw [hypotenuse_eq ha hb, if_pos hbeq, value_larger_abs ha hb]
  · rw [hypotenuse_of_pos ha hb hpos, ← value_larger_abs ha hb]
    exact (legs ha hb hpos).le_mul_stretch

/-- The square of the long side is the sum of the squares of the legs, but for the rounding. -/
theorem abs_sq_hypotenuse_sub_le (hnormal : 2 ^ (-1022 : ℤ) ≤ max |value a| |value b|)
    (hfin : (hypotenuse a b).isFinite = true) :
    |value (hypotenuse a b) ^ 2 - (value a ^ 2 + value b ^ 2)| ≤
      1 / 2 ^ 47 * (value a ^ 2 + value b ^ 2) := by
  have hpos := (two_zpow_pos _).trans_le hnormal
  have hsum : max |value a| |value b| ^ 2 + min |value a| |value b| ^ 2 =
      value a ^ 2 + value b ^ 2 := by
    rcases le_total |value a| |value b| with h | h
    · rw [max_eq_right h, min_eq_left h, sq_abs, sq_abs, add_comm]
    · rw [max_eq_left h, min_eq_right h, sq_abs, sq_abs]
  have hlong := (legs ha hb hpos).abs_sq_mul_stretch_sub_le
  rw [← hypotenuse_of_pos ha hb hpos, value_larger_abs ha hb, value_smaller_abs ha hb,
    hsum] at hlong
  exact hlong hnormal hfin

end Hypotenuse

/-! ### Values next to one -/

theorem two_zpow_neg (n : Nat) : (2 : ℚ) ^ (-n : ℤ) = 1 / 2 ^ n := by
  rw [zpow_neg, zpow_natCast, one_div]

/-- Next to one there is no other value. -/
theorem value_eq_one (hlow : 1 - 1 / 2 ^ 53 < value a) (hhigh : value a < 1 + 1 / 2 ^ 52) :
    value a = 1 := by
  obtain ⟨k, f, hk, -, habs⟩ := onGrid_abs_value a
  rw [abs_of_nonneg (by linarith)] at habs
  by_cases hf : -(52 : ℕ) ≤ f
  · obtain ⟨j, hj⟩ := exists_mul_two_zpow_eq k hf
    rw [habs, hj, two_zpow_neg] at hlow hhigh ⊢
    have hbelow : ((2 ^ 52 - 1 : ℕ) : ℚ) < j := by
      push_cast
      linarith
    have habove : (j : ℚ) < (2 ^ 52 + 1 : ℕ) := by
      push_cast
      linarith
    rw [Nat.cast_lt] at hbelow habove
    rw [show j = 2 ^ 52 by omega]
    norm_num
  · have hk : (k : ℚ) + 1 ≤ 2 ^ 53 := by exact_mod_cast hk
    have hsmall : value a ≤ (2 ^ 53 - 1) * 2 ^ (-(53 : ℕ) : ℤ) := calc
      value a = k * 2 ^ f := habs
      _ ≤ (2 ^ 53 - 1) * 2 ^ f := mul_le_mul_of_nonneg_right (by linarith) (two_zpow_pos f).le
      _ ≤ _ := mul_le_mul_of_nonneg_left (two_zpow_le (by omega)) (by norm_num)
    rw [two_zpow_neg] at hsmall
    linarith

/-- A sum with one is not farther from one than twice the addend. -/
theorem abs_value_one_add_sub_le (ha : a.isFinite = true) (h1 : |value a| ≤ 1) :
    |value (1.0 + a) - 1 - value a| ≤ |value a| := by
  have hround := rounds_add (a := 1.0) rfl ha
  rw [value_one] at hround
  have hsum : |1 + value a| ≤ 2 := (abs_add_le 1 (value a)).trans (by rw [abs_one]; linarith)
  have hnear := hround.nearest (hsum.trans two_lt_bound.le) 1.0
  rwa [value_one, sub_add_cancel_left, abs_neg, ← sub_sub] at hnear

/-- A small addend is lost. -/
theorem value_one_add (ha : a.isFinite = true) (hsmall : |value a| < 1 / 2 ^ 54) :
    value (1.0 + a) = 1 := by
  have hnear := abs_le.mp (abs_value_one_add_sub_le ha (by linarith))
  have hsign := abs_le.mp (le_refl |value a|)
  exact value_eq_one (by linarith) (by linarith)

/-- The difference of one from what is neither less than its half nor more than its double is
exact. -/
theorem value_sub_one (ha : a.isFinite = true) (hlow : 1 / 2 ≤ value a) (hhigh : value a ≤ 2) :
    value (a - 1.0) = value a - 1 := by
  obtain ⟨k, f, hk, -, habs⟩ := onGrid_abs_value a
  rw [abs_of_nonneg (by linarith)] at habs
  have hf : -(53 : ℕ) ≤ f := by
    by_contra hlt
    have hk : (k : ℚ) < 2 ^ 53 := by exact_mod_cast hk
    have hsmall : value a < 2 ^ 53 * 2 ^ (-(54 : ℕ) : ℤ) := calc
      value a = k * 2 ^ f := habs
      _ < 2 ^ 53 * 2 ^ f := mul_lt_mul_of_pos_right hk (two_zpow_pos f)
      _ ≤ _ := mul_le_mul_of_nonneg_left (two_zpow_le (by omega)) (by norm_num)
    rw [two_zpow_neg] at hsmall
    linarith
  obtain ⟨j, hj⟩ := exists_mul_two_zpow_eq k hf
  rw [hj, two_zpow_neg] at habs
  have hle : j ≤ 2 ^ 54 := by
    have : (j : ℚ) ≤ 2 ^ 54 := by linarith
    exact_mod_cast this
  obtain ⟨c, -, hc⟩ := exists_value_eq_int_mul_two_zpow (k := (j : ℤ) - 2 ^ 53) (e := -(53 : ℕ))
    (abs_le.mpr ⟨by omega, by omega⟩) (by decide) (by decide)
  have hround := rounds_sub ha (b := 1.0) rfl
  rw [value_one] at hround
  refine hround.value_eq (hc.trans ?_)
  rw [habs, two_zpow_neg]
  push_cast
  ring

/-! ### The length of a direction -/

namespace Legs

variable {long short : Float}

/-- Beside a leg that is much longer the short one is lost. -/
theorem value_stretch_eq_one (h : Legs long short)
    (hsmall : value short / value long ≤ 1 / 2 ^ 60) : value (stretch long short) = 1 := by
  obtain ⟨hfin, h0, h1, -⟩ := h.ratio
  obtain ⟨hsqfin, hsq0, -, -⟩ := h.sq_ratio
  obtain ⟨c, -, hc⟩ := exists_value_eq_two_zpow (e := -(60 : ℕ)) (by decide) (by decide)
  rw [two_zpow_neg] at hc
  have hratio : value (short / long) ≤ 1 / 2 ^ 60 := by
    rw [← hc]
    exact (rounds_div h.short_finite h.long_finite h.pos.ne').le_of_le c (by rwa [hc])
  have hsquare : value (short / long * (short / long)) ≤ 1 / 2 ^ 60 := by
    rw [← hc]
    exact (rounds_mul hfin hfin).le_of_le c (hc ▸ (mul_le_of_le_one_left h0 h1).trans hratio)
  have hone := value_one_add hsqfin (by rw [abs_of_nonneg hsq0]; linarith)
  refine le_antisymm ?_ h.stretch_bounds.2.1
  have hle := value_sqrt_le (h.one_add_sq_ratio rfl).1 (by rw [hone]; norm_num) (c := 1.0)
    (by rw [value_one]; norm_num) (by rw [hone, value_one, one_pow])
  rwa [value_one] at hle

/-- The long side stays in range beside a leg that is one or less. -/
theorem isFinite_mul_stretch (h : Legs long short) (hshort : value short ≤ 1) :
    (long * stretch long short).isFinite = true := by
  have hround := h.rounds_mul_stretch
  obtain ⟨-, h1, h2⟩ := h.stretch_bounds
  rcases le_total (value long) (2 ^ (1022 : ℤ)) with hlong | hlong
  · refine hround.isFinite_of_le ?_
    rw [abs_of_nonneg (mul_nonneg h.pos.le (zero_le_one.trans h1))]
    calc value long * value (stretch long short) ≤ 2 ^ (1022 : ℤ) * 2 :=
          mul_le_mul hlong h2 (zero_le_one.trans h1) (two_zpow_pos _).le
      _ = 2 ^ (1022 + 1 : ℤ) := by rw [two_zpow_add_one, mul_comm]
  · have hsmall : value short / value long ≤ 1 / 2 ^ 60 := calc
      value short / value long ≤ 1 / 2 ^ (1022 : ℤ) :=
        div_le_div₀ zero_le_one hshort (two_zpow_pos _) hlong
      _ ≤ 1 / 2 ^ 60 := one_div_le_one_div_of_le (by norm_num) (by
        rw [← zpow_natCast]
        exact two_zpow_le (by norm_num))
    rw [h.value_stretch_eq_one hsmall, mul_one] at hround
    rw [isFinite_iff_abs_lt hround.isNaN, hround.value_eq rfl]
    exact abs_value_lt h.long_finite

end Legs

theorem isFinite_hypotenuse_one (hb : b.isFinite = true) : (hypotenuse 1.0 b).isFinite = true := by
  have hpos : 0 < max |value 1.0| |value b| :=
    lt_max_of_lt_left (by rw [value_one, abs_one]; norm_num)
  rw [hypotenuse_of_pos rfl hb hpos]
  refine (legs rfl hb hpos).isFinite_mul_stretch ?_
  rw [value_smaller_abs rfl hb]
  exact (min_le_left _ _).trans (by rw [value_one, abs_one])

/-! ### The logarithm near one -/

/-- Where `1 + x` is one, `x` stands for the logarithm. -/
theorem logOnePlus_of_small (ha : a.isFinite = true) (hsmall : |value a| < 1 / 2 ^ 54) :
    logOnePlus a = a := by
  have hround := rounds_add (a := 1.0) rfl ha
  unfold logOnePlus
  exact if_pos ((beq_iff hround.isNaN rfl).mpr ((value_one_add ha hsmall).trans value_one.symm))

/-- A quotient times its divisor is the dividend, but for the rounding. -/
theorem abs_value_div_mul_sub_le (ha : a.isFinite = true) (hb : b.isFinite = true)
    (hne : value b ≠ 0) (hrange : |value a / value b| < bound) :
    |value (a / b) * value b - value a| ≤ |value a| / 2 ^ 52 + unit * |value b| := by
  have hpos := abs_pos.mpr hne
  calc |value (a / b) * value b - value a| = |value (a / b) - value a / value b| * |value b| := by
        rw [← abs_mul, sub_mul, div_mul_cancel₀ _ hne]
    _ ≤ (|value a / value b| / 2 ^ 52 + unit) * |value b| :=
        mul_le_mul_of_nonneg_right ((rounds_div ha hb hne).abs_sub_le hrange) hpos.le
    _ = |value a| / 2 ^ 52 + unit * |value b| := by
        rw [abs_div]
        field_simp

/-- A sum with one for which the difference from one is exact again. -/
theorem one_add_bounds (ha : a.isFinite = true) (hlow : -1 / 2 ≤ value a) (hhigh : value a ≤ 1) :
    (1.0 + a).isFinite = true ∧ 1 / 2 ≤ value (1.0 + a) ∧ value (1.0 + a) ≤ 2 := by
  have hsum := rounds_add (a := 1.0) rfl ha
  rw [value_one] at hsum
  obtain ⟨half, -, hhalf⟩ := exists_value_eq_two_zpow (e := -(1 : ℕ)) (by decide) (by decide)
  rw [two_zpow_neg, pow_one] at hhalf
  refine ⟨(hsum.near_of_abs_le_two (abs_le.mpr ⟨by linarith, by linarith⟩)).1, ?_, ?_⟩
  · rw [← hhalf]
    exact hsum.ge_of_ge half (by linarith)
  · exact (hsum.le_of_le 2.0 (by rw [value_two]; linarith)).trans value_two.le

/-- What does not become one is not too near to it. -/
theorem le_abs_value_sub_one (hne : value a ≠ 1) : 1 / 2 ^ 53 ≤ |value a - 1| := by
  by_contra hlt
  have hlt := abs_lt.mp (not_le.mp hlt)
  exact hne (value_eq_one (by linarith) (by linarith))

/-- Elsewhere the logarithm of the rounded sum is corrected by the ratio of `x` to what is left of
it in that sum. -/
theorem logOnePlus_eq_mul (ha : a.isFinite = true) (hlow : -1 / 2 ≤ value a) (hhigh : value a ≤ 1)
    (hne : value (1.0 + a) ≠ 1) : ∃ c, logOnePlus a = (1.0 + a).log * c ∧
      |value c * (value (1.0 + a) - 1) - value a| ≤ 1 / 2 ^ 51 * |value a| := by
  obtain ⟨hfin, hv0, hv2⟩ := one_add_bounds ha hlow hhigh
  refine ⟨a / (1.0 + a - 1.0), ?_, ?_⟩
  · unfold logOnePlus
    dsimp only
    rw [if_neg fun heq => hne (((beq_iff (isNaN_eq_false hfin) rfl).mp heq).trans value_one),
      if_neg (Bool.eq_false_iff.mp (isFinite_iff.mp hfin).2)]
  have ha1 : |value a| ≤ 1 := abs_le.mpr ⟨by linarith, hhigh⟩
  have hnear := abs_value_one_add_sub_le ha ha1
  have hrest := le_abs_value_sub_one hne
  have hdiff := rounds_sub hfin (b := 1.0) rfl
  rw [value_one] at hdiff
  have hdfin := (hdiff.near_of_abs_le_one (abs_le.mpr ⟨by linarith, by linarith⟩)).1
  rw [← value_sub_one hfin hv0 hv2] at hnear hrest ⊢
  generalize 1.0 + a - 1.0 = d at hdfin hnear hrest ⊢
  have hpos : 0 < |value d| := lt_of_lt_of_le (by norm_num) hrest
  have hle : |value d| ≤ 2 * |value a| := by
    have htriangle := abs_add_le (value d - value a) (value a)
    rw [sub_add_cancel] at htriangle
    linarith
  have hrange : |value a / value d| < bound := by
    rw [abs_div, div_lt_iff₀ hpos]
    have hbound : (2 : ℚ) ^ 54 ≤ bound := by
      rw [← zpow_natCast]
      exact two_zpow_le (by norm_num)
    calc |value a| ≤ 1 := ha1
      _ < 2 ^ 54 * (1 / 2 ^ 53) := by norm_num
      _ ≤ bound * |value d| := mul_le_mul hbound hrest (by norm_num) bound_pos.le
  refine (abs_value_div_mul_sub_le ha hdfin (abs_pos.mp hpos) hrange).trans ?_
  have hunit := mul_le_mul unit_le hle hpos.le (by norm_num)
  linarith

end InitialValue.Binary64
