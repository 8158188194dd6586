import InitialValue.Proofs.Binary64.Arithmetic
import Mathlib.Algebra.Order.Floor.Semifield
import Mathlib.Data.Rat.Floor

/-! Whole numbers as values, and back. The test for whole numbers looks at mantissa and
exponent; here it is what it is meant to be on the number. A count becomes the value that
it is rounded to, which is whole, and a value becomes its whole part, or the greatest
count where that is too large. So counts of up to 53 bits go there and back, and larger
ones do not come back as smaller than that. -/

namespace InitialValue.Binary64

open Float.Model (Format UnpackedFloat)
open Float.Model.UnpackedFloat

variable {a : Float} {n : UInt64}

/-! ### Magnitudes -/

theorem toNat_unpackExponent (b : UInt64) :
    (@unpackExponent Format.binary64 b.toBitVec).toNat = (b >>> 52 &&& 0x7ff).toNat := by
  have hmask : (0x7ff : UInt64).toNat = 2 ^ 11 - 1 := rfl
  have hshift : (52 : UInt64).toNat % 64 = 52 := rfl
  rw [UInt64.toNat_and, UInt64.toNat_shiftRight, hmask, Nat.and_two_pow_sub_one_eq_mod, hshift]
  exact BitVec.extractLsb_toNat ..

theorem toNat_unpackMantissa (b : UInt64) :
    (@unpackMantissa Format.binary64 b.toBitVec).toNat = (b &&& 0xfffffffffffff).toNat := by
  have hmask : (0xfffffffffffff : UInt64).toNat = 2 ^ 52 - 1 := rfl
  rw [UInt64.toNat_and, hmask, Nat.and_two_pow_sub_one_eq_mod]
  exact BitVec.extractLsb_toNat ..

/-- The magnitude is that of the number. -/
theorem abs_value_eq_magnitude (ha : a.isFinite = true) :
    |value a| = (magnitude a).mantissa * 2 ^ (magnitude a).exponent := by
  have hnonneg : ∀ (m : Nat) (e : Int), |(m : ℚ) * 2 ^ e| = m * 2 ^ e := fun m e =>
    abs_of_nonneg (mul_nonneg (Nat.cast_nonneg m) (two_zpow_pos e).le)
  have hfinite : (unpack Format.binary64 a.toBits.toBitVec).isFinite = true := ha
  change |unpackedValue (unpack Format.binary64 a.toBits.toBitVec)| = _
  unfold magnitude unpack
  dsimp only
  rw [if_neg (isFinite_unpack_iff.mp hfinite), ← toNat_unpackExponent, ← toNat_unpackMantissa]
  by_cases h0 : @unpackExponent Format.binary64 a.toBits.toBitVec = 0#_
  · have hzero : (@unpackExponent Format.binary64 a.toBits.toBitVec).toNat = 0 :=
      congrArg BitVec.toNat h0
    rw [if_pos h0, if_pos hzero]
    by_cases hm : @unpackMantissa Format.binary64 a.toBits.toBitVec = 0#_
    · rw [dif_pos hm, show @unpackMantissa Format.binary64 a.toBits.toBitVec = 0#_ from hm]
      exact abs_zero.trans (by simp)
    · rw [dif_neg hm, hzero]
      exact (abs_signed _ _).trans (hnonneg _ _)
  · have hpos : (@unpackExponent Format.binary64 a.toBits.toBitVec).toNat ≠ 0 := fun h =>
      h0 (BitVec.eq_of_toNat_eq h)
    rw [if_neg h0, if_neg hpos]
    refine (abs_signed _ _).trans ((hnonneg _ _).trans ?_)
    rw [toNat_one_append, Nat.add_comm]
    rfl

/-! ### The test for whole numbers -/

/-- A multiple of a power of two is whole when no bit of it stands for a fraction. -/
theorem exists_int_eq_mul_two_zpow_iff {m : Nat} {e : Int} :
    (∃ k : ℤ, (m : ℚ) * 2 ^ e = k) ↔ 0 ≤ e ∨ m % 2 ^ (-e).toNat = 0 := by
  rcases le_or_gt 0 e with he | he
  · obtain ⟨j, rfl⟩ := Int.eq_ofNat_of_zero_le he
    refine ⟨fun _ => .inl he, fun _ => ⟨m * 2 ^ j, ?_⟩⟩
    push_cast
    rfl
  · obtain ⟨j, hj⟩ : ∃ j : Nat, e = -j := ⟨(-e).toNat, by omega⟩
    have hpos : (2 : ℚ) ^ j ≠ 0 := by positivity
    rw [hj, neg_neg, Int.toNat_natCast, zpow_neg, zpow_natCast, ← div_eq_mul_inv]
    constructor
    · rintro ⟨k, hk⟩
      rw [div_eq_iff hpos] at hk
      have hk' : (m : ℤ) = k * 2 ^ j := by exact_mod_cast hk
      exact .inr (Nat.mod_eq_zero_of_dvd (by exact_mod_cast Dvd.intro_left k hk'.symm))
    · rintro (hneg | hmod)
      · omega
      · obtain ⟨k, rfl⟩ := Nat.dvd_of_mod_eq_zero hmod
        refine ⟨k, ?_⟩
        push_cast
        field_simp

/-- The test finds the finite values that are whole numbers. -/
theorem isWhole_iff : isWhole a = true ↔ a.isFinite = true ∧ ∃ k : ℤ, value a = k := by
  have habs : (∃ k : ℤ, value a = k) ↔ ∃ k : ℤ, |value a| = k := by
    constructor
    · rintro ⟨k, hk⟩
      exact ⟨|k|, by rw [hk, Int.cast_abs]⟩
    · rintro ⟨k, hk⟩
      rcases abs_choice (value a) with h | h
      · exact ⟨k, h.symm.trans hk⟩
      · exact ⟨-k, by rw [Int.cast_neg, ← hk, h, neg_neg]⟩
  unfold isWhole
  rw [Bool.and_eq_true, Bool.or_eq_true, decide_eq_true_eq, beq_iff_eq, habs]
  refine and_congr_right fun ha => ?_
  rw [abs_value_eq_magnitude ha]
  exact exists_int_eq_mul_two_zpow_iff.symm

/-- From 53 bits on there are only whole numbers. -/
theorem exists_value_eq_int_of_le (ha : a.isFinite = true) (hle : 2 ^ 53 ≤ |value a|) :
    ∃ k : ℤ, |value a| = k := by
  rcases abs_value_cases a with ⟨hinf, -⟩ | hzero | ⟨-, m, e, hm, hc, habs⟩
  · simp [ha] at hinf
  · rw [hzero, abs_zero] at hle
    exact absurd hle (by norm_num)
  · rw [habs] at hle ⊢
    refine exists_int_eq_mul_two_zpow_iff.mpr (.inl ?_)
    by_contra hneg
    have hone : (2 : ℚ) ^ e ≤ 1 := zpow_le_one_of_nonpos₀ (by norm_num) (by omega)
    have hlt : (m : ℚ) < 2 ^ 53 := by exact_mod_cast hc.lt
    nlinarith

/-! ### Values of counts -/

/-- A count becomes the value that it is rounded to. -/
theorem rounds_toFloat (n : UInt64) : Rounds n.toNat n.toFloat.toModel.unpack := by
  have h := rounds_normalize n.toNat 0
  rw [zpow_zero, mul_one, Int.cast_natCast] at h
  exact h

theorem isFinite_toFloat (n : UInt64) : n.toFloat.isFinite = true := by
  refine (rounds_toFloat n).isFinite_of_le ?_
  have hlt : (n.toNat : ℚ) < 2 ^ 64 := by exact_mod_cast n.toNat_lt
  rw [abs_of_nonneg (Nat.cast_nonneg _)]
  exact hlt.le.trans (by exact_mod_cast two_zpow_le (show (64 : ℤ) ≤ 1023 by decide))

/-- Counts of up to 53 bits are values. -/
theorem value_toFloat (hn : n.toNat ≤ 2 ^ 53) : value n.toFloat = n.toNat := by
  obtain ⟨a, -, ha⟩ := exists_value_eq_mul_two_zpow hn (e := 0) (by decide) (by decide)
  rw [zpow_zero, mul_one] at ha
  exact (rounds_toFloat n).value_eq ha

/-- Larger counts do not become smaller values than that. -/
theorem two_pow_le_value_toFloat (hn : 2 ^ 53 ≤ n.toNat) : 2 ^ 53 ≤ value n.toFloat := by
  obtain ⟨a, -, ha⟩ := exists_value_eq_two_zpow (e := 53) (by decide) (by decide)
  rw [zpow_ofNat] at ha
  rw [← ha]
  refine (rounds_toFloat n).ge_of_ge a ?_
  rw [ha]
  exact_mod_cast hn

theorem value_toFloat_nonneg (n : UInt64) : 0 ≤ value n.toFloat :=
  (rounds_toFloat n).ge_of_ge 0.0 (value_zero.trans_le (Nat.cast_nonneg _))

/-- Every count becomes a whole number. -/
theorem isWhole_toFloat (n : UInt64) : isWhole n.toFloat = true := by
  refine isWhole_iff.mpr ⟨isFinite_toFloat n, ?_⟩
  rcases le_total n.toNat (2 ^ 53) with hn | hn
  · exact ⟨n.toNat, by rw [value_toFloat hn, Int.cast_natCast]⟩
  · have hle := two_pow_le_value_toFloat hn
    rw [← abs_of_nonneg (value_toFloat_nonneg n)] at hle ⊢
    exact exists_value_eq_int_of_le (isFinite_toFloat n) hle

/-! ### Counts of values -/

theorem toNat_ofNatClamp (k : Nat) : (UInt64.ofNatClamp k).toNat = min k (2 ^ 64 - 1) := by
  have hsize : UInt64.size = 2 ^ 64 := rfl
  rcases lt_or_ge k UInt64.size with hk | hk
  · rw [UInt64.toNat_ofNatClamp_of_lt hk]
    omega
  · rw [UInt64.toNat_ofNatClamp_of_le hk]
    omega

/-- The whole part of a multiple of a power of two. -/
theorem floor_mul_two_zpow (m : Nat) (e : Int) :
    ⌊(m : ℚ) * 2 ^ e⌋₊ = m * 2 ^ e.toNat / 2 ^ (-e).toNat := by
  rw [← Nat.floor_div_eq_div (K := ℚ)]
  congr 1
  rcases le_total 0 e with he | he
  · obtain ⟨j, rfl⟩ := Int.eq_ofNat_of_zero_le he
    simp
  · obtain ⟨j, hj⟩ : ∃ j : Nat, e = -j := ⟨(-e).toNat, by omega⟩
    simp [hj, div_eq_mul_inv]

theorem roundToInt_eq (s : Sign) (m : Nat) (e : Int) :
    roundToInt s m e = s.apply (⌊(m : ℚ) * 2 ^ e⌋₊ : ℕ) := by
  rw [floor_mul_two_zpow]
  unfold roundToInt decreaseExponent shiftToExponent
  dsimp only
  rw [mantissa_shiftRight, mantissa_ofMantissaAndAccuracy, Nat.shiftLeft_eq]
  simp only [sub_zero, zero_sub]
  rw [show (-(e - (e.toNat : ℤ))).toNat = (-e).toNat by omega]

/-- A value that is not negative becomes its whole part, or the greatest count. -/
theorem toNat_toUInt64 (ha : a.isNaN = false) (h0 : 0 ≤ value a) :
    a.toUInt64.toNat = min ⌊value a⌋₊ (2 ^ 64 - 1) := by
  change (UInt64.ofNatClamp (toInt 0 (UInt64.size - 1) a.toModel.unpack).toNat).toNat =
    min ⌊unpackedValue a.toModel.unpack⌋₊ (2 ^ 64 - 1)
  rw [toNat_ofNatClamp]
  change 0 ≤ unpackedValue a.toModel.unpack at h0
  have hu := proper_unpack ha
  generalize a.toModel.unpack = u at hu h0
  cases hu with
  | infinity s =>
    cases s with
    | negative => exact absurd h0 (not_le.mpr (neg_lt_zero.mpr bound_pos))
    | positive =>
      have hbound : 2 ^ 64 - 1 ≤ ⌊bound⌋₊ := Nat.le_floor <| calc
        ((2 ^ 64 - 1 : ℕ) : ℚ) ≤ 2 ^ (64 : ℤ) := by norm_num
        _ ≤ bound := two_zpow_le (by decide)
      exact (min_eq_right hbound).symm
  | zero s =>
    rw [show unpackedValue (.zero s) = 0 from rfl, Nat.floor_zero]
    rfl
  | @finite s m e hm hc =>
    have hpos := mul_two_zpow_pos hm e
    cases s with
    | negative => exact absurd h0 (not_le.mpr (neg_lt_zero.mpr hpos))
    | positive =>
      change min (roundToInt .positive m e).toNat (2 ^ 64 - 1) = min ⌊(m : ℚ) * 2 ^ e⌋₊ (2 ^ 64 - 1)
      rw [roundToInt_eq]
      rfl

/-- A whole number that is no greater than all counts becomes itself. -/
theorem value_eq_toNat_toUInt64 (hwhole : isWhole a = true) (h0 : 0 ≤ value a)
    (hlt : a.toUInt64.toNat < 2 ^ 64 - 1) : value a = a.toUInt64.toNat := by
  obtain ⟨hfin, k, hk⟩ := isWhole_iff.mp hwhole
  rw [toNat_toUInt64 (isNaN_eq_false hfin) h0] at hlt ⊢
  obtain ⟨j, rfl⟩ := Int.eq_ofNat_of_zero_le (show 0 ≤ k by exact_mod_cast hk ▸ h0)
  rw [hk, Int.cast_natCast, Nat.floor_natCast] at hlt ⊢
  rw [min_eq_left (by omega)]

/-- What is not above a count does not become a greater one. -/
theorem toUInt64_le_of_le_toFloat (ha : a.isNaN = false) (h0 : 0 ≤ value a) (hn : n.toNat ≤ 2 ^ 53)
    (hle : value a ≤ value n.toFloat) : a.toUInt64 ≤ n := by
  rw [value_toFloat hn] at hle
  rw [UInt64.le_iff_toNat_le, toNat_toUInt64 ha h0]
  exact (min_le_left _ _).trans ((Nat.floor_mono hle).trans_eq (Nat.floor_natCast _))

/-! ### There and back -/

theorem toUInt64_toFloat (hn : n.toNat ≤ 2 ^ 53) : n.toFloat.toUInt64 = n := by
  rw [← UInt64.toNat_inj, toNat_toUInt64 (rounds_toFloat n).isNaN (value_toFloat_nonneg n),
    value_toFloat hn, Nat.floor_natCast, min_eq_left (by omega)]

theorem two_pow_le_toUInt64_toFloat (hn : 2 ^ 53 ≤ n.toNat) :
    2 ^ 53 ≤ n.toFloat.toUInt64.toNat := by
  rw [toNat_toUInt64 (rounds_toFloat n).isNaN (value_toFloat_nonneg n)]
  exact le_min (Nat.le_floor (by exact_mod_cast two_pow_le_value_toFloat hn)) (by norm_num)

end InitialValue.Binary64
