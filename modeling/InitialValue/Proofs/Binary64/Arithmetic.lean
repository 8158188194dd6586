import InitialValue.Proofs.Binary64.Rounding
import Mathlib.Algebra.Order.Field.Basic

/-! Arithmetic as rounding. Sums, differences, products and quotients of finite values
are the roundings of the exact ones. So they are numbers, they are exact where the exact
result is a value, and they keep to the side of every value on which the exact
result lies. -/

namespace InitialValue.Binary64

open Float.Model (Format UnpackedFloat totalExponent)
open Float.Model.UnpackedFloat

/-! ### Values that stay as they are -/

theorem unpack_pack_unpack {a : Float} (ha : a.isFinite = true) :
    (Float.Model.pack a.toModel.unpack).unpack = a.toModel.unpack := by
  rcases unpack_of_isFinite ha with ⟨s, hu⟩ | ⟨s, m, e, hm, hu⟩ <;> rw [hu]
  · cases s <;> rfl
  · exact unpack_pack_finite (canonical_of_unpack hu)

/-- A finite value is its own rounding. -/
theorem rounds_value {a : Float} (ha : a.isFinite = true) : Rounds (value a) a.toModel.unpack where
  proper := proper_unpack (isNaN_eq_false ha)
  le_of_le _ h := h
  ge_of_ge _ h := h
  abs_lt _ := abs_value_lt ha
  nearest _ b := by
    change |value a - value a| ≤ |value b - value a|
    rw [sub_self, abs_zero]
    exact abs_nonneg _

theorem rounds_zero (s : Sign) : Rounds 0 (Float.Model.pack (.zero s)).unpack := by
  have h0 : Rounds (value 0.0) (0.0 : Float).toModel.unpack := rounds_value rfl
  cases s with
  | positive => exact h0
  | negative => exact ⟨.zero .negative, h0.le_of_le, h0.ge_of_ge, h0.abs_lt, h0.nearest⟩

/-! ### Sums and differences -/

theorem totalExponent_shiftLeft {m : Nat} (hm : 0 < m) (k : Nat) (e : Int) :
    totalExponent (m <<< k) (e - k) = totalExponent m e := by
  rw [totalExponent, log2_shiftLeft hm, totalExponent]
  push_cast
  ring

theorem shiftLeft_mul_two_zpow (m : Nat) (k : Nat) (e : Int) :
    ((m <<< k : ℕ) : ℚ) * 2 ^ (e - k) = m * 2 ^ e := by
  rw [Nat.shiftLeft_eq, zpow_sub₀ (by norm_num), zpow_natCast]
  push_cast
  field_simp

/-- Where bits are missing to the right, they are put there before the mantissa is rounded. -/
theorem rounds_round_any (s : Sign) {m : Nat} (hm : 0 < m) (e : Int) :
    Rounds (signed s (m * 2 ^ e)) (Float.Model.pack (round Format.binary64 s m e)).unpack := by
  let k := (e - Format.binary64.targetExponent (totalExponent m e)).toNat
  have hk : e - k ≤ Format.binary64.targetExponent (totalExponent (m <<< k) (e - k)) := by
    rw [totalExponent_shiftLeft hm]
    omega
  have hpos : 0 < m <<< k := by
    rw [Nat.shiftLeft_eq]
    exact Nat.mul_pos hm (Nat.two_pow_pos k)
  have h := rounds_round s (approximates_exact _) (Nat.cast_pos.mpr hpos) hk
  rw [shiftLeft_mul_two_zpow] at h
  exact h

theorem rounds_normalize (k e : Int) :
    Rounds (k * 2 ^ e)
      (Float.Model.pack (UnpackedFloat.normalize Format.binary64 k e .positive)).unpack := by
  unfold UnpackedFloat.normalize
  rcases lt_trichotomy k 0 with hk | rfl | hk
  · rw [compare_lt_iff_lt.mpr hk]
    have h := rounds_round_any .negative (m := (-k).toNat) (by omega) e
    have hcast : (((-k).toNat : ℕ) : ℚ) = -k := by
      exact_mod_cast Int.toNat_of_nonneg (neg_nonneg.mpr hk.le)
    rw [signed, hcast, neg_mul, neg_neg] at h
    exact h
  · rw [Int.cast_zero, zero_mul]
    exact rounds_zero .positive
  · rw [compare_gt_iff_gt.mpr hk]
    have h := rounds_round_any .positive (m := k.toNat) (by omega) e
    have hcast : ((k.toNat : ℕ) : ℚ) = k := by
      exact_mod_cast Int.toNat_of_nonneg hk.le
    rw [signed, hcast] at h
    exact h

theorem signed_eq_apply (s : Sign) (m : Nat) (e : Int) :
    signed s (m * 2 ^ e) = (s.apply m : ℤ) * 2 ^ e := by
  cases s <;> simp [signed, Sign.apply]

/-- The mantissa after the exponent has been lowered to `e'` stands for the same number. -/
theorem apply_shiftLeft_mul (s : Sign) (m : Nat) {e e' : Int} (he : e' ≤ e) :
    ((s.apply (m <<< (e - e').toNat : ℕ) : ℤ) : ℚ) * 2 ^ e' = signed s (m * 2 ^ e) := by
  have h := shiftLeft_mul_two_zpow m (e - e').toNat e
  rw [show e - ((e - e').toNat : ℤ) = e' by omega] at h
  rw [← signed_eq_apply, h]

section Finite

variable (s₁ s₂ : Sign) {m₁ m₂ : Nat} (e₁ e₂ : Int) (hm₁ : 0 < m₁) (hm₂ : 0 < m₂)

/-- The mantissas are added at the lower exponent. -/
theorem add_finite :
    add Format.binary64 (.finite s₁ m₁ e₁ hm₁) (.finite s₂ m₂ e₂ hm₂) =
      normalize Format.binary64 (s₁.apply (m₁ <<< (e₁ - min e₁ e₂).toNat : ℕ) +
        s₂.apply (m₂ <<< (e₂ - min e₁ e₂).toNat : ℕ)) (min e₁ e₂) .positive := rfl

theorem sub_finite :
    sub Format.binary64 (.finite s₁ m₁ e₁ hm₁) (.finite s₂ m₂ e₂ hm₂) =
      normalize Format.binary64 (s₁.apply (m₁ <<< (e₁ - min e₁ e₂).toNat : ℕ) -
        s₂.apply (m₂ <<< (e₂ - min e₁ e₂).toNat : ℕ)) (min e₁ e₂) .positive := rfl

end Finite

theorem neg_apply (s : Sign) (k : ℤ) : (-s).apply k = -s.apply k := by
  cases s
  · exact (neg_neg k).symm
  · rfl

theorem rounds_add_unpacked {u v : UnpackedFloat} (hu : u.isFinite = true) (hv : v.isFinite = true)
    (hru : Rounds (unpackedValue u) (Float.Model.pack u).unpack)
    (hrv : Rounds (unpackedValue v) (Float.Model.pack v).unpack) :
    Rounds (unpackedValue u + unpackedValue v)
      (Float.Model.pack (add Format.binary64 u v)).unpack := by
  cases u with
  | infinity _ | notANumber => cases hu
  | zero s₁ =>
    rw [show unpackedValue (.zero s₁) = 0 from rfl, zero_add]
    cases v with
    | infinity _ | notANumber => cases hv
    | zero s₂ => cases s₁ <;> cases s₂ <;> exact rounds_zero _
    | finite s₂ m₂ e₂ hm₂ => exact hrv
  | finite s₁ m₁ e₁ hm₁ =>
    cases v with
    | infinity _ | notANumber => cases hv
    | zero s₂ =>
      rw [show unpackedValue (.zero s₂) = 0 from rfl, add_zero]
      exact hru
    | finite s₂ m₂ e₂ hm₂ =>
      have h := rounds_normalize (s₁.apply (m₁ <<< (e₁ - min e₁ e₂).toNat : ℕ) +
        s₂.apply (m₂ <<< (e₂ - min e₁ e₂).toNat : ℕ)) (min e₁ e₂)
      rw [Int.cast_add, add_mul, apply_shiftLeft_mul s₁ m₁ (min_le_left e₁ e₂),
        apply_shiftLeft_mul s₂ m₂ (min_le_right e₁ e₂)] at h
      rw [add_finite]
      exact h

/-- A sum is the rounding of the exact one. -/
theorem rounds_add {a b : Float} (ha : a.isFinite = true) (hb : b.isFinite = true) :
    Rounds (value a + value b) (a + b).toModel.unpack := by
  refine rounds_add_unpacked ha hb ?_ ?_
  · rw [unpack_pack_unpack ha]
    exact rounds_value ha
  · rw [unpack_pack_unpack hb]
    exact rounds_value hb

theorem unpackedSub_eq (u v : UnpackedFloat) :
    sub Format.binary64 u v = add Format.binary64 u v.neg := by
  cases u with
  | finite s₁ m₁ e₁ hm₁ =>
    cases v with
    | finite s₂ m₂ e₂ hm₂ =>
      change _ = add Format.binary64 _ (.finite (-s₂) m₂ e₂ hm₂)
      rw [sub_finite, add_finite, neg_apply, sub_eq_add_neg]
    | infinity _ | notANumber | zero _ => rfl
  | infinity s₁ | notANumber | zero s₁ => cases v <;> rfl

theorem sub_eq_add (a b : Float) : a - b = a + -b := by
  change Float.ofModel (Float.Model.pack (sub Format.binary64 a.toModel.unpack b.toModel.unpack)) =
    Float.ofModel (Float.Model.pack (add Format.binary64 a.toModel.unpack (-b).toModel.unpack))
  rw [unpack_neg, unpackedSub_eq]

/-- A difference is the rounding of the exact one. -/
theorem rounds_sub {a b : Float} (ha : a.isFinite = true) (hb : b.isFinite = true) :
    Rounds (value a - value b) (a - b).toModel.unpack := by
  have h := rounds_add ha ((isFinite_neg b).trans hb)
  rw [value_neg, ← sub_eq_add_neg] at h
  rw [sub_eq_add]
  exact h

/-! ### The order of a difference -/

theorem abs_roundWithAccuracy (s s' : Sign) (m : Nat) (e : Int) (acc : Accuracy) :
    (roundWithAccuracy Format.binary64 s m e acc).abs =
      (roundWithAccuracy Format.binary64 s' m e acc).abs := by
  unfold roundWithAccuracy
  generalize shiftToTargetExponent Format.binary64 m e acc = first
  obtain ⟨em, e₁⟩ := first
  dsimp only
  generalize shiftToTargetExponent Format.binary64 em.roundedMantissa e₁ .exact = second
  obtain ⟨em₂, e₂⟩ := second
  by_cases hz : em₂.mantissa = 0
  · rw [dif_pos hz, dif_pos hz]
    rfl
  · rw [dif_neg hz, dif_neg hz]
    rfl

theorem abs_round (s s' : Sign) (m : Nat) (e : Int) :
    (UnpackedFloat.round Format.binary64 s m e).abs =
      (UnpackedFloat.round Format.binary64 s' m e).abs :=
  abs_roundWithAccuracy s s' _ _ _

theorem abs_normalize_neg (k e : Int) :
    (UnpackedFloat.normalize Format.binary64 (-k) e .positive).abs =
      (UnpackedFloat.normalize Format.binary64 k e .positive).abs := by
  unfold UnpackedFloat.normalize
  rcases lt_trichotomy k 0 with hk | rfl | hk
  · rw [compare_lt_iff_lt.mpr hk, compare_gt_iff_gt.mpr (neg_pos.mpr hk)]
    exact abs_round _ _ _ _
  · rfl
  · rw [compare_gt_iff_gt.mpr hk, compare_lt_iff_lt.mpr (neg_neg_of_pos hk), neg_neg]
    exact abs_round _ _ _ _

theorem abs_unpackedSub_comm (u v : UnpackedFloat) :
    (sub Format.binary64 u v).abs = (sub Format.binary64 v u).abs := by
  cases u with
  | finite s₁ m₁ e₁ hm₁ =>
    cases v with
    | finite s₂ m₂ e₂ hm₂ =>
      rw [sub_finite, sub_finite, min_comm e₂ e₁, ← abs_normalize_neg, neg_sub]
    | infinity _ | notANumber | zero _ => rfl
  | notANumber => cases v <;> rfl
  | infinity s₁ | zero s₁ =>
    cases v with
    | infinity s₂ | zero s₂ => cases s₁ <;> cases s₂ <;> rfl
    | finite _ _ _ _ | notANumber => rfl

/-- The distance of two values is the same from either of them: ties are rounded alike under both
signs. -/
protected theorem abs_sub_comm (a b : Float) : (a - b).abs = (b - a).abs := by
  change Float.ofModel (Float.Model.pack (Float.Model.pack
      (sub Format.binary64 a.toModel.unpack b.toModel.unpack)).unpack.abs) =
    Float.ofModel (Float.Model.pack (Float.Model.pack
      (sub Format.binary64 b.toModel.unpack a.toModel.unpack)).unpack.abs)
  rw [abs_unpack_pack, abs_unpack_pack, abs_unpackedSub_comm]

/-! ### Products -/

/-- A product has no bits to lose below its exponent but those of subnormal factors. -/
theorem Canonical.mul_exponent_le {m₁ m₂ : Nat} {e₁ e₂ : Int} (h₁ : Canonical m₁ e₁)
    (h₂ : Canonical m₂ e₂) (hm₁ : 0 < m₁) (hm₂ : 0 < m₂) :
    e₁ + e₂ ≤ Format.binary64.targetExponent (totalExponent (m₁ * m₂) (e₁ + e₂)) := by
  have hpos : m₁ * m₂ ≠ 0 := Nat.ne_of_gt (Nat.mul_pos hm₁ hm₂)
  rw [targetExponent_eq, totalExponent]
  by_cases hlog : 52 ≤ (m₁ * m₂).log2
  · omega
  · have hlt : m₁ * m₂ < 2 ^ 52 := (Nat.log2_lt hpos).mp (by omega)
    have hlt₁ : m₁ < 2 ^ 52 := (Nat.le_mul_of_pos_right m₁ hm₂).trans_lt hlt
    have hlt₂ : m₂ < 2 ^ 52 := (Nat.le_mul_of_pos_left m₂ hm₁).trans_lt hlt
    have he₁ := h₁.normal.resolve_left (by omega)
    have he₂ := h₂.normal.resolve_left (by omega)
    unfold leastExponent at he₁ he₂
    omega

/-- A product is the rounding of the exact one. -/
theorem rounds_mul {a b : Float} (ha : a.isFinite = true) (hb : b.isFinite = true) :
    Rounds (value a * value b) (a * b).toModel.unpack := by
  change Rounds (unpackedValue a.toModel.unpack * unpackedValue b.toModel.unpack)
    (Float.Model.pack (mul Format.binary64 a.toModel.unpack b.toModel.unpack)).unpack
  rcases unpack_of_isFinite ha with ⟨s₁, hu⟩ | ⟨s₁, m₁, e₁, hm₁, hu⟩ <;> rw [hu]
  · rw [show unpackedValue (.zero s₁) = 0 from rfl, zero_mul]
    rcases unpack_of_isFinite hb with ⟨s₂, hv⟩ | ⟨s₂, m₂, e₂, hm₂, hv⟩ <;> rw [hv]
    · exact rounds_zero _
    · exact rounds_zero _
  · rcases unpack_of_isFinite hb with ⟨s₂, hv⟩ | ⟨s₂, m₂, e₂, hm₂, hv⟩ <;> rw [hv]
    · rw [show unpackedValue (.zero s₂) = 0 from rfl, mul_zero]
      exact rounds_zero _
    · have he := (canonical_of_unpack hu).mul_exponent_le (canonical_of_unpack hv) hm₁ hm₂
      have h := rounds_round (s₁ * s₂) (approximates_exact _)
        (Nat.cast_pos.mpr (Nat.mul_pos hm₁ hm₂)) he
      rw [Nat.cast_mul, zpow_add₀ (by norm_num), mul_mul_mul_comm, ← signed_mul] at h
      exact h

/-! ### Quotients -/

/-- A part between zero and one is known by the side of the midpoint on which it lies. -/
theorem approximates_inexact (m : Nat) {x : ℚ} (hpos : 0 < x) (hlt : x < 1) :
    Approximates (.ofMantissaAndAccuracy m (.inexact (compare x (1 / 2)))) (m + x) := by
  rcases lt_trichotomy x (1 / 2) with h | rfl | h
  · rw [compare_lt_iff_lt.mpr h]
    refine ⟨?_, ?_, ?_, ?_⟩ <;> simp only [ExtendedMantissa.ofMantissaAndAccuracy] <;> grind
  · rw [compare_eq_iff_eq.mpr rfl]
    refine ⟨?_, ?_, ?_, ?_⟩ <;> simp only [ExtendedMantissa.ofMantissaAndAccuracy] <;> grind
  · rw [compare_gt_iff_gt.mpr h]
    refine ⟨?_, ?_, ?_, ?_⟩ <;> simp only [ExtendedMantissa.ofMantissaAndAccuracy] <;> grind

/-- The remainder of a division tells on which side of the midpoint the exact quotient lies. -/
theorem approximates_fraction {n : Nat} (hn : 0 < n) (m : Nat) :
    Approximates (.ofMantissaAndAccuracy (m / n) (accuracyOfFraction (m % n) n)) (m / n) := by
  have hpos : (0 : ℚ) < n := by exact_mod_cast hn
  have hlt : ((m % n : ℕ) : ℚ) / n < 1 := (div_lt_one hpos).mpr (by exact_mod_cast Nat.mod_lt m hn)
  have hsplit : (m : ℚ) / n = (m / n : ℕ) + (m % n : ℕ) / n := by
    rw [add_div' _ _ _ hpos.ne']
    congr 1
    exact_mod_cast (Nat.div_add_mod' m n).symm
  rw [hsplit]
  generalize m % n = r at hlt
  unfold accuracyOfFraction
  by_cases h0 : r = 0
  · rw [if_pos h0, h0, Nat.cast_zero, zero_div, add_zero]
    exact approximates_exact _
  · have hside : compare (2 * r) n = compare ((r : ℚ) / n) (1 / 2) := by
      have hcast : (r : ℚ) / n - 1 / 2 = ((2 * r : ℕ) - (n : ℕ)) / (2 * n) := by
        push_cast
        field_simp
      rcases lt_trichotomy (2 * r) n with h | h | h
      · rw [compare_lt_iff_lt.mpr h, eq_comm, compare_lt_iff_lt, ← sub_neg, hcast]
        exact div_neg_of_neg_of_pos (sub_neg.mpr (by exact_mod_cast h)) (by linarith)
      · rw [compare_eq_iff_eq.mpr h, eq_comm, compare_eq_iff_eq, ← sub_eq_zero, hcast, h,
          sub_self, zero_div]
      · rw [compare_gt_iff_gt.mpr h, eq_comm, compare_gt_iff_gt, ← sub_pos, hcast]
        exact div_pos (sub_pos.mpr (by exact_mod_cast h)) (by linarith)
    rw [if_neg h0, hside]
    exact approximates_inexact _ (div_pos (by exact_mod_cast Nat.pos_of_ne_zero h0) hpos) hlt

/-- A quotient has at least as many bits as the difference of the bits. -/
theorem le_log2_div {m n j : Nat} (hn : 0 < n) (h : n.log2 + 1 + j ≤ m.log2) :
    j ≤ (m / n).log2 := by
  have hm : m ≠ 0 := by
    rintro rfl
    simp at h
  have hle : 2 ^ j ≤ m / n := (Nat.le_div_iff_mul_le hn).mpr <| calc
    2 ^ j * n ≤ 2 ^ j * 2 ^ (n.log2 + 1) := Nat.mul_le_mul_left _ Nat.lt_log2_self.le
    _ = 2 ^ (n.log2 + 1 + j) := by rw [← Nat.pow_add, Nat.add_comm]
    _ ≤ 2 ^ m.log2 := Nat.pow_le_pow_right (by decide) h
    _ ≤ m := Nat.log2_self_le hm
  exact (Nat.le_log2 (Nat.ne_of_gt ((Nat.two_pow_pos j).trans_le hle))).mpr hle

theorem signed_div (s s' : Sign) (p q : ℚ) :
    signed s p / signed s' q = signed (s / s') (p / q) := by
  cases s <;> cases s'
  · exact neg_div_neg_eq p q
  · exact neg_div q p
  · exact div_neg p
  · rfl

/-- The quotient of two mantissas is taken with enough bits to be rounded. -/
theorem rounds_divCore (s : Sign) {m₁ m₂ : Nat} (hm₁ : 0 < m₁) (hm₂ : 0 < m₂) (e₁ e₂ : Int) :
    Rounds (signed s (m₁ * 2 ^ e₁ / (m₂ * 2 ^ e₂)))
      (Float.Model.pack (roundWithAccuracy Format.binary64 s (divCore Format.binary64 m₁ e₁ m₂ e₂).1
        (divCore Format.binary64 m₁ e₁ m₂ e₂).2.1
        (divCore Format.binary64 m₁ e₁ m₂ e₂).2.2)).unpack := by
  unfold divCore
  dsimp only
  generalize ht : min (e₁ - e₂)
    (Format.binary64.targetExponent (totalExponent m₁ e₁ - totalExponent m₂ e₂)) = t
  rw [targetExponent_eq] at ht
  obtain ⟨k, hk⟩ := Int.exists_add_of_le (show t ≤ e₁ - e₂ by omega)
  rw [show (e₁ - e₂ - t).toNat = k by omega]
  have hpos : 0 < m₁ <<< k := by
    rw [Nat.shiftLeft_eq]
    exact Nat.mul_pos hm₁ (Nat.two_pow_pos k)
  have he : t ≤ Format.binary64.targetExponent (totalExponent (m₁ <<< k / m₂) t) := by
    rw [targetExponent_eq]
    unfold totalExponent at ht ⊢
    by_cases hleast : t ≤ -1074
    · omega
    · have hlog := @le_log2_div (m₁ <<< k) m₂ 52 hm₂ (by rw [log2_shiftLeft hm₁]; omega)
      omega
  have hr : (0 : ℚ) < (m₁ <<< k : ℕ) / m₂ :=
    div_pos (by exact_mod_cast hpos) (by exact_mod_cast hm₂)
  have h := rounds_round s (approximates_fraction hm₂ _) hr he
  have hvalue : ((m₁ <<< k : ℕ) : ℚ) / m₂ * 2 ^ t = m₁ * 2 ^ e₁ / (m₂ * 2 ^ e₂) := by
    rw [Nat.shiftLeft_eq, Nat.cast_mul, Nat.cast_pow, Nat.cast_ofNat,
      show e₁ = e₂ + (t + k) by
        omega, zpow_add₀ (by norm_num), zpow_add₀ (by norm_num), zpow_natCast]
    field_simp
  rw [hvalue] at h
  exact h

/-- A quotient is the rounding of the exact one. -/
theorem rounds_div {a b : Float} (ha : a.isFinite = true) (hb : b.isFinite = true)
    (hne : value b ≠ 0) : Rounds (value a / value b) (a / b).toModel.unpack := by
  change unpackedValue b.toModel.unpack ≠ 0 at hne
  change Rounds (unpackedValue a.toModel.unpack / unpackedValue b.toModel.unpack)
    (Float.Model.pack (div Format.binary64 a.toModel.unpack b.toModel.unpack)).unpack
  rcases unpack_of_isFinite hb with ⟨s₂, hv⟩ | ⟨s₂, m₂, e₂, hm₂, hv⟩
  · rw [hv] at hne
    exact absurd rfl hne
  · rcases unpack_of_isFinite ha with ⟨s₁, hu⟩ | ⟨s₁, m₁, e₁, hm₁, hu⟩ <;> rw [hu, hv]
    · rw [show unpackedValue (.zero s₁) = 0 from rfl, zero_div]
      exact rounds_zero _
    · have h := rounds_divCore (s₁ / s₂) hm₁ hm₂ e₁ e₂
      rw [← signed_div] at h
      exact h

/-! ### Consequences -/

namespace Rounds

variable {q : ℚ} {a x : Float}

theorem isNaN (h : Rounds q x.toModel.unpack) : x.isNaN = false := by
  change x.toModel.unpack.isNaN = false
  exact h.proper.isNaN

theorem isFinite (h : Rounds q x.toModel.unpack) (hq : |q| < bound - 2 ^ (970 : ℤ)) :
    x.isFinite = true :=
  (isFinite_iff_abs_lt h.isNaN).mpr (h.abs_lt hq)

/-- Half of the range is far from the bound. -/
theorem isFinite_of_le (h : Rounds q x.toModel.unpack) (hq : |q| ≤ 2 ^ (1023 : ℤ)) :
    x.isFinite = true := by
  refine h.isFinite (hq.trans_lt ?_)
  have hbound : bound = 2 ^ 54 * 2 ^ (970 : ℤ) := two_zpow_nat_add 54 970
  have hhalf : (2 : ℚ) ^ (1023 : ℤ) = 2 ^ 53 * 2 ^ (970 : ℤ) := two_zpow_nat_add 53 970
  have hpos := two_zpow_pos 970
  rw [hbound, hhalf]
  generalize (2 : ℚ) ^ (970 : ℤ) = p at hpos ⊢
  linarith

/-- Both signs are rounded in the same way. -/
theorem neg {u : UnpackedFloat} (h : Rounds q u) : Rounds (-q) u.neg where
  proper := by
    cases h.proper with
    | infinity s => exact .infinity (-s)
    | zero s => exact .zero (-s)
    | finite s hm hc => exact .finite (-s) hm hc
  le_of_le a ha := by
    have hle := h.ge_of_ge (-a) (by rw [value_neg]; linarith)
    rw [value_neg] at hle
    rw [unpackedValue_neg]
    linarith
  ge_of_ge a ha := by
    have hle := h.le_of_le (-a) (by rw [value_neg]; linarith)
    rw [value_neg] at hle
    rw [unpackedValue_neg]
    linarith
  abs_lt hq := by
    rw [unpackedValue_neg, abs_neg]
    exact h.abs_lt (by rwa [abs_neg] at hq)
  nearest hq a := by
    have hle := h.nearest (by rwa [abs_neg] at hq) (-a)
    rw [value_neg] at hle
    rw [unpackedValue_neg, neg_sub_neg, abs_sub_comm, sub_neg_eq_add,
      ← abs_neg (value a + q), neg_add']
    exact hle

/-- A number that is a value is rounded to itself. -/
theorem value_eq (h : Rounds q x.toModel.unpack) (ha : value a = q) : value x = q :=
  le_antisymm ((h.le_of_le a ha.ge).trans ha.le) (ha.ge.trans (h.ge_of_ge a ha.le))

/-- What is rounded to the nearest value keeps its order. -/
theorem value_le_of_lt {q' : ℚ} {y : Float} (h : Rounds q x.toModel.unpack)
    (h' : Rounds q' y.toModel.unpack) (hlt : q < q') : value x ≤ value y := by
  have hinf : value infinity = bound := rfl
  rcases le_or_gt bound q' with hq' | hq'
  · exact ((le_abs_self _).trans (abs_value_le x)).trans (h'.ge_of_ge infinity (hinf.trans_le hq'))
  rcases le_or_gt q (-bound) with hq | hq
  · have hle : value x ≤ value (-infinity) := h.le_of_le _ (by rw [value_neg, hinf]; exact hq)
    rw [value_neg, hinf] at hle
    exact hle.trans (neg_le_of_abs_le (abs_value_le y))
  -- Otherwise the order of the two could only be changed across their midpoint.
  have hx : |value x - q| ≤ |value y - q| := h.nearest (abs_le.mpr ⟨hq.le, by linarith⟩) y
  have hy : |value y - q'| ≤ |value x - q'| := h'.nearest (abs_le.mpr ⟨by linarith, hq'.le⟩) x
  by_contra hgt
  rw [← sq_le_sq] at hx hy
  nlinarith

end Rounds

end InitialValue.Binary64
