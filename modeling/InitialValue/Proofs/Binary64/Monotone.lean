import InitialValue.Proofs.Binary64.Spacing
import InitialValue.Proofs.Binary64.Whole

/-! Sums and products in order. Rounding keeps the order of numbers that differ, and
values that are equal as numbers are the same value, but for the two zeros. So a sum
grows with its terms, a product with a factor next to one that is not negative, and the
value of a count with the count. What overflows is still on the right side: nothing is
above infinity. -/

namespace InitialValue.Binary64

open Float.Model.UnpackedFloat

variable {a b c : Float}

/-- Two values with the same number that are not zero have the same sums and products. -/
theorem add_eq_and_mul_eq (hb : b.isFinite = true) (hc : c.isFinite = true) (hne : value b ≠ 0)
    (h : value b = value c) (a : Float) : a + b = a + c ∧ a * b = a * c := by
  have hunpack := unpack_eq_of_value_eq hb hc hne h
  constructor
  · change Float.ofModel (Float.Model.pack (add _ a.toModel.unpack b.toModel.unpack)) =
      Float.ofModel (Float.Model.pack (add _ a.toModel.unpack c.toModel.unpack))
    rw [hunpack]
  · change Float.ofModel (Float.Model.pack (mul _ a.toModel.unpack b.toModel.unpack)) =
      Float.ofModel (Float.Model.pack (mul _ a.toModel.unpack c.toModel.unpack))
    rw [hunpack]

/-- A sum does not fall when a term grows. -/
theorem value_add_le_add (ha : a.isFinite = true) (hb : b.isFinite = true) (hc : c.isFinite = true)
    (hle : value b ≤ value c) : value (a + b) ≤ value (a + c) := by
  have hsum := rounds_add ha hb
  have hsum' := rounds_add ha hc
  rcases hle.lt_or_eq with hlt | heq
  · exact hsum.value_le_of_lt hsum' (add_lt_add_right hlt _)
  by_cases h0 : value b = 0
  · have hzero : ∀ {d : Float}, value d = 0 → value a = value a + value d :=
      fun hd => by rw [hd, add_zero]
    rw [hsum.value_eq (hzero h0), hsum'.value_eq (hzero (heq ▸ h0)), heq]
  · rw [(add_eq_and_mul_eq hb hc h0 heq a).1]

/-- A product does not fall when a factor grows, next to one that is not negative. -/
theorem value_mul_le_mul (ha : a.isFinite = true) (h0 : 0 ≤ value a) (hb : b.isFinite = true)
    (hc : c.isFinite = true) (hle : value b ≤ value c) : value (a * b) ≤ value (a * c) := by
  have hmul := rounds_mul ha hb
  have hmul' := rounds_mul ha hc
  rcases (mul_le_mul_of_nonneg_left hle h0).lt_or_eq with hlt | heq
  · exact hmul.value_le_of_lt hmul' hlt
  by_cases hzero : value a * value b = 0
  · rw [hmul.value_eq (a := 0.0) (value_zero.trans hzero.symm),
      hmul'.value_eq (a := 0.0) (value_zero.trans (hzero.symm.trans heq)), heq]
  · have hne := mul_ne_zero_iff.mp hzero
    rw [(add_eq_and_mul_eq hb hc hne.2 (mul_left_cancel₀ hne.1 heq) a).2]

/-- Counts become values in the same order. -/
theorem value_toFloat_le_toFloat {m n : UInt64} (h : m ≤ n) :
    value m.toFloat ≤ value n.toFloat := by
  rcases (UInt64.le_iff_toNat_le.mp h).lt_or_eq with hlt | heq
  · exact (rounds_toFloat m).value_le_of_lt (rounds_toFloat n) (by exact_mod_cast hlt)
  · rw [UInt64.toNat_inj.mp heq]

theorem value_toFloat_le (n : UInt64) : value n.toFloat ≤ 2 ^ 64 := by
  obtain ⟨a, -, ha⟩ := exists_value_eq_two_zpow (e := 64) (by decide) (by decide)
  refine ((rounds_toFloat n).le_of_le a ?_).trans_eq ha
  rw [ha]
  exact_mod_cast n.toNat_lt.le

/-! ### Steps away from a value -/

/-- Infinity is the only number that is neither finite nor negative. -/
theorem unpack_eq_infinity (hn : b.isNaN = false) (hinf : b.isFinite = false) (h0 : 0 ≤ value b) :
    b.toModel.unpack = .infinity .positive := by
  have hbound := (isFinite_iff_abs_lt hn).not.mp (Bool.eq_false_iff.mp hinf)
  change ¬ |unpackedValue b.toModel.unpack| < bound at hbound
  change 0 ≤ unpackedValue b.toModel.unpack at h0
  have hu := proper_unpack hn
  generalize b.toModel.unpack = u at hu hbound h0 ⊢
  cases hu with
  | infinity s =>
    cases s with
    | positive => rfl
    | negative => exact absurd h0 (not_le.mpr (neg_lt_zero.mpr bound_pos))
  | zero s => exact absurd (abs_zero.trans_lt bound_pos) hbound
  | @finite s m e hm hc =>
    have habs := (abs_signed s _).trans (abs_of_pos (mul_two_zpow_pos hm e))
    exact absurd (habs.trans_lt hc.lt_bound) hbound

theorem add_eq_infinity (ha : a.isFinite = true) (hb : b.toModel.unpack = .infinity .positive) :
    a + b = infinity := by
  change Float.ofModel (Float.Model.pack (add _ a.toModel.unpack b.toModel.unpack)) = infinity
  rw [hb]
  rcases unpack_of_isFinite ha with ⟨s, hu⟩ | ⟨s, m, e, hm, hu⟩ <;> rw [hu] <;> rfl

theorem sub_eq_neg_infinity (ha : a.isFinite = true) (hb : b.toModel.unpack = .infinity .positive) :
    a - b = -infinity := by
  change Float.ofModel (Float.Model.pack (sub _ a.toModel.unpack b.toModel.unpack)) = -infinity
  rw [hb]
  rcases unpack_of_isFinite ha with ⟨s, hu⟩ | ⟨s, m, e, hm, hu⟩ <;> rw [hu] <;> rfl

theorem le_infinity (ha : a.isNaN = false) : a ≤ infinity :=
  (le_iff ha rfl).mpr ((le_abs_self _).trans (abs_value_le a))

theorem neg_infinity_le (ha : a.isNaN = false) : -infinity ≤ a := by
  rw [le_iff (isNaN_neg infinity) ha, value_neg]
  exact neg_le_of_abs_le (abs_value_le a)

/-- Adding what is not negative does not go back, whether it is lost in the rounding or
overflows. -/
theorem le_add_of_nonneg (ha : a.isFinite = true) (hb : b.isNaN = false) (h0 : 0 ≤ value b) :
    a ≤ a + b := by
  have hn := isNaN_eq_false ha
  cases hfin : b.isFinite with
  | true =>
    have hsum := rounds_add ha hfin
    exact (le_iff hn hsum.isNaN).mpr (hsum.ge_of_ge a (le_add_of_nonneg_right h0))
  | false =>
    rw [add_eq_infinity ha (unpack_eq_infinity hb hfin h0)]
    exact le_infinity hn

theorem sub_le_of_nonneg (ha : a.isFinite = true) (hb : b.isNaN = false) (h0 : 0 ≤ value b) :
    a - b ≤ a := by
  have hn := isNaN_eq_false ha
  cases hfin : b.isFinite with
  | true =>
    have hdiff := rounds_sub ha hfin
    exact (le_iff hdiff.isNaN hn).mpr (hdiff.le_of_le a (sub_le_self _ h0))
  | false =>
    rw [sub_eq_neg_infinity ha (unpack_eq_infinity hb hfin h0)]
    exact neg_infinity_le hn

end InitialValue.Binary64
