import InitialValue.Binary64.Elementary
import InitialValue.Proofs.Binary64.Packing
import Mathlib.Algebra.Order.Field.Power
import Mathlib.Data.Rat.Cast.Order
import Mathlib.Tactic.FieldSimp
import Mathlib.Tactic.Linarith
import Mathlib.Tactic.NormNum
import Mathlib.Tactic.Ring

/-! Values as rational numbers. The mantissa of a canonical value carries no power of
two that the exponent could, so that comparing exponents before mantissas compares
the numbers. An infinity counts as the least power of two that no value reaches: then
the order of all values but the one that is not a number is that of the rational
numbers, and the infinities are the only ones whose magnitude is not below the bound. -/

namespace InitialValue.Binary64

open Float.Model (UnpackedFloat)
open Float.Model.UnpackedFloat

/-! ### Powers of two -/

section Powers

variable {e e' : Int}

theorem two_zpow_pos (e : Int) : (0 : ℚ) < 2 ^ e := zpow_pos (by norm_num) e

theorem two_zpow_le (h : e ≤ e') : (2 : ℚ) ^ e ≤ 2 ^ e' := zpow_le_zpow_right₀ (by norm_num) h

theorem two_zpow_add_one (e : Int) : (2 : ℚ) ^ (e + 1) = 2 * 2 ^ e := by
  rw [zpow_add_one₀ (by norm_num), mul_comm]

theorem two_zpow_nat_add (k : Nat) (e : Int) : (2 : ℚ) ^ (k + e) = 2 ^ k * 2 ^ e := by
  rw [zpow_add₀ (by norm_num), zpow_natCast]

theorem mul_two_zpow_pos {m : Nat} (hm : 0 < m) (e : Int) : (0 : ℚ) < m * 2 ^ e :=
  mul_pos (by exact_mod_cast hm) (two_zpow_pos e)

/-- A multiple of a power of two is a multiple of every lower one. -/
theorem exists_mul_two_zpow_eq (m : Nat) (h : e ≤ e') :
    ∃ j : Nat, (m : ℚ) * 2 ^ e' = j * 2 ^ e := by
  obtain ⟨k, rfl⟩ := Int.exists_add_of_le h
  refine ⟨m * 2 ^ k, ?_⟩
  rw [zpow_add₀ (by norm_num), zpow_natCast]
  push_cast
  ring

end Powers

/-- The least power of two that is out of reach. -/
def bound : ℚ := 2 ^ (1024 : ℤ)

theorem bound_pos : 0 < bound := two_zpow_pos 1024

theorem bound_eq_greatest : bound = 2 ^ 53 * 2 ^ greatestExponent := by
  rw [← two_zpow_nat_add]
  rfl

theorem bound_eq {a b : Int} (h : a + b = 1024) : bound = 2 ^ a * 2 ^ b := by
  rw [← zpow_add₀ (by norm_num), h, bound]

/-! ### Canonical magnitudes -/

namespace Canonical

variable {m m' : Nat} {e e' : Int}

/-- A larger exponent outweighs every mantissa. -/
theorem lt_of_exponent_lt (h : Canonical m e) (h' : Canonical m' e') (he : e < e') :
    (m : ℚ) * 2 ^ e < m' * 2 ^ e' := by
  have hm : (m : ℚ) < 2 ^ 53 := by exact_mod_cast h.lt
  have hm' : (2 : ℚ) ^ 52 ≤ m' := by
    have hleast := h.least
    exact_mod_cast h'.normal.resolve_right (by omega)
  calc (m : ℚ) * 2 ^ e < 2 ^ 53 * 2 ^ e := mul_lt_mul_of_pos_right hm (two_zpow_pos e)
    _ = 2 ^ 52 * 2 ^ (e + 1) := by rw [two_zpow_add_one]; ring
    _ ≤ 2 ^ 52 * 2 ^ e' := mul_le_mul_of_nonneg_left (two_zpow_le he) (by norm_num)
    _ ≤ m' * 2 ^ e' := mul_le_mul_of_nonneg_right hm' (two_zpow_pos e').le

theorem compare_eq (h : Canonical m e) (h' : Canonical m' e') :
    (compare e e').then (compare m m') = compare ((m : ℚ) * 2 ^ e) (m' * 2 ^ e') := by
  rcases lt_trichotomy e e' with he | rfl | he
  · rw [compare_lt_iff_lt.mpr he, compare_lt_iff_lt.mpr (h.lt_of_exponent_lt h' he)]
    rfl
  · rw [compare_eq_iff_eq.mpr rfl, Ordering.eq_then]
    have hpos := two_zpow_pos e
    rcases lt_trichotomy m m' with hm | rfl | hm
    · have hlt : (m : ℚ) < m' := by exact_mod_cast hm
      rw [compare_lt_iff_lt.mpr hm, compare_lt_iff_lt.mpr (mul_lt_mul_of_pos_right hlt hpos)]
    · rw [compare_eq_iff_eq.mpr rfl, compare_eq_iff_eq.mpr rfl]
    · have hlt : (m' : ℚ) < m := by exact_mod_cast hm
      rw [compare_gt_iff_gt.mpr hm, compare_gt_iff_gt.mpr (mul_lt_mul_of_pos_right hlt hpos)]
  · rw [compare_gt_iff_gt.mpr he, compare_gt_iff_gt.mpr (h'.lt_of_exponent_lt h he)]
    rfl

/-- A magnitude has only one canonical form. -/
theorem eq_of_mul_eq (h : Canonical m e) (h' : Canonical m' e')
    (heq : (m : ℚ) * 2 ^ e = m' * 2 ^ e') : m = m' ∧ e = e' := by
  have hcompare := h.compare_eq h'
  rw [heq, compare_eq_iff_eq.mpr rfl, Ordering.then_eq_eq, compare_eq_iff_eq,
    compare_eq_iff_eq] at hcompare
  exact hcompare.symm

/-- The greatest magnitude lies one step below the bound. -/
theorem le_bound_sub (h : Canonical m e) : (m : ℚ) * 2 ^ e ≤ bound - 2 ^ greatestExponent := by
  have hm : (m : ℚ) ≤ 2 ^ 53 - 1 := by
    have hlt := h.lt
    exact_mod_cast (show (m : ℤ) ≤ 2 ^ 53 - 1 by omega)
  calc (m : ℚ) * 2 ^ e ≤ (2 ^ 53 - 1) * 2 ^ e := mul_le_mul_of_nonneg_right hm (two_zpow_pos e).le
    _ ≤ (2 ^ 53 - 1) * 2 ^ greatestExponent :=
      mul_le_mul_of_nonneg_left (two_zpow_le h.greatest) (by norm_num)
    _ = bound - 2 ^ greatestExponent := by
      rw [sub_mul, one_mul, bound_eq_greatest]

theorem lt_bound (h : Canonical m e) : (m : ℚ) * 2 ^ e < bound :=
  h.le_bound_sub.trans_lt (sub_lt_self _ (two_zpow_pos _))

end Canonical

/-! ### Values -/

/-- The number with the sign. -/
def signed (s : Sign) (q : ℚ) : ℚ :=
  match s with
  | .positive => q
  | .negative => -q

theorem abs_signed (s : Sign) (q : ℚ) : |signed s q| = |q| := by
  cases s
  · exact abs_neg q
  · rfl

theorem signed_neg (s : Sign) (q : ℚ) : signed (-s) q = -signed s q := by
  cases s
  · exact (neg_neg q).symm
  · rfl

theorem signed_mul (s s' : Sign) (p q : ℚ) :
    signed s p * signed s' q = signed (s * s') (p * q) := by
  cases s <;> cases s'
  · exact neg_mul_neg p q
  · exact neg_mul p q
  · exact mul_neg p q
  · rfl

theorem signed_ne_zero (s : Sign) {q : ℚ} (hq : q ≠ 0) : signed s q ≠ 0 := by
  cases s
  · exact neg_ne_zero.mpr hq
  · exact hq

def unpackedValue : UnpackedFloat → ℚ
  | .infinity s => signed s bound
  | .notANumber => 0
  | .zero _ => 0
  | .finite s m e _ => signed s (m * 2 ^ e)

/-- The number that a value is; an infinite one counts as the bound of its sign. -/
def value (a : Float) : ℚ := unpackedValue a.toModel.unpack

theorem unpackedValue_neg (u : UnpackedFloat) : unpackedValue u.neg = -unpackedValue u := by
  cases u with
  | notANumber | zero _ => exact neg_zero.symm
  | infinity s | finite s m e hm => exact signed_neg s _

@[simp] theorem value_neg (a : Float) : value (-a) = -value a := by
  rw [value, unpack_neg, unpackedValue_neg, value]

@[simp] theorem value_abs (a : Float) : value a.abs = |value a| := by
  rw [value, unpack_abs, value]
  cases a.toModel.unpack with
  | notANumber | zero _ => exact abs_zero.symm
  | infinity s => exact ((abs_signed s bound).trans (abs_of_pos bound_pos)).symm
  | finite s m e hm => exact ((abs_signed s _).trans (abs_of_pos (mul_two_zpow_pos hm e))).symm

/-- What numbers are unpacked into. -/
inductive Proper : UnpackedFloat → Prop
  | infinity (s : Sign) : Proper (.infinity s)
  | zero (s : Sign) : Proper (.zero s)
  | finite (s : Sign) {m : Nat} {e : Int} (hm : 0 < m) : Canonical m e → Proper (.finite s m e hm)

theorem Proper.isNaN {u : UnpackedFloat} (h : Proper u) : u.isNaN = false := by
  cases h <;> rfl

theorem proper_unpack {a : Float} (ha : a.isNaN = false) : Proper a.toModel.unpack := by
  change a.toModel.unpack.isNaN = false at ha
  cases hu : a.toModel.unpack with
  | infinity s => exact .infinity s
  | notANumber =>
    rw [hu] at ha
    cases ha
  | zero s => exact .zero s
  | finite s m e hm => exact .finite s hm (canonical_of_unpack hu)

/-- The magnitude of a zero is the positive one. -/
theorem abs_eq_zero {a : Float} (ha : a.isNaN = false) (h0 : value a = 0) : a.abs = 0.0 := by
  have hu := proper_unpack ha
  change unpackedValue a.toModel.unpack = 0 at h0
  change Float.ofModel (Float.Model.pack a.toModel.unpack.abs) = 0.0
  generalize a.toModel.unpack = u at hu h0 ⊢
  cases hu with
  | infinity s => exact absurd h0 (signed_ne_zero s bound_pos.ne')
  | zero s => rfl
  | finite s hm hc => exact absurd h0 (signed_ne_zero s (mul_two_zpow_pos hm _).ne')

/-! ### The order -/

section Compare

variable {p q : ℚ}

theorem some_lt_eq_compare (h : p < q) : some .lt = some (compare p q) := by
  rw [compare_lt_iff_lt.mpr h]

theorem some_gt_eq_compare (h : q < p) : some .gt = some (compare p q) := by
  rw [compare_gt_iff_gt.mpr h]

theorem some_eq_eq_compare (p : ℚ) : some .eq = some (compare p p) := by
  rw [compare_eq_iff_eq.mpr rfl]

theorem swap_compare_eq (p q : ℚ) : (compare p q).swap = compare (-p) (-q) := by
  rcases lt_trichotomy p q with h | rfl | h
  · rw [compare_lt_iff_lt.mpr h, compare_gt_iff_gt.mpr (neg_lt_neg h), Ordering.swap_lt]
  · rw [compare_eq_iff_eq.mpr rfl, compare_eq_iff_eq.mpr rfl, Ordering.swap_eq]
  · rw [compare_gt_iff_gt.mpr h, compare_lt_iff_lt.mpr (neg_lt_neg h), Ordering.swap_gt]

end Compare

/-- The order of what numbers are unpacked into is that of the numbers. -/
theorem compare_unpacked {u v : UnpackedFloat} (hu : Proper u) (hv : Proper v) :
    u.compare v = some (compare (unpackedValue u) (unpackedValue v)) := by
  have hbound := bound_pos
  have hbelow := neg_lt_zero.mpr hbound
  -- Only two finite values of the same sign take a look at mantissas and exponents.
  cases hu with
  | infinity s₁ =>
    cases hv with
    | infinity s₂ =>
      cases s₁ <;> cases s₂
      · exact some_eq_eq_compare _
      · exact some_lt_eq_compare (hbelow.trans hbound)
      · exact some_gt_eq_compare (hbelow.trans hbound)
      · exact some_eq_eq_compare _
    | zero s₂ =>
      cases s₁
      · exact some_lt_eq_compare hbelow
      · exact some_gt_eq_compare hbound
    | @finite s₂ m₂ e₂ hm₂ h₂ =>
      have hpos := mul_two_zpow_pos hm₂ e₂
      cases s₁ <;> cases s₂
      · exact some_lt_eq_compare (neg_lt_neg h₂.lt_bound)
      · exact some_lt_eq_compare (hbelow.trans hpos)
      · exact some_gt_eq_compare ((neg_lt_zero.mpr hpos).trans hbound)
      · exact some_gt_eq_compare h₂.lt_bound
  | zero s₁ =>
    cases hv with
    | infinity s₂ =>
      cases s₂
      · exact some_gt_eq_compare hbelow
      · exact some_lt_eq_compare hbound
    | zero s₂ => exact some_eq_eq_compare _
    | @finite s₂ m₂ e₂ hm₂ h₂ =>
      have hpos := mul_two_zpow_pos hm₂ e₂
      cases s₂
      · exact some_gt_eq_compare (neg_lt_zero.mpr hpos)
      · exact some_lt_eq_compare hpos
  | @finite s₁ m₁ e₁ hm₁ h₁ =>
    have hpos := mul_two_zpow_pos hm₁ e₁
    cases hv with
    | infinity s₂ =>
      cases s₁ <;> cases s₂
      · exact some_gt_eq_compare (neg_lt_neg h₁.lt_bound)
      · exact some_lt_eq_compare ((neg_lt_zero.mpr hpos).trans hbound)
      · exact some_gt_eq_compare (hbelow.trans hpos)
      · exact some_lt_eq_compare h₁.lt_bound
    | zero s₂ =>
      cases s₁
      · exact some_lt_eq_compare (neg_lt_zero.mpr hpos)
      · exact some_gt_eq_compare hpos
    | @finite s₂ m₂ e₂ hm₂ h₂ =>
      have hpos₂ := mul_two_zpow_pos hm₂ e₂
      cases s₁ <;> cases s₂
      · exact congrArg some
          ((congrArg Ordering.swap (h₁.compare_eq h₂)).trans (swap_compare_eq _ _))
      · exact some_lt_eq_compare ((neg_lt_zero.mpr hpos).trans hpos₂)
      · exact some_gt_eq_compare ((neg_lt_zero.mpr hpos₂).trans hpos)
      · exact congrArg some (h₁.compare_eq h₂)

variable {a b : Float}

theorem compare_eq (ha : a.isNaN = false) (hb : b.isNaN = false) :
    a.toModel.unpack.compare b.toModel.unpack = some (compare (value a) (value b)) :=
  compare_unpacked (proper_unpack ha) (proper_unpack hb)

theorem lt_iff (ha : a.isNaN = false) (hb : b.isNaN = false) : a < b ↔ value a < value b := by
  have hlt : a < b ↔ a.toModel.unpack.lt b.toModel.unpack = true := decide_eq_true_iff
  rw [hlt, UnpackedFloat.lt, compare_eq ha hb, ← compare_lt_iff_lt]
  simp

theorem le_iff (ha : a.isNaN = false) (hb : b.isNaN = false) : a ≤ b ↔ value a ≤ value b := by
  have hle : a ≤ b ↔ a.toModel.unpack.le b.toModel.unpack = true := decide_eq_true_iff
  rw [hle, UnpackedFloat.le, compare_eq ha hb, ← compare_le_iff_le]
  simp [Ordering.isLE_iff_ne_gt]

theorem beq_iff (ha : a.isNaN = false) (hb : b.isNaN = false) :
    (a == b) = true ↔ value a = value b := by
  change (a.toModel.unpack.compare b.toModel.unpack == some .eq) = true ↔ _
  rw [compare_eq ha hb, ← compare_eq_iff_eq]
  simp

/-! ### The smaller and the larger of two values -/

theorem value_smaller (ha : a.isNaN = false) (hb : b.isNaN = false) :
    value (smaller a b) = min (value a) (value b) := by
  unfold smaller
  rw [if_neg (Bool.eq_false_iff.mp ha)]
  split_ifs with h
  · rw [min_eq_right ((lt_iff hb ha).mp h).le]
  · rw [min_eq_left (not_lt.mp fun hlt => h ((lt_iff hb ha).mpr hlt))]

theorem value_larger (ha : a.isNaN = false) (hb : b.isNaN = false) :
    value (larger a b) = max (value a) (value b) := by
  unfold larger
  rw [if_neg (Bool.eq_false_iff.mp ha)]
  split_ifs with h
  · rw [max_eq_right ((lt_iff ha hb).mp h).le]
  · rw [max_eq_left (not_lt.mp fun hlt => h ((lt_iff ha hb).mpr hlt))]

theorem smaller_eq (a b : Float) : smaller a b = a ∨ smaller a b = b := by
  unfold smaller
  split_ifs <;> simp

theorem larger_eq (a b : Float) : larger a b = a ∨ larger a b = b := by
  unfold larger
  split_ifs <;> simp

/-! ### Magnitudes of values -/

theorem isNaN_eq_false (ha : a.isFinite = true) : a.isNaN = false := (isFinite_iff.mp ha).1

/-- A magnitude is that of an infinity, of a zero, or a canonical one. -/
theorem abs_value_cases (a : Float) : (a.isFinite = false ∧ |value a| = bound) ∨ value a = 0 ∨
    a.isFinite = true ∧ ∃ m e, 0 < m ∧ Canonical m e ∧ |value a| = m * 2 ^ e := by
  change (a.toModel.unpack.isFinite = false ∧ |unpackedValue a.toModel.unpack| = bound) ∨
    unpackedValue a.toModel.unpack = 0 ∨ a.toModel.unpack.isFinite = true ∧
      ∃ m e, 0 < m ∧ Canonical m e ∧ |unpackedValue a.toModel.unpack| = m * 2 ^ e
  cases hu : a.toModel.unpack with
  | infinity s => exact .inl ⟨rfl, (abs_signed s _).trans (abs_of_pos bound_pos)⟩
  | notANumber | zero s => exact .inr (.inl rfl)
  | finite s m e hm =>
    have habs := (abs_signed s _).trans (abs_of_pos (mul_two_zpow_pos hm e))
    exact .inr (.inr ⟨rfl, m, e, hm, canonical_of_unpack hu, habs⟩)

theorem abs_value_le_of_isFinite (ha : a.isFinite = true) :
    |value a| ≤ bound - 2 ^ greatestExponent := by
  rcases abs_value_cases a with ⟨hinf, -⟩ | hzero | ⟨-, m, e, -, hc, habs⟩
  · simp [ha] at hinf
  · have hleast : Canonical 1 leastExponent := ⟨by decide, le_rfl, by decide, .inr rfl⟩
    rw [hzero, abs_zero]
    exact (mul_two_zpow_pos Nat.one_pos leastExponent).le.trans hleast.le_bound_sub
  · rw [habs]
    exact hc.le_bound_sub

/-- Only the infinite values reach the bound. -/
theorem isFinite_iff_abs_lt (ha : a.isNaN = false) : a.isFinite = true ↔ |value a| < bound := by
  refine ⟨fun hfin => ?_, fun hlt => ?_⟩
  · exact (abs_value_le_of_isFinite hfin).trans_lt (sub_lt_self _ (two_zpow_pos _))
  · change a.toModel.unpack.isFinite = true
    change |unpackedValue a.toModel.unpack| < bound at hlt
    have hu := proper_unpack ha
    generalize a.toModel.unpack = u at hu hlt ⊢
    cases hu with
    | infinity s => exact absurd ((abs_signed s _).trans (abs_of_pos bound_pos)) hlt.ne
    | zero s => rfl
    | finite s hm hc => rfl

theorem abs_value_lt (ha : a.isFinite = true) : |value a| < bound :=
  (isFinite_iff_abs_lt (isNaN_eq_false ha)).mp ha

/-- What lies between two finite values is finite. -/
theorem isFinite_of_between {x : Float} (hx : x.isNaN = false) (ha : a.isFinite = true)
    (hb : b.isFinite = true) (hax : value a ≤ value x) (hxb : value x ≤ value b) :
    x.isFinite = true := by
  rw [isFinite_iff_abs_lt hx, abs_lt]
  exact ⟨(abs_lt.mp (abs_value_lt ha)).1.trans_le hax, hxb.trans_lt (abs_lt.mp (abs_value_lt hb)).2⟩

/-- The magnitudes of values: multiples of powers of two by less than 54 bits. -/
def OnGrid (q : ℚ) : Prop := ∃ (k : Nat) (f : Int), k < 2 ^ 53 ∧ leastExponent ≤ f ∧ q = k * 2 ^ f

theorem onGrid_abs_value (a : Float) : OnGrid |value a| := by
  rcases abs_value_cases a with ⟨-, habs⟩ | hzero | ⟨-, m, e, -, hc, habs⟩
  · exact ⟨1, 1024, by decide, by decide, by rw [habs, Nat.cast_one, one_mul, bound]⟩
  · exact ⟨0, 0, by decide, by decide, by rw [hzero, abs_zero, Nat.cast_zero, zero_mul]⟩
  · exact ⟨m, e, hc.lt, hc.least, habs⟩

theorem abs_value_le (a : Float) : |value a| ≤ bound := by
  rcases abs_value_cases a with ⟨-, habs⟩ | hzero | ⟨-, m, e, -, hc, habs⟩
  · exact habs.le
  · rw [hzero, abs_zero]
    exact bound_pos.le
  · rw [habs]
    exact hc.lt_bound.le

/-- The least positive value. -/
def unit : ℚ := 2 ^ leastExponent

/-- Every value is a whole multiple of the least positive one. -/
theorem exists_value_eq (a : Float) : ∃ k : ℤ, value a = k * unit := by
  obtain ⟨m, f, -, hf, habs⟩ := onGrid_abs_value a
  obtain ⟨j, hj⟩ := exists_mul_two_zpow_eq m hf
  rw [hj] at habs
  rcases abs_choice (value a) with h | h
  · exact ⟨j, by rw [← h, habs, unit, Int.cast_natCast]⟩
  · exact ⟨-j, by rw [Int.cast_neg, neg_mul, Int.cast_natCast, unit, ← habs, h, neg_neg]⟩

/-! ### Numbers that are values -/

theorem value_zero : value 0.0 = 0 := rfl

theorem value_one : value 1.0 = 1 := by
  have h : value 1.0 = (2 ^ 52 : ℕ) * 2 ^ (-52 : ℤ) := rfl
  rw [h]
  norm_num

theorem value_two : value 2.0 = 2 := by
  have h : value 2.0 = (2 ^ 52 : ℕ) * 2 ^ (-51 : ℤ) := rfl
  rw [h]
  norm_num

/-- A canonical magnitude is the value of a number. -/
theorem exists_value_eq_of_canonical {m : Nat} {e : Int} (hm : 0 < m) (hc : Canonical m e) :
    ∃ a : Float, a.isFinite = true ∧ value a = m * 2 ^ e := by
  have hu : (Float.Model.pack (.finite .positive m e hm)).unpack = .finite .positive m e hm :=
    unpack_pack_finite hc
  refine ⟨.ofModel (Float.Model.pack (.finite .positive m e hm)), ?_, ?_⟩
  · change (Float.Model.pack (.finite .positive m e hm)).unpack.isFinite = true
    rw [hu]
    rfl
  · change unpackedValue (Float.Model.pack (.finite .positive m e hm)).unpack = _
    rw [hu]
    rfl

/-- The powers of two of normal values. -/
theorem exists_value_eq_two_zpow {e : Int} (hleast : -1022 ≤ e) (hgreatest : e ≤ 1023) :
    ∃ a : Float, a.isFinite = true ∧ value a = 2 ^ e := by
  have hc : Canonical (2 ^ 52) (e - 52) := by
    refine ⟨by decide, ?_, ?_, .inl le_rfl⟩
    · unfold leastExponent
      omega
    · unfold greatestExponent
      omega
  obtain ⟨a, ha, hv⟩ := exists_value_eq_of_canonical (by decide) hc
  refine ⟨a, ha, ?_⟩
  rw [hv, Nat.cast_pow, Nat.cast_ofNat, ← two_zpow_nat_add]
  congr 1
  omega

/-- The multiples of a power of two by up to 53 bits are values; one of them is the bound. -/
theorem exists_value_eq_mul_two_zpow {k : Nat} {e : Int} (hk : k ≤ 2 ^ 53)
    (hleast : leastExponent ≤ e) (hgreatest : e ≤ greatestExponent) :
    ∃ a : Float, a.isNaN = false ∧ value a = k * 2 ^ e := by
  rcases Nat.eq_zero_or_pos k with rfl | hpos
  · exact ⟨0.0, rfl, by rw [Nat.cast_zero, zero_mul]; rfl⟩
  rcases Nat.eq_or_lt_of_le hk with rfl | hlt
  · rcases eq_or_lt_of_le hgreatest with rfl | he
    · exact ⟨infinity, rfl, by rw [Nat.cast_pow, Nat.cast_ofNat, ← two_zpow_nat_add]; rfl⟩
    · have hc : Canonical (2 ^ 52) (e + 1) := ⟨by decide, by omega, by omega, .inl le_rfl⟩
      obtain ⟨a, ha, hv⟩ := exists_value_eq_of_canonical (by decide) hc
      refine ⟨a, isNaN_eq_false ha, ?_⟩
      rw [hv, two_zpow_add_one]
      push_cast
      ring
  -- The mantissa is moved up until it has 53 bits or the exponent is the least one.
  have hlog := (Nat.log2_lt (Nat.ne_of_gt hpos)).mpr hlt
  obtain ⟨j, hj⟩ : ∃ j : Nat, j = min (52 - k.log2) (e - leastExponent).toNat := ⟨_, rfl⟩
  have hc : Canonical (k * 2 ^ j) (e - j) := by
    refine ⟨?_, by omega, by omega, ?_⟩
    · calc k * 2 ^ j < 2 ^ (k.log2 + 1) * 2 ^ j := by
            exact Nat.mul_lt_mul_of_pos_right Nat.lt_log2_self (Nat.two_pow_pos j)
        _ = 2 ^ (k.log2 + 1 + j) := (Nat.pow_add ..).symm
        _ ≤ 2 ^ 53 := Nat.pow_le_pow_right (by decide) (by omega)
    · by_cases hfull : k.log2 + j = 52
      · left
        calc 2 ^ 52 = 2 ^ k.log2 * 2 ^ j := by rw [← Nat.pow_add, hfull]
          _ ≤ k * 2 ^ j := Nat.mul_le_mul_right _ (Nat.log2_self_le (Nat.ne_of_gt hpos))
      · right
        omega
  obtain ⟨a, ha, hv⟩ := exists_value_eq_of_canonical (Nat.mul_pos hpos (Nat.two_pow_pos j)) hc
  refine ⟨a, isNaN_eq_false ha, hv.trans ?_⟩
  rw [zpow_sub₀ (by norm_num), zpow_natCast]
  push_cast
  field_simp

/-- The same with either sign. -/
theorem exists_value_eq_int_mul_two_zpow {k : ℤ} {e : Int} (hk : |k| ≤ 2 ^ 53)
    (hleast : leastExponent ≤ e) (hgreatest : e ≤ greatestExponent) :
    ∃ a : Float, a.isNaN = false ∧ value a = k * 2 ^ e := by
  obtain ⟨j, rfl | rfl⟩ := k.eq_nat_or_neg
  · exact exists_value_eq_mul_two_zpow (by simpa using hk) hleast hgreatest
  · obtain ⟨a, ha, hv⟩ := exists_value_eq_mul_two_zpow (k := j) (by simpa using hk) hleast hgreatest
    exact ⟨-a, (isNaN_neg a).trans ha, by simp [hv]⟩

/-- Whole numbers of less than 54 bits are values. -/
theorem exists_value_eq_int {n : ℤ} (hn : |n| < 2 ^ 53) :
    ∃ a : Float, a.isFinite = true ∧ value a = n := by
  obtain ⟨a, ha, hv⟩ := exists_value_eq_int_mul_two_zpow (e := 0) hn.le (by decide) (by decide)
  rw [zpow_zero, mul_one] at hv
  refine ⟨a, (isFinite_iff_abs_lt ha).mpr ?_, hv⟩
  calc |value a| = (|n| : ℤ) := by rw [hv, Int.cast_abs]
    _ < 2 ^ (53 : ℤ) := by exact_mod_cast hn
    _ ≤ bound := two_zpow_le (by decide)

end InitialValue.Binary64
