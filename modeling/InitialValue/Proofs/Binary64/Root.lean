import InitialValue.Proofs.Binary64.Spacing
import Mathlib.Data.Nat.Sqrt

/-! Square roots. The root of a mantissa is taken with at least 53 bits, and its remainder
tells the side of the midpoint on which the exact one is. So a rounded root lies on the
side of every value on which the exact one does. Roots need not be rational: what is
said of them is said of squares. -/

namespace InitialValue.Binary64

open Float.Model (Format UnpackedFloat totalExponent)
open Float.Model.UnpackedFloat

variable {a c : Float}

/-! ### Roots -/

section Roots

variable {m k : Nat}

/-- A number that stands for the root of `m`: it lies on the same side of every whole number and of
every midpoint between two. -/
def rootSide (m : Nat) : ℚ :=
  if m - m.sqrt * m.sqrt = 0 then m.sqrt
  else m.sqrt + if m - m.sqrt * m.sqrt ≤ m.sqrt then 1 / 4 else 3 / 4

theorem approximates_rootSide (m : Nat) : Approximates
    (.ofMantissaAndAccuracy m.sqrt (if m - m.sqrt * m.sqrt = 0 then .exact
      else .inexact (if m - m.sqrt * m.sqrt ≤ m.sqrt then .lt else .gt))) (rootSide m) := by
  unfold rootSide
  split
  · exact approximates_exact _
  · split
    · have hside : compare (1 / 4 : ℚ) (1 / 2) = .lt := compare_lt_iff_lt.mpr (by norm_num)
      rw [← hside]
      exact approximates_inexact _ (by norm_num) (by norm_num)
    · have hside : compare (3 / 4 : ℚ) (1 / 2) = .gt := compare_gt_iff_gt.mpr (by norm_num)
      rw [← hside]
      exact approximates_inexact _ (by norm_num) (by norm_num)

theorem sqrt_le_rootSide (m : Nat) : (m.sqrt : ℚ) ≤ rootSide m := by
  have h := (approximates_rootSide m).le
  rwa [mantissa_ofMantissaAndAccuracy] at h

theorem rootSide_lt (m : Nat) : rootSide m < m.sqrt + 1 := by
  have h := (approximates_rootSide m).lt
  rwa [mantissa_ofMantissaAndAccuracy] at h

theorem natCast_le_rootSide (h : k ^ 2 ≤ m) : (k : ℚ) ≤ rootSide m :=
  (Nat.cast_le.mpr (Nat.le_sqrt'.mpr h)).trans (sqrt_le_rootSide m)

theorem rootSide_le_natCast (h : m ≤ k ^ 2) : rootSide m ≤ k := by
  rcases h.eq_or_lt with rfl | hlt
  · have hroot : (k ^ 2).sqrt = k := Nat.sqrt_eq' k
    have hrem : k ^ 2 - k * k = 0 := by rw [sq, Nat.sub_self]
    rw [rootSide, hroot, if_pos hrem]
  · have hsucc : ((m.sqrt + 1 : ℕ) : ℚ) ≤ k := Nat.cast_le.mpr (Nat.sqrt_lt'.mpr hlt)
    push_cast at hsucc
    exact (rootSide_lt m).le.trans hsucc

end Roots

/-- The root of a mantissa is taken with at least 53 bits. -/
theorem two_pow_le_sqrt {m : Nat} (hm : 2 ^ 104 ≤ m) : 2 ^ 52 ≤ m.sqrt :=
  Nat.le_sqrt'.mpr (by rwa [← pow_mul])

/-- A whole number of bits below 53 at a lower exponent stays below a root that has 53 bits. -/
theorem mul_two_zpow_lt_sqrt {m k : Nat} {f t : Int} (hm : 2 ^ 104 ≤ m) (hk : k < 2 ^ 53)
    (hf : f < t) : (k : ℚ) * 2 ^ f < m.sqrt * 2 ^ t := by
  have hroot : ((2 ^ 52 : ℕ) : ℚ) ≤ m.sqrt := Nat.cast_le.mpr (two_pow_le_sqrt hm)
  calc (k : ℚ) * 2 ^ f < 2 ^ 53 * 2 ^ f :=
      mul_lt_mul_of_pos_right (by exact_mod_cast hk) (two_zpow_pos f)
    _ = 2 ^ 52 * 2 ^ (f + 1) := by rw [two_zpow_add_one]; ring
    _ ≤ 2 ^ 52 * 2 ^ t := mul_le_mul_of_nonneg_left (two_zpow_le hf) (by norm_num)
    _ ≤ m.sqrt * 2 ^ t := mul_le_mul_of_nonneg_right (by exact_mod_cast hroot) (two_zpow_pos t).le

/-- Values lie on the same side of the number that stands for a root as of the root itself. -/
theorem rootSide_mul_cases {m : Nat} {t : Int} (hm : 2 ^ 104 ≤ m) (hc : 0 ≤ value c) :
    (value c ^ 2 ≤ m * (2 ^ t) ^ 2 → value c ≤ rootSide m * 2 ^ t) ∧
      (m * (2 ^ t) ^ 2 ≤ value c ^ 2 → rootSide m * 2 ^ t ≤ value c) := by
  have ht := two_zpow_pos t
  obtain ⟨k, f, hk, -, habs⟩ := onGrid_abs_value c
  rw [abs_of_nonneg hc] at habs
  rw [habs]
  by_cases hf : t ≤ f
  · obtain ⟨j, hj⟩ := exists_mul_two_zpow_eq k hf
    rw [hj, mul_pow, mul_le_mul_iff_left₀ (pow_pos ht 2), mul_le_mul_iff_left₀ ht,
      mul_le_mul_iff_left₀ (pow_pos ht 2), mul_le_mul_iff_left₀ ht]
    exact ⟨fun h => natCast_le_rootSide (by exact_mod_cast h),
      fun h => rootSide_le_natCast (by exact_mod_cast h)⟩
  · have hlt := mul_two_zpow_lt_sqrt hm hk (not_le.mp hf)
    have hroot : ((m.sqrt : ℚ) * 2 ^ t) ^ 2 ≤ m * (2 ^ t) ^ 2 := by
      rw [mul_pow]
      exact mul_le_mul_of_nonneg_right (by exact_mod_cast Nat.sqrt_le' m) (pow_pos ht 2).le
    refine ⟨fun _ => hlt.le.trans (mul_le_mul_of_nonneg_right (sqrt_le_rootSide m) ht.le),
      fun hle => ?_⟩
    have hsq := pow_lt_pow_left₀ hlt (mul_nonneg k.cast_nonneg (two_zpow_pos f).le) two_ne_zero
    exact absurd (hsq.trans_le hroot) (not_lt.mpr hle)

/-- The root of a mantissa is taken with enough bits to be rounded. -/
theorem rounds_sqrtCore {m : Nat} {e : Int} (hm : 0 < m) (he : leastExponent ≤ e) :
    ∃ r, 0 < r ∧ Rounds r (Float.Model.pack (roundWithAccuracy Format.binary64 .positive
        (sqrtCore Format.binary64 m e).1 (sqrtCore Format.binary64 m e).2.1
        (sqrtCore Format.binary64 m e).2.2)).unpack ∧
      ∀ c : Float, 0 ≤ value c →
        (value c ^ 2 ≤ m * 2 ^ e → value c ≤ r) ∧ (m * 2 ^ e ≤ value c ^ 2 → r ≤ value c) := by
  unfold sqrtCore
  dsimp only
  generalize ht : min (e.ediv 2) (Format.binary64.targetExponent ((totalExponent m e + 1).ediv 2)) =
    t
  rw [targetExponent_eq] at ht
  have htwice : 2 * t ≤ e := by
    have := Int.ediv_mul_le e two_ne_zero
    change e / 2 * 2 ≤ e at this
    have : t ≤ e.ediv 2 := ht ▸ min_le_left _ _
    change t ≤ e / 2 at this
    omega
  obtain ⟨k, hk⟩ := Int.exists_add_of_le htwice
  rw [show (e - 2 * t).toNat = k by omega]
  have hvalue : (m : ℚ) * 2 ^ e = (m <<< k : ℕ) * (2 ^ t) ^ 2 := by
    rw [Nat.shiftLeft_eq, hk, zpow_add₀ (by norm_num), zpow_natCast, two_mul,
      zpow_add₀ (by norm_num)]
    push_cast
    ring
  have hbits : 2 ^ 104 ≤ m <<< k := by
    have hne : m <<< k ≠ 0 := by
      rw [Nat.shiftLeft_eq]
      exact (Nat.mul_pos hm (Nat.two_pow_pos k)).ne'
    rw [← Nat.le_log2 hne, log2_shiftLeft hm]
    have htarget : t ≤ max ((totalExponent m e + 1) / 2 - 53) (-1074) := ht ▸ min_le_right _ _
    unfold totalExponent at htarget
    unfold leastExponent at he
    omega
  have hsqrt := two_pow_le_sqrt hbits
  have hroot : ((2 ^ 52 : ℕ) : ℚ) ≤ rootSide (m <<< k) :=
    (Nat.cast_le.mpr hsqrt).trans (sqrt_le_rootSide _)
  have hpos : 0 < rootSide (m <<< k) := lt_of_lt_of_le (by norm_num) hroot
  have hlog : 52 ≤ (m <<< k).sqrt.log2 :=
    (Nat.le_log2 (Nat.ne_of_gt (lt_of_lt_of_le (by norm_num) hsqrt))).mpr hsqrt
  have hexp : t ≤ Format.binary64.targetExponent (totalExponent (m <<< k).sqrt t) := by
    rw [targetExponent_eq]
    unfold totalExponent
    omega
  refine ⟨_, mul_pos hpos (two_zpow_pos t),
    rounds_round .positive (approximates_rootSide _) hpos hexp, ?_⟩
  intro c hc
  rw [hvalue]
  exact rootSide_mul_cases hbits hc

/-- A root is rounded: what is rounded lies on the side of every value on which the root does. -/
theorem rounds_sqrt (ha : a.isFinite = true) (hpos : 0 < value a) :
    ∃ r, 0 < r ∧ Rounds r a.sqrt.toModel.unpack ∧ ∀ c : Float, 0 ≤ value c →
      (value c ^ 2 ≤ value a → value c ≤ r) ∧ (value a ≤ value c ^ 2 → r ≤ value c) := by
  change 0 < unpackedValue a.toModel.unpack at hpos
  change ∃ r, 0 < r ∧
    Rounds r (Float.Model.pack (UnpackedFloat.sqrt .binary64 a.toModel.unpack)).unpack ∧
    ∀ c : Float, 0 ≤ value c → (value c ^ 2 ≤ unpackedValue a.toModel.unpack → value c ≤ r) ∧
      (unpackedValue a.toModel.unpack ≤ value c ^ 2 → r ≤ value c)
  rcases unpack_of_isFinite ha with ⟨s, hu⟩ | ⟨s, m, e, hm, hu⟩ <;> rw [hu] at hpos ⊢
  · exact absurd rfl hpos.ne
  · cases s with
    | negative => exact absurd hpos (not_lt.mpr (neg_nonpos.mpr (mul_two_zpow_pos hm e).le))
    | positive => exact rounds_sqrtCore hm (canonical_of_unpack hu).least

theorem value_le_sqrt (ha : a.isFinite = true) (hpos : 0 < value a) (hc : 0 ≤ value c)
    (h : value c ^ 2 ≤ value a) : value c ≤ value a.sqrt := by
  obtain ⟨r, -, hr, hside⟩ := rounds_sqrt ha hpos
  exact hr.ge_of_ge c ((hside c hc).1 h)

theorem value_sqrt_le (ha : a.isFinite = true) (hpos : 0 < value a) (hc : 0 ≤ value c)
    (h : value a ≤ value c ^ 2) : value a.sqrt ≤ value c := by
  obtain ⟨r, -, hr, hside⟩ := rounds_sqrt ha hpos
  exact hr.le_of_le c ((hside c hc).2 h)

theorem isFinite_sqrt (ha : a.isFinite = true) (hpos : 0 < value a) (h : value a ≤ 4) :
    a.sqrt.isFinite = true := by
  obtain ⟨r, hr0, hr, hside⟩ := rounds_sqrt ha hpos
  have hle : r ≤ 2 := by
    have := (hside 2.0 (by rw [value_two]; norm_num)).2 (by rw [value_two]; linarith)
    rwa [value_two] at this
  refine hr.isFinite_of_le ?_
  rw [abs_of_pos hr0]
  exact hle.trans (by rw [← zpow_one (2 : ℚ)]; exact two_zpow_le (by norm_num))

/-- The square of a rounded root is near its argument. -/
theorem abs_sq_sqrt_sub_le (ha : a.isFinite = true) (h1 : 1 ≤ value a) (h4 : value a < 4) :
    |value a.sqrt ^ 2 - value a| ≤ 3 / 2 ^ 52 * value a := by
  have hpos : 0 < value a := zero_lt_one.trans_le h1
  -- The whole multiples of 2^-52 below and above the root are values.
  obtain ⟨k, hk⟩ : ∃ k : ℕ, ⌊value a * 2 ^ 104⌋₊.sqrt = k := ⟨_, rfl⟩
  have hfloor0 : 0 ≤ value a * 2 ^ 104 := by positivity
  have hbelow : (k : ℚ) ^ 2 ≤ value a * 2 ^ 104 := by
    have hle : k ^ 2 ≤ ⌊value a * 2 ^ 104⌋₊ := hk ▸ Nat.sqrt_le' _
    exact le_trans (by exact_mod_cast hle) (Nat.floor_le hfloor0)
  have habove : value a * 2 ^ 104 < ((k : ℚ) + 1) ^ 2 := by
    have hlt : ⌊value a * 2 ^ 104⌋₊ < (k + 1) ^ 2 := hk ▸ Nat.lt_succ_sqrt' _
    exact_mod_cast (Nat.floor_lt hfloor0).mp hlt
  have hlt : k < 2 ^ 53 := by
    have : (k : ℚ) ^ 2 < (2 ^ 53) ^ 2 := hbelow.trans_lt (by linarith)
    exact_mod_cast lt_of_pow_lt_pow_left₀ 2 (by norm_num) this
  have hunit : (2 : ℚ) ^ (-52 : ℤ) = 1 / 2 ^ 52 := by norm_num
  obtain ⟨c, -, hc⟩ := exists_value_eq_mul_two_zpow hlt.le (e := -52) (by decide) (by decide)
  obtain ⟨d, -, hd⟩ := exists_value_eq_mul_two_zpow (k := k + 1) hlt (e := -52)
    (by decide) (by decide)
  rw [hunit] at hc hd
  push_cast at hd
  have hc0 : 0 ≤ value c := by rw [hc]; positivity
  have hd0 : 0 ≤ value d := by rw [hd]; positivity
  have hcs := value_le_sqrt ha hpos hc0 (by rw [hc]; linarith)
  have hds := value_sqrt_le ha hpos hd0 (by rw [hd]; linarith)
  have hlow := pow_le_pow_left₀ hc0 hcs 2
  have hhigh := pow_le_pow_left₀ (hc0.trans hcs) hds 2
  rw [hc] at hlow
  rw [hd] at hhigh
  -- The root is at most its square.
  have hk1 : (k : ℚ) ≤ value a * 2 ^ 52 := by
    by_contra hgt
    nlinarith
  rw [abs_le]
  constructor <;> nlinarith

end InitialValue.Binary64
