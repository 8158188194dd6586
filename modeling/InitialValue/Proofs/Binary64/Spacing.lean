import InitialValue.Proofs.Binary64.Arithmetic
import Mathlib.Algebra.Order.Archimedean.Basic
import Mathlib.Data.Rat.Floor

/-! How far values lie apart. A positive value is at least a power of two whose
multiples by up to 53 bits are values. So a step of its size gets ahead from every
value that is not beyond 2^52 times as large, and not twice as far as it should. A
step that does not get ahead is lost for good, and half a step stays within the range
where the whole one does. Rounding adds at most one part in 2^52, or the least positive
value. -/

namespace InitialValue.Binary64

open Float.Model (UnpackedFloat totalExponent)
open Float.Model.UnpackedFloat

variable {a b y : Float}

/-! ### Powers of two below values -/

/-- A power of two that is not above a value, but of which 2^53 are more than 2^52 times the value,
unless they are out of range. -/
theorem exists_two_zpow_le (hb : b.isFinite = true) (hpos : 0 < value b) :
    ∃ e, leastExponent ≤ e ∧ e ≤ greatestExponent ∧ 2 ^ e ≤ value b ∧
      (2 ^ 52 * value b < 2 ^ 53 * 2 ^ e ∨ 2 ^ 53 * 2 ^ e = bound) := by
  rcases abs_value_cases b with ⟨hinf, -⟩ | hzero | ⟨-, m, e, hm, hc, habs⟩
  · exact absurd hb (by simp [hinf])
  · exact absurd hzero hpos.ne'
  rw [abs_of_pos hpos] at habs
  have hbelow := two_zpow_totalExponent_le hm e
  have habove : (m : ℚ) * 2 ^ e < 2 ^ totalExponent m e := calc
    (m : ℚ) * 2 ^ e < (m + 1) * 2 ^ e := mul_lt_mul_of_pos_right (lt_add_one _) (two_zpow_pos e)
    _ ≤ 2 ^ totalExponent m e := succ_mul_two_zpow_le m e
  rw [← habs] at hbelow habove
  have hleast : leastExponent ≤ totalExponent m e - 1 := by
    have := hc.least
    unfold totalExponent
    omega
  by_cases htop : totalExponent m e - 1 ≤ greatestExponent
  · refine ⟨totalExponent m e - 1, hleast, htop, hbelow, .inl ?_⟩
    calc 2 ^ 52 * value b < 2 ^ 52 * 2 ^ (totalExponent m e - 1 + 1) := by
          rw [sub_add_cancel]
          exact mul_lt_mul_of_pos_left habove (by norm_num)
      _ = 2 ^ 53 * 2 ^ (totalExponent m e - 1) := by
          rw [two_zpow_add_one]
          ring
  · refine ⟨greatestExponent, by decide, le_rfl, (two_zpow_le ?_).trans hbelow,
      .inr bound_eq_greatest.symm⟩
    omega

/-- Within 53 bits of a power of two a value lies at most that far above. -/
theorem exists_value_between {q : ℚ} {e : Int} (hleast : leastExponent ≤ e)
    (hgreatest : e ≤ greatestExponent) (hq : |q| < 2 ^ 53 * 2 ^ e) :
    ∃ c : Float, q < value c ∧ value c ≤ q + 2 ^ e := by
  have hpos := two_zpow_pos e
  have hdiv : |q / 2 ^ e| < 2 ^ 53 := by rwa [abs_div, abs_of_pos hpos, div_lt_iff₀ hpos]
  have hk : |⌊q / 2 ^ e⌋ + 1| ≤ 2 ^ 53 := by
    have habove : ⌊q / 2 ^ e⌋ < 2 ^ 53 := Int.floor_lt.mpr (by exact_mod_cast (abs_lt.mp hdiv).2)
    have hbelow : -2 ^ 53 ≤ ⌊q / 2 ^ e⌋ :=
      Int.le_floor.mpr (by exact_mod_cast (abs_lt.mp hdiv).1.le)
    rw [abs_le]
    omega
  obtain ⟨c, -, hc⟩ := exists_value_eq_int_mul_two_zpow hk hleast hgreatest
  refine ⟨c, ?_, ?_⟩ <;> rw [hc]
  · rw [← div_lt_iff₀ hpos]
    exact_mod_cast Int.lt_floor_add_one (q / 2 ^ e)
  · have hfloor := (le_div_iff₀ hpos).mp (Int.floor_le (q / 2 ^ e))
    push_cast
    linarith

/-- A number within the range has a value close above it: by one part in 2^52, or by the least
positive value. -/
theorem exists_value_near {q : ℚ} (h0 : 0 ≤ q) (hq : q < bound) :
    ∃ c : Float, q ≤ value c ∧ value c ≤ q + (q / 2 ^ 52 + unit) := by
  have hunit : 0 < unit := two_zpow_pos _
  rcases h0.eq_or_lt with rfl | hpos
  · exact ⟨0.0, value_zero.ge, by rw [value_zero]; linarith⟩
  obtain ⟨n, hn, hn'⟩ := exists_mem_Ico_zpow hpos one_lt_two
  have htop : n < 1024 := (zpow_lt_zpow_iff_right₀ one_lt_two).mp (hn.trans_lt hq)
  have hpart : 0 < q / 2 ^ 52 := by positivity
  have hstep : (2 : ℚ) ^ max (n - 52) leastExponent ≤ q / 2 ^ 52 + unit := by
    rcases max_choice (n - 52) leastExponent with hmax | hmax <;> rw [hmax]
    · rw [zpow_sub₀ two_ne_zero]
      exact (div_le_div_of_nonneg_right hn (by norm_num)).trans (by linarith)
    · exact le_add_of_nonneg_left hpart.le
  have hroom : |q| < 2 ^ 53 * 2 ^ max (n - 52) leastExponent := calc
    |q| < 2 ^ (n + 1) := by rwa [abs_of_pos hpos]
    _ ≤ 2 ^ ((53 : ℕ) + max (n - 52) leastExponent) := two_zpow_le (by omega)
    _ = 2 ^ 53 * 2 ^ max (n - 52) leastExponent := two_zpow_nat_add 53 _
  obtain ⟨c, hc, hc'⟩ := exists_value_between (le_max_right _ _)
    (max_le (by unfold greatestExponent; omega) (by decide)) hroom
  exact ⟨c, hc.le, hc'.trans (add_le_add_right hstep q)⟩

/-! ### Steps -/

/-- A step gets ahead unless it is too small for the value that it leaves. -/
theorem lt_of_rounds_add (ha : a.isFinite = true) (hb : b.isFinite = true) (hpos : 0 < value b)
    (hle : |value a| ≤ 2 ^ 52 * value b) (h : Rounds (value a + value b) y.toModel.unpack) :
    value a < value y := by
  obtain ⟨e, hleast, hgreatest, hpow, htop⟩ := exists_two_zpow_le hb hpos
  have hroom : |value a| < 2 ^ 53 * 2 ^ e := by
    rcases htop with hlt | hbound
    · exact hle.trans_lt hlt
    · exact hbound ▸ abs_value_lt ha
  obtain ⟨c, hc, hc'⟩ := exists_value_between hleast hgreatest hroom
  exact hc.trans_le (h.ge_of_ge c (hc'.trans (add_le_add_right hpow _)))

/-- Rounding does not double a step. -/
theorem le_of_rounds_add (ha : a.isFinite = true) (hb : b.isFinite = true) (hpos : 0 < value b)
    (hle : |value a| + value b ≤ 2 ^ 52 * value b)
    (h : Rounds (value a + value b) y.toModel.unpack) : value y ≤ value a + 2 * value b := by
  obtain ⟨e, hleast, hgreatest, hpow, htop⟩ := exists_two_zpow_le hb hpos
  have habs : |value a + value b| ≤ |value a| + value b :=
    (abs_add_le _ _).trans_eq (by rw [abs_of_pos hpos])
  by_cases hroom : |value a + value b| < 2 ^ 53 * 2 ^ e
  · obtain ⟨c, hc, hc'⟩ := exists_value_between hleast hgreatest hroom
    have hyc : value y ≤ value c := h.le_of_le c hc.le
    linarith
  · -- The exact sum is out of range, so that it lies above every value.
    have hbound := htop.resolve_left fun hlt => hroom ((habs.trans hle).trans_lt hlt)
    rw [hbound, abs_lt, not_and, not_lt] at hroom
    have hlow := (abs_lt.mp (abs_value_lt ha)).1
    have hyb : value y ≤ bound := (le_abs_self _).trans (abs_value_le y)
    have hover := hroom (by linarith)
    linarith

theorem signed_injective {s s' : Sign} {p p' : ℚ} (hp : 0 < p) (hp' : 0 < p')
    (h : signed s p = signed s' p') : s = s' ∧ p = p' := by
  cases s with
  | negative =>
    cases s' with
    | negative => exact ⟨rfl, neg_injective h⟩
    | positive =>
      change -p = p' at h
      linarith
  | positive =>
    cases s' with
    | negative =>
      change p = -p' at h
      linarith
    | positive => exact ⟨rfl, h⟩

/-- Only zero is a value in two ways. -/
theorem unpack_eq_of_value_eq (ha : a.isFinite = true) (hb : b.isFinite = true) (hne : value a ≠ 0)
    (h : value a = value b) : a.toModel.unpack = b.toModel.unpack := by
  have hu := proper_unpack (isNaN_eq_false ha)
  have hv := proper_unpack (isNaN_eq_false hb)
  change a.toModel.unpack.isFinite = true at ha
  change b.toModel.unpack.isFinite = true at hb
  change unpackedValue a.toModel.unpack ≠ 0 at hne
  change unpackedValue a.toModel.unpack = unpackedValue b.toModel.unpack at h
  generalize a.toModel.unpack = u at hu ha hne h ⊢
  generalize b.toModel.unpack = v at hv hb h ⊢
  cases hu with
  | infinity s => cases ha
  | zero s => exact absurd rfl hne
  | @finite s m e hm hc =>
    cases hv with
    | infinity s' => cases hb
    | zero s' => exact absurd h hne
    | @finite s' m' e' hm' hc' =>
      obtain ⟨rfl, heq⟩ := signed_injective (mul_two_zpow_pos hm e) (mul_two_zpow_pos hm' e') h
      obtain ⟨rfl, rfl⟩ := hc.eq_of_mul_eq hc' heq
      rfl

/-- After a step that was lost, the next one is. -/
theorem add_add_of_value_eq (hy : (a + b).isFinite = true) (hne : value b ≠ 0)
    (hlost : value (a + b) = value a) : a + b + b = a + b := by
  obtain ⟨ha, hb⟩ := isFinite_of_add hy
  have ha0 : value a ≠ 0 := by
    intro h0
    have hsum := (rounds_add ha hb).value_eq (a := b) (by rw [h0, zero_add])
    rw [h0, zero_add] at hsum
    exact hne (hsum.symm.trans (hlost.trans h0))
  have hunpack := unpack_eq_of_value_eq ha hy ha0 hlost.symm
  change Float.ofModel (Float.Model.pack (add _ (a + b).toModel.unpack b.toModel.unpack)) =
    Float.ofModel (Float.Model.pack (add _ a.toModel.unpack b.toModel.unpack))
  rw [hunpack]

/-! ### Steps within the range -/

theorem abs_value_le_sub (ha : a.isFinite = true) : |value a| ≤ bound - 2 * 2 ^ (970 : ℤ) := by
  rw [← two_zpow_add_one]
  exact abs_value_le_of_isFinite ha

/-- A step of less than 2^970 does not leave the range. -/
theorem isFinite_add_of_lt (ha : a.isFinite = true) (hb : b.isFinite = true)
    (hsmall : |value b| < 2 ^ (970 : ℤ)) : (a + b).isFinite = true := by
  refine (rounds_add ha hb).isFinite ((abs_add_le _ _).trans_lt ?_)
  have hle := abs_value_le_sub ha
  linarith

/-- Half of a value that is not too small is a value. -/
theorem exists_value_eq_half (ha : a.isFinite = true) (hsmall : 2 ^ (-1021 : ℤ) ≤ |value a|) :
    ∃ c : Float, value c = value a / 2 := by
  rcases abs_value_cases a with ⟨hinf, -⟩ | hzero | ⟨-, m, e, hm, hc, habs⟩
  · exact absurd ha (by simp [hinf])
  · rw [hzero, abs_zero] at hsmall
    exact absurd hsmall (not_le.mpr (two_zpow_pos _))
  · have he : leastExponent < e := by
      refine lt_of_le_of_ne hc.least fun heq => ?_
      have hlt : (m : ℚ) * 2 ^ e < 2 ^ 53 * 2 ^ leastExponent := by
        rw [← heq]
        exact mul_lt_mul_of_pos_right (by exact_mod_cast hc.lt) (two_zpow_pos _)
      rw [← two_zpow_nat_add, ← habs] at hlt
      exact absurd hsmall (not_le.mpr hlt)
    have hgreatest := hc.greatest
    obtain ⟨c, -, hv⟩ := exists_value_eq_mul_two_zpow hc.lt.le (e := e - 1) (by omega) (by omega)
    have hhalf : value c = |value a| / 2 := by
      rw [hv, habs, zpow_sub_one₀ (by norm_num)]
      ring
    rcases abs_choice (value a) with h | h
    · exact ⟨c, by rw [hhalf, h]⟩
    · exact ⟨-c, by rw [value_neg, hhalf, h, neg_div, neg_neg]⟩

/-- Only what is nearer to the bound than this, or beyond it, is rounded to an infinite value. The
power has a name because linear arithmetic does not take one so large for a number. -/
def brink : ℚ := 2 ^ (970 : ℤ)

theorem brink_pos : 0 < brink := two_zpow_pos _

theorem bound_eq_brink : bound = 2 ^ 54 * brink := two_zpow_nat_add 54 970

theorem abs_value_le_sub_brink (ha : a.isFinite = true) : |value a| ≤ bound - 2 * brink :=
  abs_value_le_sub ha

namespace Rounds

variable {q : ℚ}

/-- Rounding does not pass a magnitude above. -/
theorem abs_le_of_le (h : Rounds q y.toModel.unpack) (hq : |q| ≤ |value a|) :
    |value y| ≤ |value a| := by
  rw [← value_abs a, abs_le] at hq ⊢
  have hlow := h.ge_of_ge (-a.abs) (by rw [value_neg]; exact hq.1)
  rw [value_neg] at hlow
  exact ⟨hlow, h.le_of_le a.abs hq.2⟩

/-- Rounding adds at most one part in 2^52 of a number, or the least positive value. -/
theorem value_le_add (h : Rounds q y.toModel.unpack) (h0 : 0 ≤ q) :
    value y ≤ q + (q / 2 ^ 52 + unit) := by
  rcases lt_or_ge q bound with hrange | hover
  · obtain ⟨c, hc, hc'⟩ := exists_value_near h0 hrange
    exact (h.le_of_le c hc).trans hc'
  · have hle : value y ≤ bound := (le_abs_self _).trans (abs_value_le y)
    have hunit : 0 < unit := two_zpow_pos _
    have hpart : 0 ≤ q / 2 ^ 52 := by positivity
    linarith

/-- Within the range it moves a number by no more than that, whatever its sign. -/
theorem abs_sub_le (h : Rounds q y.toModel.unpack) (hq : |q| < bound) :
    |value y - q| ≤ |q| / 2 ^ 52 + unit := by
  obtain ⟨c, hc, hc'⟩ := exists_value_near (abs_nonneg q) hq
  rcases abs_choice q with hsign | hsign
  · refine (h.nearest hq.le c).trans ?_
    rw [abs_of_nonneg (by linarith)]
    linarith
  · refine (h.nearest hq.le (-c)).trans ?_
    rw [value_neg, abs_of_nonpos (by linarith)]
    linarith

/-- Within the range that is little, also after multiplication by a count. -/
theorem mul_value_le_add {c : ℚ} (h : Rounds q y.toModel.unpack) (h0 : 0 ≤ q) (hc : 0 ≤ c)
    (hcount : c ≤ 2 ^ 64) (hle : c * q ≤ bound) : c * value y ≤ c * q + 5 * brink := by
  have htiny : c * unit ≤ brink := calc
    c * unit ≤ 2 ^ 64 * 2 ^ leastExponent := mul_le_mul_of_nonneg_right hcount (two_zpow_pos _).le
    _ = 2 ^ ((64 : ℕ) + leastExponent) := (two_zpow_nat_add 64 leastExponent).symm
    _ ≤ brink := two_zpow_le (by decide)
  have hpart : c * (q / 2 ^ 52) ≤ 4 * brink := by
    rw [bound_eq_brink] at hle
    rw [← mul_div_assoc, div_le_iff₀ (by norm_num)]
    linarith
  calc c * value y ≤ c * (q + (q / 2 ^ 52 + unit)) :=
      mul_le_mul_of_nonneg_left (h.value_le_add h0) hc
    _ = c * q + (c * (q / 2 ^ 52) + c * unit) := by ring
    _ ≤ c * q + 5 * brink := by linarith

theorem isFinite_of_lt (h : Rounds q y.toModel.unpack) (hq : |q| < bound - brink) :
    y.isFinite = true :=
  h.isFinite hq

theorem not_isFinite (h : Rounds q y.toModel.unpack) (hq : bound ≤ |q|) : ¬ y.isFinite = true := by
  have hinf : value infinity = bound := rfl
  rw [isFinite_iff_abs_lt h.isNaN, not_lt]
  rcases le_abs.mp hq with hq | hq
  · exact (h.ge_of_ge infinity (hinf.trans_le hq)).trans (le_abs_self _)
  · have hle : value y ≤ value (-infinity) := h.le_of_le _ (by rw [value_neg, hinf]; linarith)
    rw [value_neg, hinf] at hle
    exact le_abs.mpr (.inr (by linarith))

end Rounds

/-- Half a step from a value stays in range where the whole step does. -/
theorem isFinite_add_half (hy : (a + b).isFinite = true) : (a + b / 2.0).isFinite = true := by
  obtain ⟨ha, hb⟩ := isFinite_of_add hy
  have hhalf := rounds_div hb (b := 2.0) rfl (by rw [value_two]; norm_num)
  have hsum := rounds_add ha (isFinite_div_two hb)
  rw [value_two] at hhalf
  by_contra hinf
  have hover := not_lt.mp (mt hsum.isFinite hinf)
  have hle := abs_value_le_sub ha
  -- The half is large, so that it is exact.
  have hlarge : 2 ^ (970 : ℤ) ≤ |value (b / 2.0)| := by
    have htriangle := hover.trans (abs_add_le _ _)
    linarith
  have hexact : value (b / 2.0) = value b / 2 := by
    have hshrink := hhalf.abs_le_of_le (a := b)
      (by rw [abs_div, abs_two]; linarith [abs_nonneg (value b)])
    obtain ⟨c, hc⟩ := exists_value_eq_half hb
      ((two_zpow_le (by decide)).trans (hlarge.trans hshrink))
    exact hhalf.value_eq hc
  rw [hexact] at hover
  refine (rounds_add ha hb).not_isFinite ?_ hy
  have habs := abs_le.mp hle
  rcases le_abs.mp hover with h | h
  · exact le_abs.mpr (.inl (by linarith))
  · exact le_abs.mpr (.inr (by linarith))

end InitialValue.Binary64
