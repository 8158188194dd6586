import InitialValue.Proofs.Binary64.Value

/-! Rounding to the nearest value. The two bits that are kept below a mantissa tell
the side of the midpoint on which the exact number lies, so that a mantissa is rounded
to the nearest whole number, and no value is nearer than the one it yields. Rounding
therefore crosses no value: what lies below a value is rounded to something that lies
below it or is the value itself. -/

namespace InitialValue.Binary64

open Float.Model (Format UnpackedFloat totalExponent)
open Float.Model.UnpackedFloat

/-! ### Mantissas -/

/-- The extended mantissa knows the number up to the side of the midpoint. -/
structure Approximates (em : ExtendedMantissa) (r : ℚ) : Prop where
  le : em.mantissa ≤ r
  lt : r < em.mantissa + 1
  half : em.roundBit = true ↔ em.mantissa + 1 / 2 ≤ r
  rest : em.stickyBit = true ↔ r ≠ em.mantissa ∧ r ≠ em.mantissa + 1 / 2

theorem approximates_exact (m : Nat) : Approximates (.ofMantissaAndAccuracy m .exact) m where
  le := le_rfl
  lt := lt_add_one _
  half := by simp [ExtendedMantissa.ofMantissaAndAccuracy]
  rest := by simp [ExtendedMantissa.ofMantissaAndAccuracy]

variable {em : ExtendedMantissa} {r : ℚ}

/-- The two bits together tell whether anything is left below the mantissa. -/
theorem Approximates.left_over (h : Approximates em r) :
    (em.roundBit || em.stickyBit) = true ↔ r ≠ em.mantissa := by
  rw [Bool.or_eq_true, h.half, h.rest]
  constructor
  · rintro (hhalf | ⟨hne, -⟩)
    · linarith
    · exact hne
  · intro hne
    by_cases hmid : r = em.mantissa + 1 / 2
    · exact .inl hmid.ge
    · exact .inr ⟨hne, hmid⟩

theorem Approximates.shiftRightOne (h : Approximates em r) :
    Approximates em.shiftRightOne (r / 2) := by
  have hle := h.le
  have hlt := h.lt
  have hleft := h.left_over
  have hm : (em.mantissa : ℚ) = 2 * (em.mantissa / 2 : ℕ) + (em.mantissa % 2 : ℕ) := by
    exact_mod_cast (Nat.div_add_mod em.mantissa 2).symm
  -- The round bit is the bit of the mantissa that is shifted out.
  rcases Nat.mod_two_eq_zero_or_one em.mantissa with hb | hb
  · rw [hb, Nat.cast_zero, add_zero] at hm
    refine ⟨?_, ?_, ?_, ?_⟩
    · show ((em.mantissa / 2 : ℕ) : ℚ) ≤ r / 2
      linarith
    · show r / 2 < (em.mantissa / 2 : ℕ) + 1
      linarith
    · show (em.mantissa % 2 != 0) = true ↔ ((em.mantissa / 2 : ℕ) : ℚ) + 1 / 2 ≤ r / 2
      simp only [hb, bne_self_eq_false, Bool.false_eq_true, false_iff, not_le]
      linarith
    · show (em.roundBit || em.stickyBit) = true ↔
        r / 2 ≠ (em.mantissa / 2 : ℕ) ∧ r / 2 ≠ (em.mantissa / 2 : ℕ) + 1 / 2
      rw [hleft]
      refine ⟨fun hne => ⟨fun heq => hne ?_, fun heq => ?_⟩, fun hne heq => hne.1 ?_⟩ <;> linarith
  · rw [hb, Nat.cast_one] at hm
    refine ⟨?_, ?_, ?_, ?_⟩
    · show ((em.mantissa / 2 : ℕ) : ℚ) ≤ r / 2
      linarith
    · show r / 2 < (em.mantissa / 2 : ℕ) + 1
      linarith
    · show (em.mantissa % 2 != 0) = true ↔ ((em.mantissa / 2 : ℕ) : ℚ) + 1 / 2 ≤ r / 2
      have hhalf : ((em.mantissa / 2 : ℕ) : ℚ) + 1 / 2 ≤ r / 2 := by linarith
      exact ⟨fun _ => hhalf, fun _ => by rw [hb]; rfl⟩
    · show (em.roundBit || em.stickyBit) = true ↔
        r / 2 ≠ (em.mantissa / 2 : ℕ) ∧ r / 2 ≠ (em.mantissa / 2 : ℕ) + 1 / 2
      rw [hleft]
      refine ⟨fun hne => ⟨fun heq => ?_, fun heq => hne ?_⟩, fun hne heq => hne.2 ?_⟩ <;> linarith

theorem Approximates.shiftRight (h : Approximates em r) (n : Nat) :
    Approximates (em >>> n) (r / 2 ^ n) := by
  show Approximates (n.repeat ExtendedMantissa.shiftRightOne em) _
  induction n with
  | zero => simpa [Nat.repeat] using h
  | succ n ih =>
    rw [pow_succ, ← div_div]
    exact ih.shiftRightOne

/-- Rounding goes to the nearest whole number. -/
theorem Approximates.abs_roundedMantissa_sub_le (h : Approximates em r) :
    |(em.roundedMantissa : ℚ) - r| ≤ 1 / 2 := by
  obtain ⟨m, roundBit, stickyBit⟩ := em
  have hle : (m : ℚ) ≤ r := h.le
  have hlt : r < (m : ℚ) + 1 := h.lt
  have hhalf : roundBit = true ↔ (m : ℚ) + 1 / 2 ≤ r := h.half
  have hleft : (roundBit || stickyBit) = true ↔ r ≠ m := h.left_over
  have hrest : stickyBit = true ↔ r ≠ m ∧ r ≠ m + 1 / 2 := h.rest
  rw [abs_le]
  cases roundBit with
  | false =>
    have hbelow : r < m + 1 / 2 := by simpa using hhalf
    have hm : ExtendedMantissa.roundedMantissa ⟨m, false, stickyBit⟩ = m := by
      cases stickyBit <;> rfl
    rw [hm]
    constructor <;> linarith
  | true =>
    have habove : (m : ℚ) + 1 / 2 ≤ r := hhalf.mp rfl
    cases stickyBit with
    | false =>
      have hmid : r = m + 1 / 2 := by
        by_contra hne
        exact Bool.false_ne_true (hrest.mpr ⟨by linarith, hne⟩)
      have hm : ExtendedMantissa.roundedMantissa ⟨m, true, false⟩ = m + m % 2 := rfl
      have hbit : ((m % 2 : ℕ) : ℚ) ≤ 1 := by
        exact_mod_cast Nat.le_of_lt_succ (Nat.mod_lt m (by decide))
      have hbit0 : (0 : ℚ) ≤ (m % 2 : ℕ) := Nat.cast_nonneg _
      rw [hm, Nat.cast_add]
      constructor <;> linarith
    | true =>
      have hm : ExtendedMantissa.roundedMantissa ⟨m, true, true⟩ = m + 1 := rfl
      rw [hm, Nat.cast_succ]
      constructor <;> linarith

/-! ### Exponents -/

/-- The multiple `n` of `2 ^ t` is nearest to the magnitude `r`, at the exponent that keeps 53
bits. -/
structure Nearest (r : ℚ) (n : Nat) (t : Int) : Prop where
  near : |n - r / 2 ^ t| ≤ 1 / 2
  lt : r / 2 ^ t < 2 ^ 53
  least : leastExponent ≤ t
  normal : 2 ^ 52 ≤ r / 2 ^ t ∨ t = leastExponent

namespace Nearest

variable {r q : ℚ} {n : Nat} {t : Int}

theorem le_add_half (h : Nearest r n t) : (n : ℚ) ≤ r / 2 ^ t + 1 / 2 := by
  have := (abs_le.mp h.near).2
  linarith

theorem sub_half_le (h : Nearest r n t) : r / 2 ^ t - 1 / 2 ≤ n := by
  have := (abs_le.mp h.near).1
  linarith

theorem le_two_pow (h : Nearest r n t) : n ≤ 2 ^ 53 := by
  have hn := h.le_add_half
  have hlt := h.lt
  have : (n : ℚ) < 2 ^ 53 + 1 := by linarith
  exact Nat.lt_succ_iff.mp (by exact_mod_cast this)

theorem mantissa_normal (h : Nearest r n t) : 2 ^ 52 ≤ n ∨ t = leastExponent := by
  refine h.normal.imp_left fun hr => ?_
  have hn := h.sub_half_le
  have : (2 : ℚ) ^ 52 < n + 1 := by linarith
  exact Nat.lt_succ_iff.mp (by exact_mod_cast this)

/-- Below the exponent of a rounded magnitude there are only smaller values. -/
theorem grid_lt (h : Nearest r n t) {k : Nat} {f : Int} (hk : k < 2 ^ 53)
    (hleast : leastExponent ≤ f) (hf : f < t) :
    (k : ℚ) * 2 ^ f < 2 ^ 52 * 2 ^ t ∧ 2 ^ 52 * 2 ^ t ≤ r := by
  have ht := two_zpow_pos t
  have hk : (k : ℚ) < 2 ^ 53 := by exact_mod_cast hk
  have hnormal := h.normal.resolve_right (by omega)
  constructor
  · calc (k : ℚ) * 2 ^ f < 2 ^ 53 * 2 ^ f := mul_lt_mul_of_pos_right hk (two_zpow_pos f)
      _ = 2 ^ 52 * 2 ^ (f + 1) := by rw [two_zpow_add_one]; ring
      _ ≤ 2 ^ 52 * 2 ^ t := mul_le_mul_of_nonneg_left (two_zpow_le hf) (by norm_num)
  · exact (le_div_iff₀ ht).mp hnormal

/-- Rounding does not pass a value above. -/
theorem le_of_le (h : Nearest r n t) (hq : OnGrid q) (hr : r ≤ q) : (n : ℚ) * 2 ^ t ≤ q := by
  obtain ⟨k, f, hk, hleast, rfl⟩ := hq
  have ht := two_zpow_pos t
  by_cases hf : t ≤ f
  · obtain ⟨j, hj⟩ := exists_mul_two_zpow_eq k hf
    rw [hj] at hr ⊢
    have hrj : r / 2 ^ t ≤ j := (div_le_iff₀ ht).mpr hr
    have hn : (n : ℚ) < j + 1 := by linarith [h.le_add_half]
    have hnj : n ≤ j := Nat.lt_succ_iff.mp (by exact_mod_cast hn)
    exact mul_le_mul_of_nonneg_right (by exact_mod_cast hnj) ht.le
  · have := h.grid_lt hk hleast (by omega)
    linarith

/-- Rounding does not pass a value below. -/
theorem ge_of_ge (h : Nearest r n t) (hq : OnGrid q) (hr : q ≤ r) : q ≤ (n : ℚ) * 2 ^ t := by
  obtain ⟨k, f, hk, hleast, rfl⟩ := hq
  have ht := two_zpow_pos t
  by_cases hf : t ≤ f
  · obtain ⟨j, hj⟩ := exists_mul_two_zpow_eq k hf
    rw [hj] at hr ⊢
    have hjr : (j : ℚ) ≤ r / 2 ^ t := (le_div_iff₀ ht).mpr hr
    have hj : (j : ℚ) < n + 1 := by linarith [h.sub_half_le]
    have hjn : j ≤ n := Nat.lt_succ_iff.mp (by exact_mod_cast hj)
    exact mul_le_mul_of_nonneg_right (by exact_mod_cast hjn) ht.le
  · have hlt := h.grid_lt hk hleast (by omega)
    have hn : (2 : ℚ) ^ 52 ≤ n := by exact_mod_cast h.mantissa_normal.resolve_right (by omega)
    exact hlt.1.le.trans (mul_le_mul_of_nonneg_right hn ht.le)

/-- No other multiple is nearer. -/
theorem abs_sub_le_mul (h : Nearest r n t) (j : Nat) : |n * 2 ^ t - r| ≤ |j * 2 ^ t - r| := by
  have ht := two_zpow_pos t
  have hscale : ∀ k : Nat, |k * 2 ^ t - r| = |k - r / 2 ^ t| * 2 ^ t := fun k => by
    rw [← abs_of_pos ht, ← abs_mul, abs_of_pos ht, sub_mul, div_mul_cancel₀ _ ht.ne']
  rw [hscale, hscale]
  refine mul_le_mul_of_nonneg_right ?_ ht.le
  by_cases hj : j = n
  · rw [hj]
  · have hone : (1 : ℚ) ≤ |(j : ℚ) - n| := by
      exact_mod_cast Int.one_le_abs (sub_ne_zero.mpr (Nat.cast_injective.ne hj : (j : ℤ) ≠ n))
    have htriangle := abs_sub_le (j : ℚ) (r / 2 ^ t) n
    rw [abs_sub_comm (r / 2 ^ t)] at htriangle
    linarith [h.near]

/-- No value is nearer. -/
theorem abs_sub_le (h : Nearest r n t) (hq : OnGrid q) : |n * 2 ^ t - r| ≤ |q - r| := by
  obtain ⟨k, f, hk, hleast, rfl⟩ := hq
  by_cases hf : t ≤ f
  · obtain ⟨j, hj⟩ := exists_mul_two_zpow_eq k hf
    rw [hj]
    exact h.abs_sub_le_mul j
  · obtain ⟨hlt, hle⟩ := h.grid_lt hk hleast (by omega)
    calc |n * 2 ^ t - r| ≤ |(2 ^ 52 : ℕ) * 2 ^ t - r| := h.abs_sub_le_mul (2 ^ 52)
      _ ≤ |k * 2 ^ f - r| := by
        push_cast
        rw [abs_of_nonpos (by linarith), abs_of_nonpos (by linarith)]
        linarith

/-- Magnitudes that are more than half a step away from the bound do not reach it. -/
theorem lt_bound (h : Nearest r n t) (hr : r < bound - 2 ^ (970 : ℤ)) :
    (n : ℚ) * 2 ^ t < bound := by
  have ht := two_zpow_pos t
  rcases lt_trichotomy t 971 with hlt | rfl | hgt
  · have hn : (n : ℚ) ≤ 2 ^ (53 : ℤ) := by exact_mod_cast h.le_two_pow
    calc (n : ℚ) * 2 ^ t ≤ 2 ^ (53 : ℤ) * 2 ^ t := mul_le_mul_of_nonneg_right hn ht.le
      _ < 2 ^ (53 : ℤ) * 2 ^ (971 : ℤ) := by
        exact mul_lt_mul_of_pos_left (zpow_lt_zpow_right₀ (by norm_num) hlt) (by norm_num)
      _ = bound := (bound_eq (by norm_num)).symm
  · have hstep : (2 : ℚ) ^ (971 : ℤ) = 2 * 2 ^ (970 : ℤ) := two_zpow_add_one 970
    have hb : bound = 2 ^ 53 * 2 ^ (971 : ℤ) := bound_eq (a := 53) (by norm_num)
    have hn := h.le_add_half
    generalize (2 : ℚ) ^ (971 : ℤ) = p at ht hstep hb hn ⊢
    have hlt : r / p < 2 ^ 53 - 1 / 2 := by
      rw [div_lt_iff₀ ht]
      linarith
    rw [hb]
    exact mul_lt_mul_of_pos_right (by linarith) ht
  · have hnormal := (le_div_iff₀ ht).mp (h.normal.resolve_right (by unfold leastExponent; omega))
    refine absurd hr (not_lt.mpr ?_)
    calc bound - 2 ^ (970 : ℤ) ≤ bound := sub_le_self _ (two_zpow_pos 970).le
      _ = 2 ^ 52 * 2 ^ (972 : ℤ) := bound_eq (a := 52) (by norm_num)
      _ ≤ 2 ^ 52 * 2 ^ t := mul_le_mul_of_nonneg_left (two_zpow_le hgt) (by norm_num)
      _ ≤ r := hnormal

end Nearest

/-! ### The steps of rounding -/

theorem succ_mul_two_zpow_le (m : Nat) (e : Int) :
    ((m : ℚ) + 1) * 2 ^ e ≤ 2 ^ totalExponent m e := by
  have hm : (m : ℚ) + 1 ≤ 2 ^ (m.log2 + 1) := by exact_mod_cast Nat.succ_le_of_lt Nat.lt_log2_self
  calc ((m : ℚ) + 1) * 2 ^ e ≤ 2 ^ (m.log2 + 1) * 2 ^ e :=
      mul_le_mul_of_nonneg_right hm (two_zpow_pos e).le
    _ = 2 ^ totalExponent m e := by
      rw [totalExponent, zpow_add₀ (by norm_num)]
      norm_cast

theorem two_zpow_totalExponent_le {m : Nat} (hm : 0 < m) (e : Int) :
    2 ^ (totalExponent m e - 1) ≤ (m : ℚ) * 2 ^ e := by
  have hm : (2 : ℚ) ^ m.log2 ≤ m := by exact_mod_cast Nat.log2_self_le (Nat.ne_of_gt hm)
  calc (2 : ℚ) ^ (totalExponent m e - 1) = 2 ^ m.log2 * 2 ^ e := by
        rw [← zpow_natCast, ← zpow_add₀ (by norm_num)]
        congr 1
        unfold totalExponent
        omega
    _ ≤ m * 2 ^ e := mul_le_mul_of_nonneg_right hm (two_zpow_pos e).le

/-- The first shift leaves a mantissa that is rounded to the nearest one. -/
theorem nearest_first_shift {m : Nat} {e : Int} {acc : Accuracy}
    (happ : Approximates (.ofMantissaAndAccuracy m acc) r)
    (he : e ≤ Format.binary64.targetExponent (totalExponent m e)) :
    Nearest (r * 2 ^ e) (shiftToTargetExponent Format.binary64 m e acc).1.roundedMantissa
      (shiftToTargetExponent Format.binary64 m e acc).2 := by
  have hexp := (@shiftToTargetExponent_eq m e acc).1
  have hle := happ.le
  have hlt := happ.lt
  rw [mantissa_ofMantissaAndAccuracy] at hle hlt
  rw [max_eq_right he] at hexp
  have htarget : Format.binary64.targetExponent (totalExponent m e) =
      max (totalExponent m e - 53) leastExponent := rfl
  rw [hexp]
  generalize ht : Format.binary64.targetExponent (totalExponent m e) = t at he htarget ⊢
  have hpos := two_zpow_pos t
  refine ⟨?_, ?_, by omega, ?_⟩
  · have hshift := happ.shiftRight (t - e).toNat
    have hr : r / 2 ^ (t - e).toNat = r * 2 ^ e / 2 ^ t := by
      obtain ⟨k, hk⟩ := Int.exists_add_of_le he
      rw [show (t - e).toNat = k by omega, hk, zpow_add₀ (by norm_num), zpow_natCast,
        mul_comm (2 ^ e), mul_div_mul_right _ _ (two_zpow_pos e).ne']
    rw [hr] at hshift
    simpa only [shiftToTargetExponent, shiftToExponent, ht] using hshift.abs_roundedMantissa_sub_le
  · rw [div_lt_iff₀ hpos]
    calc r * 2 ^ e < (m + 1) * 2 ^ e := mul_lt_mul_of_pos_right hlt (two_zpow_pos e)
      _ ≤ 2 ^ totalExponent m e := succ_mul_two_zpow_le m e
      _ ≤ 2 ^ ((53 : ℤ) + t) := two_zpow_le (by omega)
      _ = 2 ^ 53 * 2 ^ t := by
        rw [zpow_add₀ (by norm_num)]
        norm_cast
  · by_cases hleast : t = leastExponent
    · exact .inr hleast
    · have hm : 0 < m := by
        rw [Nat.pos_iff_ne_zero]
        rintro rfl
        have htotal : totalExponent 0 e = 1 + e := rfl
        omega
      refine .inl ((le_div_iff₀ hpos).mpr ?_)
      calc (2 : ℚ) ^ 52 * 2 ^ t = 2 ^ ((52 : ℤ) + t) := by
            rw [zpow_add₀ (by norm_num)]
            norm_cast
        _ ≤ 2 ^ (totalExponent m e - 1) := two_zpow_le (by omega)
        _ ≤ m * 2 ^ e := two_zpow_totalExponent_le hm e
        _ ≤ r * 2 ^ e := mul_le_mul_of_nonneg_right hle (two_zpow_pos e).le

/-- The second shift only takes back a carry. -/
theorem second_shift {n : Nat} {t : Int} (hn : n ≤ 2 ^ 53) (ht : leastExponent ≤ t) :
    (n < 2 ^ 53 ∧ (shiftToTargetExponent Format.binary64 n t .exact).1.mantissa = n ∧
        (shiftToTargetExponent Format.binary64 n t .exact).2 = t) ∨
      (n = 2 ^ 53 ∧ (shiftToTargetExponent Format.binary64 n t .exact).1.mantissa = 2 ^ 52 ∧
        (shiftToTargetExponent Format.binary64 n t .exact).2 = t + 1) := by
  have hshift := @shiftToTargetExponent_eq n t .exact
  rw [targetExponent_eq, totalExponent] at hshift
  unfold leastExponent at ht
  rcases Nat.lt_or_eq_of_le hn with hlt | rfl
  · have hlog : n.log2 ≤ 52 := by
      rcases Nat.eq_zero_or_pos n with rfl | hpos
      · decide
      · exact Nat.lt_succ_iff.mp ((Nat.log2_lt (Nat.ne_of_gt hpos)).mpr hlt)
    refine .inl ⟨hlt, ?_, by omega⟩
    rw [hshift.2, show (max (↑n.log2 + 1 + t - 53) (-1074) - t).toNat = 0 by omega,
      pow_zero, Nat.div_one]
  · have hlog : (2 ^ 53).log2 = 53 := Nat.log2_two_pow
    rw [hlog] at hshift
    refine .inr ⟨rfl, ?_, by omega⟩
    rw [hshift.2, show (max (((53 : ℕ) : ℤ) + 1 + t - 53) (-1074) - t).toNat = 1 by omega]
    rfl

/-- Packing keeps a magnitude below the bound and turns the others into infinity. -/
theorem unpack_pack_of_normal {s : Sign} {m : Nat} {e : Int} (hm : 0 < m) (hlt : m < 2 ^ 53)
    (hleast : leastExponent ≤ e) (hnormal : 2 ^ 52 ≤ m ∨ e = leastExponent) :
    Proper (Float.Model.pack (.finite s m e hm)).unpack ∧
      unpackedValue (Float.Model.pack (.finite s m e hm)).unpack =
        signed s (min (m * 2 ^ e) bound) := by
  by_cases he : e ≤ greatestExponent
  · have hc : Canonical m e := ⟨hlt, hleast, he, hnormal⟩
    rw [unpack_pack_finite hc, min_eq_left hc.lt_bound.le]
    exact ⟨.finite s hm hc, rfl⟩
  · have hge : bound ≤ m * 2 ^ e := by
      unfold greatestExponent at he
      unfold leastExponent at hnormal
      have hm : (2 : ℚ) ^ 52 ≤ m := by exact_mod_cast hnormal.resolve_right (by omega)
      calc bound = 2 ^ 52 * 2 ^ (972 : ℤ) := bound_eq (a := 52) (by norm_num)
        _ ≤ 2 ^ 52 * 2 ^ e := mul_le_mul_of_nonneg_left (two_zpow_le (by omega)) (by norm_num)
        _ ≤ m * 2 ^ e := mul_le_mul_of_nonneg_right hm (two_zpow_pos e).le
    rw [unpack_pack_infinity (not_le.mp he), min_eq_right hge]
    exact ⟨.infinity s, rfl⟩

theorem unpack_pack_second_shift {s : Sign} {r : ℚ} {n : Nat} {t : Int} (hn : Nearest r n t)
    {m : Nat} {e : Int} (hm : (shiftToTargetExponent Format.binary64 n t .exact).1.mantissa = m)
    (he : (shiftToTargetExponent Format.binary64 n t .exact).2 = e) :
    let u : UnpackedFloat := if h : m = 0 then .zero s else .finite s m e (Nat.pos_of_ne_zero h)
    Proper (Float.Model.pack u).unpack ∧
      unpackedValue (Float.Model.pack u).unpack = signed s (min (n * 2 ^ t) bound) := by
  have hleast := hn.least
  rcases second_shift hn.le_two_pow hn.least with ⟨hlt, hm', he'⟩ | ⟨hcarry, hm', he'⟩
  · obtain rfl : n = m := hm'.symm.trans hm
    obtain rfl : t = e := he'.symm.trans he
    by_cases hz : n = 0
    · have hzero : min (((0 : ℕ) : ℚ) * 2 ^ t) bound = 0 := by
        rw [Nat.cast_zero, zero_mul, min_eq_left bound_pos.le]
      rw [hz, dif_pos rfl, hzero]
      cases s
      · exact ⟨.zero .negative, rfl⟩
      · exact ⟨.zero .positive, rfl⟩
    · rw [dif_neg hz]
      exact unpack_pack_of_normal _ hlt hleast hn.mantissa_normal
  · obtain rfl : 2 ^ 52 = m := hm'.symm.trans hm
    obtain rfl : t + 1 = e := he'.symm.trans he
    have hvalue : (n : ℚ) * 2 ^ t = (2 ^ 52 : ℕ) * 2 ^ (t + 1) := by
      rw [hcarry, two_zpow_add_one]
      push_cast
      ring
    rw [dif_neg (by decide), hvalue]
    exact unpack_pack_of_normal _ (by decide) (by omega) (.inl le_rfl)

theorem unpack_pack_round (s : Sign) {m : Nat} {e : Int} {acc : Accuracy}
    (happ : Approximates (.ofMantissaAndAccuracy m acc) r)
    (he : e ≤ Format.binary64.targetExponent (totalExponent m e)) :
    ∃ n t, Nearest (r * 2 ^ e) n t ∧
      Proper (Float.Model.pack (roundWithAccuracy Format.binary64 s m e acc)).unpack ∧
      unpackedValue (Float.Model.pack (roundWithAccuracy Format.binary64 s m e acc)).unpack =
        signed s (min (n * 2 ^ t) bound) := by
  have hn := nearest_first_shift happ he
  exact ⟨_, _, hn, unpack_pack_second_shift hn rfl rfl⟩

/-! ### Rounded numbers -/

/-- What a number is rounded to: it is a number, nothing is crossed on the way there, only
magnitudes near the bound become infinite, and within the bound no value is nearer. -/
structure Rounds (q : ℚ) (u : UnpackedFloat) : Prop where
  proper : Proper u
  le_of_le : ∀ a : Float, q ≤ value a → unpackedValue u ≤ value a
  ge_of_ge : ∀ a : Float, value a ≤ q → value a ≤ unpackedValue u
  abs_lt : |q| < bound - 2 ^ (970 : ℤ) → |unpackedValue u| < bound
  nearest : |q| ≤ bound → ∀ a : Float, |unpackedValue u - q| ≤ |value a - q|

/-- A magnitude that crosses no other one is rounded in the same way under either sign. -/
theorem rounds_signed {s : Sign} {r w : ℚ} {u : UnpackedFloat} (hu : Proper u)
    (hvalue : unpackedValue u = signed s w) (hr : 0 < r) (hw : 0 ≤ w)
    (habove : ∀ a : Float, r ≤ |value a| → w ≤ |value a|)
    (hbelow : ∀ a : Float, |value a| ≤ r → |value a| ≤ w)
    (hlt : r < bound - 2 ^ (970 : ℤ) → w < bound)
    (hnear : r ≤ bound → ∀ q, OnGrid q → |w - r| ≤ |q - r|) : Rounds (signed s r) u := by
  cases s with
  | positive =>
    change unpackedValue u = w at hvalue
    refine ⟨hu, fun a (ha : r ≤ value a) => ?_, fun a (ha : value a ≤ r) => ?_, fun h => ?_,
      fun h a => ?_⟩ <;> rw [hvalue]
    · have habs : |value a| = value a := abs_of_pos (hr.trans_le ha)
      rw [← habs]
      exact habove a (by rwa [habs])
    · rcases le_total 0 (value a) with hsign | hsign
      · rw [← abs_of_nonneg hsign]
        exact hbelow a (by rwa [abs_of_nonneg hsign])
      · exact hsign.trans hw
    · rw [abs_of_nonneg hw]
      exact hlt ((le_abs_self r).trans_lt h)
    · have hle := abs_abs_sub_abs_le (value a) r
      rw [abs_of_pos hr] at hle
      exact (hnear ((le_abs_self r).trans h) _ (onGrid_abs_value a)).trans hle
  | negative =>
    change unpackedValue u = -w at hvalue
    refine ⟨hu, fun a (ha : -r ≤ value a) => ?_, fun a (ha : value a ≤ -r) => ?_,
      fun (h : |-r| < _) => ?_, fun (h : |-r| ≤ bound) a => ?_⟩ <;> rw [hvalue]
    · rcases le_total 0 (value a) with hsign | hsign
      · exact (neg_nonpos.mpr hw).trans hsign
      · have hle := hbelow a (by rw [abs_of_nonpos hsign]; linarith)
        rw [abs_of_nonpos hsign] at hle
        linarith
    · have habs : |value a| = -value a := abs_of_nonpos (by linarith)
      have hle := habove a (by rw [habs]; linarith)
      rw [habs] at hle
      linarith
    · rw [abs_neg, abs_of_nonneg hw]
      exact hlt ((le_abs_self r).trans_lt (by rwa [abs_neg] at h))
    · have hle := abs_abs_sub_abs_le (value a) (-r)
      rw [abs_neg, abs_of_pos hr] at h hle
      change |-w - -r| ≤ |value a - -r|
      rw [neg_sub_neg, abs_sub_comm]
      exact (hnear h _ (onGrid_abs_value a)).trans hle

/-- A mantissa that is known up to the side of the midpoint is rounded as the exact one is. -/
theorem rounds_round (s : Sign) {m : Nat} {e : Int} {acc : Accuracy}
    (happ : Approximates (.ofMantissaAndAccuracy m acc) r) (hr : 0 < r)
    (he : e ≤ Format.binary64.targetExponent (totalExponent m e)) :
    Rounds (signed s (r * 2 ^ e))
      (Float.Model.pack (roundWithAccuracy Format.binary64 s m e acc)).unpack := by
  obtain ⟨n, t, hn, hu, hvalue⟩ := unpack_pack_round s happ he
  refine rounds_signed hu hvalue (mul_pos hr (two_zpow_pos e)) ?_ ?_ ?_ ?_ ?_
  · exact le_min (mul_nonneg n.cast_nonneg (two_zpow_pos t).le) bound_pos.le
  · intro a ha
    exact (min_le_left _ _).trans (hn.le_of_le (onGrid_abs_value a) ha)
  · intro a ha
    exact le_min (hn.ge_of_ge (onGrid_abs_value a) ha) (abs_value_le a)
  · intro hlt
    exact (min_le_left _ _).trans_lt (hn.lt_bound hlt)
  · intro hle q hq
    refine le_trans ?_ (hn.abs_sub_le hq)
    rcases le_total ((n : ℚ) * 2 ^ t) bound with hbound | hbound
    · rw [min_eq_left hbound]
    · rw [min_eq_right hbound, abs_of_nonneg (sub_nonneg.mpr hle), abs_of_nonneg (by linarith)]
      exact sub_le_sub_right hbound _

end InitialValue.Binary64
