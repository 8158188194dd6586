import Mathlib.Algebra.Group.Nat.Defs

/-! Which operations on binary64 values end in a finite one. A sum and a product
absorb what is not finite, so that both operands of a finite result are finite.
Dividing by a value of magnitude two or more does not overflow: the quotient stays
below half the range, where rounding adds at most one to the exponent. -/

namespace InitialValue.Binary64

open Float.Model (Format totalExponent)
open Float.Model.UnpackedFloat

/-! ### Packing -/

theorem unpack_of_isFinite {a : Float} (ha : a.isFinite = true) :
    (∃ s, a.toModel.unpack = .zero s) ∨ ∃ s m e hm, a.toModel.unpack = .finite s m e hm := by
  change a.toModel.unpack.isFinite = true at ha
  cases hu : a.toModel.unpack with
  | infinity _ | notANumber =>
    rw [hu] at ha
    cases ha
  | zero s => exact .inl ⟨s, rfl⟩
  | finite s m e hm => exact .inr ⟨s, m, e, hm, rfl⟩

theorem isFinite_unpack_iff {b : BitVec Format.binary64.numBits} :
    (unpack Format.binary64 b).isFinite = true ↔ unpackExponent b ≠ -1#_ := by
  unfold unpack
  dsimp only
  by_cases he : unpackExponent b = -1#_
  · rw [if_pos he]
    refine ⟨fun h => ?_, fun hne => absurd he hne⟩
    split at h <;> cases h
  · rw [if_neg he]
    refine ⟨fun _ => he, fun _ => ?_⟩
    by_cases h0 : unpackExponent b = 0#_
    · rw [if_pos h0]
      by_cases hz : unpackMantissa b = 0#_
      · rw [dif_pos hz]
        rfl
      · rw [dif_neg hz]
        rfl
    · rw [if_neg h0]
      rfl

/-- The greatest exponent with which 53 bits can be packed. -/
def greatestExponent : Int := 971

theorem ne_neg_one_iff {b : BitVec 11} : b ≠ -1#11 ↔ b.toNat ≤ 2046 := by
  have hlt : b.toNat < 2048 := b.isLt
  rw [ne_eq, ← BitVec.toNat_inj, show (-1#11).toNat = 2047 from rfl]
  omega

theorem isFinite_unpack_pack {s : Sign} {m : Nat} {e : Int} {hm : 0 < m}
    (he : e ≤ greatestExponent) : (Float.Model.pack (.finite s m e hm)).unpack.isFinite = true := by
  refine isFinite_unpack_iff.mpr ?_
  change unpackExponent (pack Format.binary64 (.finite s m e hm)) ≠ -1#11
  have hbias : (Format.binary64.exponentBias : Int) = 1023 := rfl
  have hb : (e + Format.binary64.exponentBias + 52).toNat ≤ 2046 := by
    unfold greatestExponent at he
    omega
  unfold pack
  rw [if_neg (by simp; omega)]
  split
  · rw [unpackExponent_packComponents]
    refine ne_neg_one_iff.mpr (Nat.le_trans ?_ hb)
    rw [BitVec.toNat_ofNat]
    exact Nat.mod_le _ _
  · rw [unpackExponent_packComponents]
    decide

theorem bounds_of_unpack {b : BitVec Format.binary64.numBits} {s : Sign} {m : Nat} {e : Int}
    {hm : 0 < m} (hu : unpack Format.binary64 b = .finite s m e hm) :
    m < 2 ^ 53 ∧ e ≤ greatestExponent := by
  have hbias : (Format.binary64.exponentBias : Int) = 1023 := rfl
  unfold greatestExponent
  unfold unpack at hu
  dsimp only at hu
  by_cases he : unpackExponent b = -1#_
  · rw [if_pos he] at hu
    by_cases hz : unpackMantissa b = 0#_
    · rw [if_pos hz] at hu
      cases hu
    · rw [if_neg hz] at hu
      cases hu
  · rw [if_neg he] at hu
    by_cases h0 : unpackExponent b = 0#_
    · rw [if_pos h0] at hu
      by_cases hz : unpackMantissa b = 0#_
      · rw [dif_pos hz] at hu
        cases hu
      · rw [dif_neg hz] at hu
        cases hu
        refine ⟨Nat.lt_trans (unpackMantissa b).isLt (by decide), ?_⟩
        rw [h0, hbias]
        decide
    · rw [if_neg h0] at hu
      cases hu
      refine ⟨(1#1 ++ unpackMantissa b).isLt, ?_⟩
      have hexp : (unpackExponent b).toNat ≤ 2046 := ne_neg_one_iff.mp he
      rw [hbias]
      omega

/-! ### Rounding -/

theorem mantissa_shiftRight (em : ExtendedMantissa) (n : Nat) :
    (em >>> n).mantissa = em.mantissa / 2 ^ n := by
  change (n.repeat ExtendedMantissa.shiftRightOne em).mantissa = _
  induction n with
  | zero => simp [Nat.repeat]
  | succ n ih =>
    rw [Nat.repeat, ExtendedMantissa.shiftRightOne, ih, Nat.div_div_eq_div_mul, Nat.pow_succ]

theorem mantissa_ofMantissaAndAccuracy (m : Nat) (acc : Accuracy) :
    (ExtendedMantissa.ofMantissaAndAccuracy m acc).mantissa = m := by
  unfold ExtendedMantissa.ofMantissaAndAccuracy
  split <;> rfl

theorem roundedMantissa_le (em : ExtendedMantissa) : em.roundedMantissa ≤ em.mantissa + 1 := by
  unfold ExtendedMantissa.roundedMantissa Accuracy.roundToNearestEven
  split <;> omega

theorem log2_le_of_le {n k : Nat} (hn : n ≤ 2 ^ k) : n.log2 ≤ k := by
  by_cases h0 : n = 0
  · simp [h0]
  · have := (Nat.log2_lt h0).mpr (Nat.lt_of_le_of_lt hn (Nat.pow_lt_pow_succ (by decide)))
    omega

theorem targetExponent_eq (t : Int) : Format.binary64.targetExponent t = max (t - 53) (-1074) := rfl

/-- The exponent after a shift, and the mantissa that is left of it. -/
theorem shiftToTargetExponent_eq {m : Nat} {e : Int} {acc : Accuracy} :
    (shiftToTargetExponent Format.binary64 m e acc).2 =
        max e (Format.binary64.targetExponent (totalExponent m e)) ∧
      (shiftToTargetExponent Format.binary64 m e acc).1.mantissa =
        m / 2 ^ (Format.binary64.targetExponent (totalExponent m e) - e).toNat := by
  refine ⟨?_, ?_⟩
  · change e + ((Format.binary64.targetExponent (totalExponent m e) - e).toNat : Int) = _
    omega
  · rw [shiftToTargetExponent, shiftToExponent, mantissa_shiftRight, mantissa_ofMantissaAndAccuracy]

/-- A shift leaves no more than 53 bits. -/
theorem mantissa_shiftToTargetExponent_lt {m : Nat} {e : Int} {acc : Accuracy} :
    (shiftToTargetExponent Format.binary64 m e acc).1.mantissa < 2 ^ 53 := by
  rw [shiftToTargetExponent_eq.2, Nat.div_lt_iff_lt_mul (Nat.two_pow_pos _), ← Nat.pow_add]
  refine Nat.lt_of_lt_of_le Nat.lt_log2_self (Nat.pow_le_pow_right (by decide) ?_)
  rw [targetExponent_eq, totalExponent]
  omega

theorem isFinite_pack_zero (s : Sign) : (Float.Model.pack (.zero s)).unpack.isFinite = true := by
  cases s <;> rfl

/-- Rounding stays finite below half of the range: a carry adds one to the exponent at most. -/
theorem isFinite_pack_roundWithAccuracy {s : Sign} {m : Nat} {e : Int} {acc : Accuracy}
    (he : e ≤ 970) (ht : totalExponent m e ≤ 1023) :
    (Float.Model.pack (roundWithAccuracy Format.binary64 s m e acc)).unpack.isFinite = true := by
  have hfirst := @shiftToTargetExponent_eq m e acc
  have hlt := @mantissa_shiftToTargetExponent_lt m e acc
  unfold roundWithAccuracy
  generalize shiftToTargetExponent Format.binary64 m e acc = first at hfirst hlt
  obtain ⟨em, e₁⟩ := first
  have he₁ : -1074 ≤ e₁ ∧ e₁ ≤ 970 := by
    have := hfirst.1
    rw [targetExponent_eq] at this
    omega
  have hlog : em.roundedMantissa.log2 ≤ 53 :=
    log2_le_of_le (Nat.le_trans (roundedMantissa_le em) hlt)
  have hsecond := @shiftToTargetExponent_eq em.roundedMantissa e₁ .exact
  dsimp only
  generalize shiftToTargetExponent Format.binary64 em.roundedMantissa e₁ .exact =
    second at hsecond ⊢
  obtain ⟨em₂, e₂⟩ := second
  by_cases hz : em₂.mantissa = 0
  · rw [dif_pos hz]
    exact isFinite_pack_zero s
  · rw [dif_neg hz]
    refine isFinite_unpack_pack ?_
    have := hsecond.1
    rw [targetExponent_eq, totalExponent] at this
    unfold greatestExponent
    omega

/-! ### Quotients -/

/-- A quotient has at most one bit more than the difference of the bits. -/
theorem log2_div_le {m n : Nat} (hn : 0 < n) (hq : 0 < m / n) : (m / n).log2 + n.log2 ≤ m.log2 := by
  have hlt : 2 ^ ((m / n).log2 + n.log2) ≤ m := calc
    2 ^ ((m / n).log2 + n.log2) = 2 ^ (m / n).log2 * 2 ^ n.log2 := Nat.pow_add ..
    _ ≤ m / n * n := Nat.mul_le_mul (Nat.log2_self_le (by omega)) (Nat.log2_self_le (by omega))
    _ ≤ m := Nat.div_mul_le_self m n
  refine (Nat.le_log2 ?_).mpr hlt
  rintro rfl
  simp at hq

theorem log2_shiftLeft {m : Nat} (hm : 0 < m) (k : Nat) : (m <<< k).log2 = m.log2 + k := by
  induction k with
  | zero => rfl
  | succ k ih =>
    have hne : m <<< k ≠ 0 := by
      rw [Nat.shiftLeft_eq]
      exact Nat.ne_of_gt (Nat.mul_pos hm (Nat.two_pow_pos k))
    rw [Nat.shiftLeft_succ, Nat.log2_two_mul hne, ih, Nat.add_assoc]

/-- Where the quotient is positive, its exponent is at most one above the difference of the
exponents. -/
theorem totalExponent_quotient_le {m₁ m₂ k : Nat} {e₁ e₂ : Int} (hm₁ : 0 < m₁) (hm₂ : 0 < m₂)
    (hq : 0 < (m₁ <<< k) / m₂) :
    totalExponent ((m₁ <<< k) / m₂) (e₁ - e₂ - k) ≤
      totalExponent m₁ e₁ - totalExponent m₂ e₂ + 1 := by
  have hlog := log2_div_le hm₂ hq
  rw [log2_shiftLeft hm₁] at hlog
  unfold totalExponent
  omega

/-- Quotients by values of a magnitude of at least two are finite. -/
theorem isFinite_div {a c : Float} {s : Sign} {m : Nat} {e : Int} {hm : 0 < m}
    (ha : a.isFinite = true) (hc : c.toModel.unpack = .finite s m e hm)
    (htwo : 2 ≤ totalExponent m e) : (a / c).isFinite = true := by
  change (Float.Model.pack
    (div Format.binary64 a.toModel.unpack c.toModel.unpack)).unpack.isFinite = true
  rw [hc]
  rcases unpack_of_isFinite ha with ⟨s₁, hu⟩ | ⟨s₁, m₁, e₁, hm₁, hu⟩ <;> rw [hu]
  · exact isFinite_pack_zero _
  · obtain ⟨hlt, he₁⟩ := bounds_of_unpack hu
    have hlog : m₁.log2 < 53 := (Nat.log2_lt (Nat.ne_of_gt hm₁)).mpr hlt
    have ht : totalExponent m₁ e₁ - totalExponent m e ≤ 1022 := by
      unfold totalExponent greatestExponent at *
      omega
    let t := min (e₁ - e) (Format.binary64.targetExponent (totalExponent m₁ e₁ - totalExponent m e))
    let k := (e₁ - e - t).toNat
    have htarget : t ≤ e₁ - e ∧ t ≤ 970 := by
      simp only [t, targetExponent_eq]
      omega
    have hk : t = e₁ - e - k := by omega
    refine @isFinite_pack_roundWithAccuracy (s₁ / s) ((m₁ <<< k) / m) t _ htarget.2 ?_
    by_cases hq : 0 < (m₁ <<< k) / m
    · rw [hk]
      have := @totalExponent_quotient_le m₁ m k e₁ e hm₁ hm hq
      omega
    · rw [Nat.eq_zero_of_not_pos hq]
      simp [totalExponent]
      omega

theorem isFinite_div_two {a : Float} (ha : a.isFinite = true) : (a / 2.0).isFinite = true :=
  @isFinite_div a 2.0 .positive (2 ^ 52) (-51) (by decide) ha rfl (by decide)

theorem isFinite_div_six {a : Float} (ha : a.isFinite = true) : (a / 6.0).isFinite = true :=
  @isFinite_div a 6.0 .positive (3 * 2 ^ 51) (-50) (by decide) ha rfl (by decide)

/-! ### Sums and products -/

theorem isFinite_of_pack {u : Float.Model.UnpackedFloat}
    (h : (Float.Model.pack u).unpack.isFinite = true) : u.isFinite = true := by
  cases u with
  | infinity s => cases s <;> cases h
  | notANumber => cases h
  | zero s => rfl
  | finite s m e hm => rfl

theorem isFinite_of_unpackedAdd {u v : Float.Model.UnpackedFloat}
    (h : (add Format.binary64 u v).isFinite = true) : u.isFinite = true ∧ v.isFinite = true := by
  cases u with
  | infinity s =>
    cases v with
    | infinity s' => cases s <;> cases s' <;> cases h
    | notANumber | zero _ | finite _ _ _ _ => cases h
  | notANumber => cases v <;> cases h
  | zero s =>
    cases v with
    | infinity _ | notANumber => cases h
    | zero _ | finite _ _ _ _ => exact ⟨rfl, rfl⟩
  | finite s m e hm =>
    cases v with
    | infinity _ | notANumber => cases h
    | zero _ | finite _ _ _ _ => exact ⟨rfl, rfl⟩

theorem isFinite_of_unpackedMul {u v : Float.Model.UnpackedFloat}
    (h : (mul Format.binary64 u v).isFinite = true) : u.isFinite = true ∧ v.isFinite = true := by
  cases u with
  | infinity s => cases v <;> cases h
  | notANumber => cases v <;> cases h
  | zero s =>
    cases v with
    | infinity _ | notANumber => cases h
    | zero _ | finite _ _ _ _ => exact ⟨rfl, rfl⟩
  | finite s m e hm =>
    cases v with
    | infinity _ | notANumber => cases h
    | zero _ | finite _ _ _ _ => exact ⟨rfl, rfl⟩

/-- Division by an infinity hides the divisor, but not the dividend. -/
theorem isFinite_of_unpackedDiv {u v : Float.Model.UnpackedFloat}
    (h : (div Format.binary64 u v).isFinite = true) : u.isFinite = true := by
  cases u with
  | infinity s => cases v <;> cases h
  | notANumber => cases v <;> cases h
  | zero _ | finite _ _ _ _ => rfl

/-- The terms of a finite sum are finite. -/
theorem isFinite_of_add {a b : Float} (h : (a + b).isFinite = true) :
    a.isFinite = true ∧ b.isFinite = true :=
  isFinite_of_unpackedAdd (isFinite_of_pack h)

/-- The factors of a finite product are finite, also next to a factor of zero. -/
theorem isFinite_of_mul {a b : Float} (h : (a * b).isFinite = true) :
    a.isFinite = true ∧ b.isFinite = true :=
  isFinite_of_unpackedMul (isFinite_of_pack h)

/-- The dividend of a finite quotient is finite. -/
theorem isFinite_of_div {a b : Float} (h : (a / b).isFinite = true) : a.isFinite = true :=
  isFinite_of_unpackedDiv (isFinite_of_pack h)

end InitialValue.Binary64
