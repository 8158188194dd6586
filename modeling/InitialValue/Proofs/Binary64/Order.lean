import InitialValue.Proofs.Binary64.Value

/-! The order with the value that is not a number in it. That one is below nothing and
above nothing, so a bound that holds is one between numbers and bounds can be chained
without asking. The smaller and the larger of two values pass it over: they bound each
argument that is a number. -/

namespace InitialValue.Binary64

open Float.Model (UnpackedFloat)
open Float.Model.UnpackedFloat

variable {a b c : Float}

theorem unpack_of_isNaN (ha : a.isNaN = true) : a.toModel.unpack = .notANumber := by
  change a.toModel.unpack.isNaN = true at ha
  cases hu : a.toModel.unpack with
  | notANumber => rfl
  | infinity s | zero s | finite s m e hm =>
    rw [hu] at ha
    cases ha

/-- Only numbers are compared. -/
theorem isNaN_of_compare {o : Ordering} (h : a.toModel.unpack.compare b.toModel.unpack = some o) :
    a.isNaN = false ∧ b.isNaN = false := by
  constructor
  · refine Bool.eq_false_iff.mpr fun ha => ?_
    rw [unpack_of_isNaN ha] at h
    cases h
  · refine Bool.eq_false_iff.mpr fun hb => ?_
    rw [unpack_of_isNaN hb] at h
    cases hu : a.toModel.unpack with
    | notANumber | zero s | infinity s | finite s m e hm =>
      rw [hu] at h
      cases h

theorem isNaN_of_le (h : a ≤ b) : a.isNaN = false ∧ b.isNaN = false := by
  have hle : a.toModel.unpack.le b.toModel.unpack = true := decide_eq_true_iff.mp h
  cases ho : a.toModel.unpack.compare b.toModel.unpack with
  | none => simp [UnpackedFloat.le, ho] at hle
  | some o => exact isNaN_of_compare ho

theorem isNaN_of_lt (h : a < b) : a.isNaN = false ∧ b.isNaN = false := by
  have hlt : a.toModel.unpack.lt b.toModel.unpack = true := decide_eq_true_iff.mp h
  exact isNaN_of_compare (beq_iff_eq.mp hlt)

theorem le_iff_value_le : a ≤ b ↔ a.isNaN = false ∧ b.isNaN = false ∧ value a ≤ value b := by
  constructor
  · intro h
    obtain ⟨ha, hb⟩ := isNaN_of_le h
    exact ⟨ha, hb, (le_iff ha hb).mp h⟩
  · rintro ⟨ha, hb, h⟩
    exact (le_iff ha hb).mpr h

protected theorem le_trans (hab : a ≤ b) (hbc : b ≤ c) : a ≤ c := by
  rw [le_iff_value_le] at hab hbc ⊢
  exact ⟨hab.1, hbc.2.1, hab.2.2.trans hbc.2.2⟩

protected theorem le_refl (ha : a.isNaN = false) : a ≤ a :=
  (le_iff ha ha).mpr le_rfl

theorem le_of_lt (h : a < b) : a ≤ b := by
  obtain ⟨ha, hb⟩ := isNaN_of_lt h
  exact (le_iff ha hb).mpr ((lt_iff ha hb).mp h).le

protected theorem lt_of_le_of_lt (hab : a ≤ b) (hbc : b < c) : a < c := by
  obtain ⟨ha, hb⟩ := isNaN_of_le hab
  obtain ⟨-, hc⟩ := isNaN_of_lt hbc
  rw [le_iff ha hb] at hab
  rw [lt_iff hb hc] at hbc
  rw [lt_iff ha hc]
  exact hab.trans_lt hbc

theorem le_of_not_lt (ha : a.isNaN = false) (hb : b.isNaN = false) (h : ¬ b < a) : a ≤ b := by
  rw [lt_iff hb ha, not_lt] at h
  exact (le_iff ha hb).mpr h

/-! ### The smaller and the larger of two values -/

theorem smaller_le_left (ha : a.isNaN = false) : smaller a b ≤ a := by
  unfold smaller
  rw [if_neg (Bool.eq_false_iff.mp ha)]
  split_ifs with h
  · exact le_of_lt h
  · exact Binary64.le_refl ha

theorem smaller_le_right (hb : b.isNaN = false) : smaller a b ≤ b := by
  unfold smaller
  split_ifs with ha h
  · exact Binary64.le_refl hb
  · exact Binary64.le_refl hb
  · exact le_of_not_lt (Bool.eq_false_iff.mpr ha) hb h

theorem le_larger_left (ha : a.isNaN = false) : a ≤ larger a b := by
  unfold larger
  rw [if_neg (Bool.eq_false_iff.mp ha)]
  split_ifs with h
  · exact le_of_lt h
  · exact Binary64.le_refl ha

theorem le_larger_right (hb : b.isNaN = false) : b ≤ larger a b := by
  unfold larger
  split_ifs with ha h
  · exact Binary64.le_refl hb
  · exact Binary64.le_refl hb
  · exact le_of_not_lt hb (Bool.eq_false_iff.mpr ha) h

/-- The larger value is bounded by what bounds the first one and, if it is a number, the second. -/
theorem larger_le_iff (ha : a.isNaN = false) :
    larger a b ≤ c ↔ a ≤ c ∧ (b.isNaN = false → b ≤ c) := by
  constructor
  · intro h
    exact ⟨Binary64.le_trans (le_larger_left ha) h,
      fun hb => Binary64.le_trans (le_larger_right hb) h⟩
  · rintro ⟨hac, hbc⟩
    unfold larger
    rw [if_neg (Bool.eq_false_iff.mp ha)]
    split_ifs with h
    · exact hbc (isNaN_of_lt h).2
    · exact hac

/-- The smaller value bounds what the first one and, if it is a number, the second one bounds. -/
theorem le_smaller_iff (ha : a.isNaN = false) :
    c ≤ smaller a b ↔ c ≤ a ∧ (b.isNaN = false → c ≤ b) := by
  constructor
  · intro h
    exact ⟨Binary64.le_trans h (smaller_le_left ha),
      fun hb => Binary64.le_trans h (smaller_le_right hb)⟩
  · rintro ⟨hca, hcb⟩
    unfold smaller
    rw [if_neg (Bool.eq_false_iff.mp ha)]
    split_ifs with h
    · exact hcb (isNaN_of_lt h).1
    · exact hca

end InitialValue.Binary64
