import InitialValue.Solver

/-! What usable limits are, and which parameters a solver lets pass. -/

namespace InitialValue

/-- A check in front of others finds nothing when it does not apply and the others find nothing. -/
theorem ite_some_eq_none_iff {β : Type} {c : Prop} [Decidable c] {b : β} {o : Option β} :
    (if c then some b else o) = none ↔ ¬ c ∧ o = none := by
  by_cases hc : c <;> simp [hc]

theorem Limits.fault?_eq_none_iff {l : Limits} :
    l.fault? = none ↔
      l.maxSteps ≠ 0 ∧ l.maxSteps ≤ stepCeiling ∧
        (l.minStepSize.isFinite = true ∧ 0.0 < l.minStepSize) ∧
        l.maxStepSize.isFinite = true ∧ ¬ l.maxStepSize < l.minStepSize := by
  simp [fault?, ite_some_eq_none_iff]

theorem Limits.allowsStepSize_iff {l : Limits} {h : Float} : l.allowsStepSize h = true ↔
    h.isFinite = true ∧ l.minStepSize ≤ h.abs ∧ h.abs ≤ l.maxStepSize := by
  simp [allowsStepSize, and_assoc]

namespace Solver

variable {s : Solver} {x0 y0 h : Float} {n : UInt64}

theorem rejection?_eq_none_iff : s.rejection? x0 y0 h n = none ↔
    x0.isFinite = true ∧ y0.isFinite = true ∧ n ≤ s.limits.maxSteps ∧
      (h.isFinite = true ∧ (h == 0.0) = false) ∧ s.limits.allowsStepSize h = true := by
  simp [rejection?, ite_some_eq_none_iff]

/-- No solver takes more than a million steps. -/
theorem toNat_le_of_le_maxSteps (hn : n ≤ s.limits.maxSteps) : n.toNat ≤ 1000000 := by
  have hmax := (Limits.fault?_eq_none_iff.mp s.usable).2.1
  rw [UInt64.le_iff_toNat_le] at hn hmax
  exact Nat.le_trans hn hmax

/-- The rows of a run that passes can be counted. -/
theorem not_mostCountable_lt (hn : n ≤ s.limits.maxSteps) : ¬ mostCountable < n := by
  have hle := toNat_le_of_le_maxSteps hn
  have hm : mostCountable.toNat = 18446744073709551614 := rfl
  rw [UInt64.lt_iff_toNat_lt]
  omega

end Solver

end InitialValue
