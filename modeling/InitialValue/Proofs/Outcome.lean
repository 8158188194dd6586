/-! Computations that may fail: how results pass through, and when one ends well. -/

namespace InitialValue

variable {ε φ α β : Type}

@[simp] theorem ok_bind (a : α) (g : α → Except ε β) : (Except.ok a >>= g) = g a := rfl

@[simp] theorem error_bind (e : ε) (g : α → Except ε β) : (Except.error e >>= g) = .error e := rfl

@[simp] theorem pure_eq_ok (a : α) : (pure a : Except ε α) = .ok a := rfl

@[simp] theorem map_ok (g : α → β) (a : α) : (Except.ok a : Except ε α).map g = .ok (g a) := rfl

@[simp] theorem map_error (g : α → β) (e : ε) : (Except.error e : Except ε α).map g = .error e :=
  rfl

@[simp] theorem mapError_ok (g : ε → φ) (a : α) : (Except.ok a : Except ε α).mapError g = .ok a :=
  rfl

@[simp] theorem mapError_error (g : ε → φ) (e : ε) :
    (Except.error e : Except ε α).mapError g = .error (g e) := rfl

variable {r : Except ε α}

theorem exists_eq_ok_of_isOk (hr : r.isOk = true) : ∃ a, r = .ok a := by
  cases r with
  | error e => cases hr
  | ok a => exact ⟨a, rfl⟩

/-- A check in front of others lets a result through when it does not apply and the others do so. -/
theorem ite_error_eq_ok_iff {c : Prop} [Decidable c] {e : ε} {a : α} :
    (if c then .error e else r) = .ok a ↔ ¬ c ∧ r = .ok a := by
  by_cases hc : c <;> simp [hc]

theorem bind_eq_ok_iff {g : α → Except ε β} {b : β} :
    r >>= g = .ok b ↔ ∃ a, r = .ok a ∧ g a = .ok b := by
  cases r with
  | error e => simp
  | ok a => simp

theorem bind_eq_error_iff {g : α → Except ε β} {e : ε} :
    r >>= g = .error e ↔ r = .error e ∨ ∃ a, r = .ok a ∧ g a = .error e := by
  cases r with
  | error e' => simp
  | ok a => simp

theorem map_eq_ok_iff {g : α → β} {b : β} : r.map g = .ok b ↔ ∃ a, r = .ok a ∧ g a = b := by
  cases r with
  | error e => simp
  | ok a => simp

theorem map_eq_error_iff {g : α → β} {e : ε} : r.map g = .error e ↔ r = .error e := by
  cases r with
  | error e => simp
  | ok a => simp

theorem mapError_eq_ok_iff {g : ε → φ} {a : α} : r.mapError g = .ok a ↔ r = .ok a := by
  cases r with
  | error e => simp
  | ok a => simp

theorem mapError_eq_error_iff {g : ε → φ} {e : φ} :
    r.mapError g = .error e ↔ ∃ e', r = .error e' ∧ g e' = e := by
  cases r with
  | error e' => simp
  | ok a => simp

end InitialValue
