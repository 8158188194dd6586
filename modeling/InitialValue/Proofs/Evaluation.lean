import InitialValue.Expression.Value
import InitialValue.Proofs.Binary64.Packing
import InitialValue.Proofs.Outcome
import InitialValue.Proofs.Parts

/-! What evaluation lets through. The result of an operator or a function is checked
before it is passed on, and a sign only turns a value round, so a property of numbers
that signs and checked results keep holds of every value of a tree when it holds of
its literals and symbols. Being finite and being a number are such properties. -/

namespace InitialValue.Expression

/-! ### Checked results -/

section Checked

variable {operation : Operation} {inputs : List Float} {value v : Float}

theorem isNaN_of_checked (h : checked operation inputs value = .ok v) : v.isNaN = false := by
  unfold checked at h
  split at h
  · cases h
  · next hc =>
    cases h
    simp only [Bool.or_eq_true, not_or, Bool.not_eq_true] at hc
    exact hc.1

/-- An infinite result of finite operands is refused. -/
theorem isFinite_of_checked (h : checked operation inputs value = .ok v)
    (hin : ∀ a ∈ inputs, a.isFinite = true) : v.isFinite = true := by
  have hn := isNaN_of_checked h
  have hall : inputs.all Float.isFinite = true := List.all_eq_true.mpr hin
  unfold checked at h
  split at h
  · cases h
  · next hc =>
    cases h
    simp only [hall, Bool.and_true, Bool.or_eq_true, not_or, Bool.not_eq_true] at hc
    exact Binary64.isFinite_iff.mpr hc

theorem checked_eq_error {e : EvalError} (h : checked operation inputs value = .error e) :
    e = .nonFinite operation := by
  unfold checked at h
  split at h
  · cases h
    rfl
  · cases h

end Checked

/-- An operator ends with a checked result, but for divisors too close to zero. -/
theorem Operator.apply_cases (op : Operator) (a b : Float) :
    op.apply a b = .error .divisionByZero ∨
      ∃ value, op.apply a b = checked (.operator op) [a, b] value := by
  cases op with
  | add | sub | mul | pow => exact .inr ⟨_, rfl⟩
  | div =>
    by_cases hb : b.abs < leastDivisor
    · exact .inl (if_pos hb)
    · exact .inr ⟨a / b, if_neg hb⟩

/-- A function ends with a checked result, unless it has none or refuses the number of its
arguments. -/
theorem Builtin.apply_cases (f : Builtin) (args : List Float) :
    f.arity.accepts args.length = false ∧ f.apply args = .error (.arity f args.length) ∨
      f.arity.accepts args.length = true ∧ (f.apply args = .error (.nonFinite (.builtin f)) ∨
        ∃ value, f.apply args = checked (.builtin f) args value) := by
  cases ha : f.arity.accepts args.length with
  | false => exact .inl ⟨rfl, by simp [apply, ha]⟩
  | true =>
    refine .inr ⟨rfl, ?_⟩
    match args with
    | [] =>
      have hleast : f.arity.least ≤ 0 := (Arity.accepts_iff.mp ha).1
      have := f.one_le_arity_least
      omega
    | a :: more =>
      simp only [apply, ha]
      cases f.compute a more with
      | none => exact .inl rfl
      | some value => exact .inr ⟨value, rfl⟩

/-! ### Values of trees -/

namespace Tree

variable {x y : Float}

theorem evaluateAll_cons_eq_ok_iff {t : Tree} {ts : List Tree} {vs : List Float} :
    evaluateAll x y (t :: ts) = .ok vs ↔
      ∃ a, t.evaluate x y = .ok a ∧ ∃ rest, evaluateAll x y ts = .ok rest ∧ a :: rest = vs := by
  simp only [evaluateAll, bind_eq_ok_iff, pure_eq_ok, Except.ok.injEq]

theorem exists_of_mem_evaluateAll {ts : List Tree} {vs : List Float}
    (h : evaluateAll x y ts = .ok vs) {v : Float} (hv : v ∈ vs) :
    ∃ t ∈ ts, t.evaluate x y = .ok v := by
  induction ts generalizing vs with
  | nil =>
    cases h
    cases hv
  | cons t ts ih =>
    obtain ⟨a, ha, rest, hrest, rfl⟩ := evaluateAll_cons_eq_ok_iff.mp h
    cases hv with
    | head => exact ⟨t, .head _, ha⟩
    | tail _ hv =>
      obtain ⟨u, hu, hev⟩ := ih hrest hv
      exact ⟨u, .tail _ hu, hev⟩

/-- A property of numbers that signs and checked results keep. -/
structure Kept (P : Float → Prop) : Prop where
  neg : ∀ {a}, P a → P (-a)
  checked : ∀ {operation inputs value v}, (∀ a ∈ inputs, P a) →
    checked operation inputs value = .ok v → P v

theorem kept_isFinite : Kept fun v => v.isFinite = true where
  neg h := (Binary64.isFinite_neg _).trans h
  checked hin h := isFinite_of_checked h hin

theorem kept_isNumber : Kept fun v => v.isNaN = false where
  neg h := (Binary64.isNaN_neg _).trans h
  checked _ h := isNaN_of_checked h

/-- What is kept holds of the value of a tree when it holds of the literals and symbols in it. -/
theorem Kept.evaluate {P : Float → Prop} (hP : Kept P) {t : Tree}
    (hl : ∀ v, Within (.literal v) t → P v) (hs : ∀ s, Within (.symbol s) t → P (s.value x y))
    {v : Float} (hv : t.evaluate x y = .ok v) : P v := by
  induction t generalizing v with
  | literal w =>
    cases hv
    exact hl _ .refl
  | symbol s =>
    cases hv
    exact hs _ .refl
  | binary op left right ihl ihr =>
    simp only [within_binary_iff, reduceCtorEq, false_or, or_imp, forall_and] at hl hs
    simp only [Tree.evaluate, bind_eq_ok_iff] at hv
    obtain ⟨a, ha, b, hb, hv⟩ := hv
    have hpa : P a := ihl hl.1 hs.1 ha
    have hpb : P b := ihr hl.2 hs.2 hb
    obtain hop | ⟨value, hop⟩ := op.apply_cases a b
    · simp [hop] at hv
    · exact hP.checked (by simp [hpa, hpb]) (hop.symm.trans hv)
  | signed sign operand ih =>
    simp only [within_signed_iff, reduceCtorEq, false_or] at hl hs
    simp only [Tree.evaluate, bind_eq_ok_iff, pure_eq_ok, Except.ok.injEq] at hv
    obtain ⟨a, ha, rfl⟩ := hv
    have hpa : P a := ih hl hs ha
    cases sign with
    | plus => exact hpa
    | minus => exact hP.neg hpa
  | call f args ih =>
    unfold Tree.evaluate at hv
    split at hv
    · cases hv
    · obtain ⟨vs, hvs, hv⟩ := bind_eq_ok_iff.mp hv
      have hpvs : ∀ a ∈ vs, P a := by
        intro a ha
        obtain ⟨arg, harg, hev⟩ := exists_of_mem_evaluateAll hvs ha
        exact ih arg harg (fun w hw => hl w (.child harg hw))
          (fun s hw => hs s (.child harg hw)) hev
      obtain ⟨-, hf⟩ | ⟨-, hf | ⟨value, hf⟩⟩ := f.apply_cases vs
      · simp [hf] at hv
      · simp [hf] at hv
      · exact hP.checked hpvs (hf.symm.trans hv)

end Tree

theorem Constant.isFinite_value {c : Constant} (hc : c ≠ .inf) : c.value.isFinite = true := by
  cases c with
  | pi | e => decide +kernel
  | inf => exact absurd rfl hc

theorem Constant.isNaN_value (c : Constant) : c.value.isNaN = false := by
  cases c <;> decide +kernel

theorem Symbol.isFinite_value {s : Symbol} {x y : Float} (hs : s ≠ .constant .inf)
    (hx : x.isFinite = true) (hy : y.isFinite = true) : (s.value x y).isFinite = true := by
  cases s with
  | x => exact hx
  | y => exact hy
  | constant c => exact c.isFinite_value fun hc => hs (congrArg constant hc)

theorem Symbol.isNaN_value {s : Symbol} {x y : Float} (hx : x.isNaN = false)
    (hy : y.isNaN = false) : (s.value x y).isNaN = false := by
  cases s with
  | x => exact hx
  | y => exact hy
  | constant c => exact c.isNaN_value

namespace Tree

/-- Finite literals at a finite point lead to finite values only, unless the constant `inf` occurs;
numbers, which may be infinite, lead to numbers only. Both hold of every part of a tree, also of one
that no text has. -/
theorem evaluate_parts (t : Tree) (x y : Float) :
    ((∀ v, Within (.literal v) t → v.isFinite = true) → ¬ Within (.symbol (.constant .inf)) t →
      x.isFinite = true → y.isFinite = true →
      ∀ s, Within s t → ∀ v, s.evaluate x y = .ok v → v.isFinite = true) ∧
    ((∀ v, Within (.literal v) t → v.isNaN = false) → x.isNaN = false → y.isNaN = false →
      ∀ s, Within s t → ∀ v, s.evaluate x y = .ok v → v.isNaN = false) := by
  constructor
  · intro hl hinf hx hy s hs v hv
    refine kept_isFinite.evaluate (fun w hw => hl w (hw.trans hs)) (fun c hc => ?_) hv
    refine Symbol.isFinite_value ?_ hx hy
    rintro rfl
    exact hinf (hc.trans hs)
  · intro hl hx hy s hs v hv
    exact kept_isNumber.evaluate (fun w hw => hl w (hw.trans hs))
      (fun c _ => Symbol.isNaN_value hx hy) hv

/-- A quotient rounded to two places: finite at a finite point, and a number at an infinite one. -/
theorem evaluate_parts_rounded_quotient :
    let t : Tree := .call .round [.binary .div (.symbol .y) (.symbol .x), .literal 2.0]
    (∃ v, t.evaluate 3.0 1.0 = .ok v ∧ v.isFinite = true) ∧
      ∃ v, t.evaluate Binary64.infinity 1.0 = .ok v ∧ v.isNaN = false := by
  intro t
  obtain ⟨v, hv⟩ := exists_eq_ok_of_isOk (show (t.evaluate 3.0 1.0).isOk = true by decide +kernel)
  obtain ⟨w, hw⟩ := exists_eq_ok_of_isOk
    (show (t.evaluate Binary64.infinity 1.0).isOk = true by decide +kernel)
  have hl : ∀ v, Within (.literal v) t → v = 2.0 := by simp [t]
  have hinf : ¬ Within (.symbol (.constant .inf)) t := by simp [t]
  refine ⟨⟨v, hv, ?_⟩, w, hw, ?_⟩
  · refine (evaluate_parts t 3.0 1.0).1 (fun v hv => ?_) hinf rfl rfl t .refl v hv
    rw [hl v hv]
    rfl
  · refine (evaluate_parts t Binary64.infinity 1.0).2 (fun v hv => ?_) rfl rfl t .refl w hw
    rw [hl v hv]
    rfl

end Tree

end InitialValue.Expression
