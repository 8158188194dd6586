import InitialValue.Proofs.Finiteness
import InitialValue.Proofs.Parsing
import InitialValue.Proofs.Places
import InitialValue.Proofs.Sentences

/-! How evaluation and runs can fail. An expression that was read has no value only for
reasons that lie in the values at the point: a division by zero or a result that is not
finite. A run adds no reason of another kind to those of its slope function, so a
failure that concerns the text belongs to reading it, before the first slope. -/

namespace InitialValue

open Sampling (Slope)

namespace Expression

/-- The failures that lie in the values at a point. -/
def EvalError.OfValues (e : EvalError) : Prop :=
  e = .divisionByZero ∨ ∃ operation, e = .nonFinite operation

/-- The kinds of failures that lie in the text. -/
def ErrorKind.ofText : List ErrorKind := [.parseError, .arityError, .unsupportedConstruct]

theorem EvalError.OfValues.kind_notMem {e : EvalError} (h : e.OfValues) :
    e.kind ∉ ErrorKind.ofText := by
  obtain rfl | ⟨operation, rfl⟩ := h
  · decide
  · change ErrorKind.nonFiniteResult ∉ ErrorKind.ofText
    decide

/-! ### Trees -/

theorem EvalError.ofValues_of_checked {operation : Operation} {inputs : List Float} {value : Float}
    {e : EvalError} (h : checked operation inputs value = .error e) : e.OfValues :=
  .inr ⟨operation, checked_eq_error h⟩

theorem Operator.ofValues_of_apply {op : Operator} {a b : Float} {e : EvalError}
    (h : op.apply a b = .error e) : e.OfValues := by
  obtain hop | ⟨value, hop⟩ := op.apply_cases a b
  · rw [hop] at h
    cases h
    exact .inl rfl
  · exact EvalError.ofValues_of_checked (hop.symm.trans h)

theorem Builtin.ofValues_of_apply {f : Builtin} {args : List Float} {e : EvalError}
    (ha : f.arity.accepts args.length = true) (h : f.apply args = .error e) : e.OfValues := by
  obtain ⟨ha', -⟩ | ⟨-, hf | ⟨value, hf⟩⟩ := f.apply_cases args
  · simp [ha] at ha'
  · rw [hf] at h
    cases h
    exact .inr ⟨_, rfl⟩
  · exact EvalError.ofValues_of_checked (hf.symm.trans h)

namespace Tree

variable {x y : Float}

theorem evaluateAll_eq_error {ts : List Tree} {e : EvalError} (h : evaluateAll x y ts = .error e) :
    ∃ t ∈ ts, t.evaluate x y = .error e := by
  induction ts with
  | nil => cases h
  | cons t ts ih =>
    simp only [evaluateAll, bind_eq_error_iff, pure_eq_ok, reduceCtorEq, and_false, exists_false,
      or_false] at h
    obtain h | ⟨a, -, h⟩ := h
    · exact ⟨t, .head _, h⟩
    · obtain ⟨u, hu, h⟩ := ih h
      exact ⟨u, .tail _ hu, h⟩

/-- Where every call has as many arguments as its function accepts, only values lead to failure. -/
theorem ofValues_of_evaluate {t : Tree}
    (hc : ∀ f args, Within (.call f args) t → f.arity.accepts args.length = true) {e : EvalError}
    (h : t.evaluate x y = .error e) : e.OfValues := by
  induction t generalizing e with
  | literal v => cases h
  | symbol s => cases h
  | binary op left right ihl ihr =>
    simp only [within_binary_iff, reduceCtorEq, false_or, or_imp, forall_and] at hc
    simp only [evaluate, bind_eq_error_iff] at h
    obtain h | ⟨a, -, h | ⟨b, -, h⟩⟩ := h
    · exact ihl hc.1 h
    · exact ihr hc.2 h
    · exact Operator.ofValues_of_apply h
  | signed sign operand ih =>
    simp only [within_signed_iff, reduceCtorEq, false_or] at hc
    simp only [evaluate, bind_eq_error_iff, pure_eq_ok, reduceCtorEq, and_false, exists_false,
      or_false] at h
    exact ih hc h
  | call f args ih =>
    have ha := hc f args .refl
    have hmost : ¬ Builtin.greatestArity < args.length := by
      have := (Arity.accepts_iff.mp ha).2
      have := f.arity_most_le
      omega
    simp only [evaluate, if_neg hmost, bind_eq_error_iff] at h
    obtain h | ⟨vs, hvs, h⟩ := h
    · obtain ⟨a, hmem, h⟩ := evaluateAll_eq_error h
      exact ih a hmem (fun g bs hg => hc g bs (.child hmem hg)) h
    · exact Builtin.ofValues_of_apply (by rwa [length_of_evaluateAll hvs]) h

end Tree

/-- An expression that was read fails for reasons in the values only. -/
theorem ofValues_of_parse {source : String} {e : Expression} (he : parse source = .ok e)
    {x y : Float} {c : EvalError} (hc : e.evaluate x y = .error c) : c.OfValues := by
  obtain ⟨-, -, ts, -, hd⟩ := parse_eq_ok_iff.mp he
  obtain hroot | ⟨v, -, hv⟩ := bind_eq_error_iff.mp hc
  · exact Tree.ofValues_of_evaluate (fun f args hf => hd.accepts hf) hroot
  · split at hv
    · cases hv
    · cases hv
      exact .inr ⟨_, rfl⟩

end Expression

/-! ### Runs -/

namespace Sampling

open Expression (EvalError)

variable {α φ ψ β γ : Type}

/-- Under the slope function `f` the computation fails with nothing but what `Q` grants. -/
def FailsOnly (f : Slope α) (Q : φ → Prop) (s : Sampling α φ β) : Prop :=
  ∀ e, s.run f = .error e → Q e

variable {f : Slope α} {Q : φ → Prop} {s : Sampling α φ β}

theorem failsOnly_pure (b : β) : FailsOnly f Q (pure b) := by
  intro e h
  cases h

theorem failsOnly_fail {e : φ} (he : Q e) : FailsOnly f Q (fail e : Sampling α φ β) := by
  intro e' h
  cases h
  exact he

theorem failsOnly_slope {Q : EvalError → Prop} {x y : α} (hf : ∀ c, f x y = .error c → Q c) :
    FailsOnly f Q (slope x y) := hf

theorem FailsOnly.bind {g : β → Sampling α φ γ} (hs : FailsOnly f Q s)
    (hg : ∀ b, FailsOnly f Q (g b)) : FailsOnly f Q (s >>= g) := by
  intro e h
  rw [run_bind, bind_eq_error_iff] at h
  obtain h | ⟨b, -, h⟩ := h
  · exact hs e h
  · exact hg b e h

theorem FailsOnly.mapFailure {Q' : ψ → Prop} {g : φ → ψ} (hs : FailsOnly f Q s)
    (hg : ∀ e, Q e → Q' (g e)) : FailsOnly f Q' (s.mapFailure g) := by
  intro e h
  rw [run_mapFailure, mapError_eq_error_iff] at h
  obtain ⟨e', h, rfl⟩ := h
  exact hg e' (hs e' h)

end Sampling

section Run

open Expression (EvalError)

open Sampling (FailsOnly failsOnly_pure failsOnly_fail failsOnly_slope)

variable {α : Type} [Scalar α] {f : Slope α} {Q : EvalError → Prop} {m : Method} {h : α}

/-- A step adds to the failures of the slopes only values that are not finite. -/
theorem Method.failsOnly_step (hf : ∀ x y c, f x y = .error c → Q c)
    (hn : ∀ operation, Q (.nonFinite operation)) (x y : α) : FailsOnly f Q (m.step x y h) := by
  have hslope : ∀ x y, FailsOnly f Q (Sampling.slope x y) := fun x y => failsOnly_slope (hf x y)
  have hstage : ∀ operation (v : α), FailsOnly f Q (Step.stage operation v) := by
    intro operation v
    unfold Step.stage
    split
    · exact failsOnly_pure v
    · exact failsOnly_fail (hn operation)
  cases m with
  | euler => exact (hslope x y).bind fun k1 => failsOnly_pure _
  | heun =>
    refine (hslope x y).bind fun k1 => (hstage _ _).bind fun predictor => ?_
    exact (hslope _ _).bind fun k2 => failsOnly_pure _
  | rungeKutta =>
    refine (hslope x y).bind fun k1 => (hstage _ _).bind fun y2 => ?_
    refine (hslope _ _).bind fun k2 => (hstage _ _).bind fun y3 => ?_
    refine (hslope _ _).bind fun k3 => (hstage _ _).bind fun y4 => ?_
    exact (hslope _ _).bind fun k4 => failsOnly_pure _

/-- The cause of a failure at a step is one that `Q` grants. -/
def SolveError.CauseOf (Q : EvalError → Prop) (e : SolveError) : Prop :=
  ∀ k c, e = .evaluationFailed k c → Q c

theorem SolveError.causeOf_evaluationFailed {k : UInt64} {c : EvalError} (hc : Q c) :
    CauseOf Q (.evaluationFailed k c) := by
  rintro _ _ ⟨⟩
  exact hc

namespace Integration

open SolveError

theorem failsOnly_march (hf : ∀ x y c, f x y = .error c → Q c)
    (hn : ∀ operation, Q (.nonFinite operation)) (first : α) (left step : Nat) (p : Progress α) :
    FailsOnly f (CauseOf Q) (march m h first left step p) := by
  induction left generalizing step p with
  | zero => exact failsOnly_pure p
  | succ left ih =>
    refine FailsOnly.bind ?_ fun q => ih (step + 1) q
    refine FailsOnly.bind ((Method.failsOnly_step hf hn p.x p.y).mapFailure fun c =>
      causeOf_evaluationFailed) fun next => ?_
    split
    · exact failsOnly_pure _
    · exact failsOnly_fail (causeOf_evaluationFailed (hn _))

/-- A run adds to the failures of its slopes only values that are not finite. -/
theorem failsOnly_rows (hf : ∀ x y c, f x y = .error c → Q c)
    (hn : ∀ operation, Q (.nonFinite operation)) (x0 y0 : α) (n : Nat) :
    FailsOnly f (CauseOf Q) (rows m x0 y0 h n) := by
  have hslope : ∀ step x y, FailsOnly f (CauseOf Q) (boundarySlope step x y) := fun step x y =>
    (failsOnly_slope (hf x y)).mapFailure fun c => causeOf_evaluationFailed
  refine (hslope 0 x0 y0).bind fun first => (failsOnly_march hf hn first n 0 _).bind fun p => ?_
  split
  · exact (failsOnly_pure first).bind fun last => failsOnly_pure _
  · exact (hslope n p.x p.y).bind fun last => failsOnly_pure _

end Integration

end Run

namespace Solver

open Expression (EvalError)

theorem cause_of_integrate {s : Solver} {expression : String} {x0 y0 h : Float} {n k : UInt64}
    {m : Method} {f : Slope Float} {Q : EvalError → Prop} {c : EvalError}
    (hf : ∀ x y c, f x y = .error c → Q c) (hn : ∀ operation, Q (.nonFinite operation))
    (hc : (s.integrate expression x0 y0 h n m).run f = .error (.evaluationFailed k c)) : Q c := by
  refine Integration.failsOnly_rows (m := m) (h := h) hf hn x0 y0 n.toNat
    (.evaluationFailed k c) ?_ k c rfl
  rw [Integration.run_rows]
  exact (run_integrate_eq_failed_iff.mp hc).2

/-- A solution that fails at a step fails on reading the text, or on values in the run of the
expression that was read. -/
theorem failure_of_solve {s : Solver} {expression : String} {x0 y0 h : Float} {n k : UInt64}
    {m : Method} {c : EvalError}
    (hc : s.solve expression x0 y0 h n m = .error (.evaluationFailed k c)) :
    k = 0 ∧ (∃ e, Expression.parse expression = .error e ∧ c = .parse e) ∨ c.OfValues := by
  unfold solve at hc
  split at hc
  · cases hc
  · split at hc
    · next e he =>
      cases hc
      exact .inl ⟨rfl, e, he, rfl⟩
    · next e he =>
      split at hc
      · cases hc
      · refine .inr (cause_of_integrate (fun x y c => Expression.ofValues_of_parse he) ?_ hc)
        exact fun operation => .inr ⟨operation, rfl⟩

end Solver

namespace Expression

/-- An expression that was read has a finite value or fails for its values, and its evaluation reads
no place that is not there; so a failure of a run that concerns the text is the one to read it. -/
theorem failures_of_text (source : String) :
    (∀ e, parse source = .ok e → ∀ x y,
      ((∃ v, e.evaluate x y = .ok v ∧ v.isFinite = true) ∨ e.evaluate x y = .error .divisionByZero ∨
        ∃ operation, e.evaluate x y = .error (.nonFinite operation)) ∧
      e.root.evaluateAtPlaces x y = (e.root.evaluate x y).mapError .failed ∧
      ∀ place size, e.root.evaluateAtPlaces x y ≠ .error (.outOfRange place size)) ∧
    ∀ (s : Solver) x0 y0 h n m k c, s.solve source x0 y0 h n m = .error (.evaluationFailed k c) →
      c.kind = .parseError ∨ c.kind = .arityError ∨ c.kind = .unsupportedConstruct →
      k = 0 ∧ ∃ e, parse source = .error e ∧ c = .parse e := by
  constructor
  · intro e he x y
    have hplaces := e.root.evaluateAtPlaces_eq x y
    refine ⟨?_, hplaces, fun place size => ?_⟩
    · cases hv : e.evaluate x y with
      | ok v => exact .inl ⟨v, rfl, e.finiteSlope_evaluate hv⟩
      | error c =>
        obtain rfl | ⟨operation, rfl⟩ := ofValues_of_parse he hv
        · exact .inr (.inl rfl)
        · exact .inr (.inr ⟨operation, rfl⟩)
    · rw [hplaces]
      cases e.root.evaluate x y <;> simp
  · intro s x0 y0 h n m k c hc hkind
    refine (Solver.failure_of_solve hc).resolve_right fun hv => hv.kind_notMem ?_
    simpa [ErrorKind.ofText] using hkind

/-- The places of a power at an infinite point, and a sine of no arguments, on which a run breaks
off before its first slope. -/
theorem failures_of_text_power_sine :
    (∃ e, parse "pow(y, x)" = .ok e ∧
      ∀ place size, e.root.evaluateAtPlaces (1.0 / 0.0) 2.0 ≠ .error (.outOfRange place size)) ∧
    ∃ k c, Solver.standard.solve "sin()" 0.0 1.0 0.1 1 .euler = .error (.evaluationFailed k c) ∧
      c.kind = .arityError ∧ k = 0 ∧ ∃ e, parse "sin()" = .error e ∧ c = .parse e := by
  constructor
  · have hok : (parse "pow(y, x)").isOk = true := by decide +kernel
    obtain ⟨e, he⟩ := exists_eq_ok_of_isOk hok
    exact ⟨e, he, ((failures_of_text "pow(y, x)").1 e he _ _).2.2⟩
  · let c : EvalError := .parse (.arity .sin 0 0)
    have hc : Solver.standard.solve "sin()" 0.0 1.0 0.1 1 .euler =
        .error (.evaluationFailed 0 c) := by
      decide +kernel
    exact ⟨0, c, hc, rfl, (failures_of_text "sin()").2 _ _ _ _ _ _ _ _ hc (.inr (.inl rfl))⟩

end Expression

end InitialValue
