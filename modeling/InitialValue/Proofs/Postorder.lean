import InitialValue.Proofs.Places
import Mathlib.Control.Monad.Basic

/-! Which failure of a tree is its failure. Evaluation comes to the parts of a tree from
left to right, to each after its operands, but to a call with more arguments than any
function takes before them. A part fails by itself when its operands have values and
its operation has none there. The first part that does so decides: its failure is that
of the whole tree, and a tree without such a part has a value, as have all its parts. -/

namespace InitialValue

/-- The failure of a computation, if it fails. -/
def failureOf {ε α : Type} : Except ε α → Option ε
  | .ok _ => none
  | .error e => some e

@[simp] theorem failureOf_ok {ε α : Type} (a : α) : failureOf (.ok a : Except ε α) = none := rfl

@[simp] theorem failureOf_error {ε α : Type} (e : ε) : failureOf (.error e : Except ε α) = some e :=
  rfl

theorem failureOf_eq_some_iff {ε α : Type} {r : Except ε α} {e : ε} :
    failureOf r = some e ↔ r = .error e := by
  cases r <;> simp

theorem failureOf_eq_none_iff {ε α : Type} {r : Except ε α} :
    failureOf r = none ↔ ∃ a, r = .ok a := by
  cases r <;> simp

namespace Expression.Tree

mutual

/-- The parts in the order in which evaluation comes to them. -/
def visits : Tree → List Tree
  | .literal v => [.literal v]
  | .symbol s => [.symbol s]
  | .binary op left right => visits left ++ visits right ++ [.binary op left right]
  | .signed sign operand => visits operand ++ [.signed sign operand]
  | .call f args =>
    if Builtin.greatestArity < args.length then .call f args :: visitsAll args
    else visitsAll args ++ [.call f args]

def visitsAll : List Tree → List Tree
  | [] => []
  | t :: ts => visits t ++ visitsAll ts

end

/-- The failure of a part by itself: of its operation, once its operands have values, or of a call
for having too many arguments, whatever they are. -/
def ownFailure? (x y : Float) : Tree → Option EvalError
  | .literal _ | .symbol _ | .signed _ _ => none
  | .binary op left right =>
    match left.evaluate x y, right.evaluate x y with
    | .ok a, .ok b => failureOf (op.apply a b)
    | _, _ => none
  | .call f args =>
    if Builtin.greatestArity < args.length then some (.arity f args.length)
    else
      match evaluateAll x y args with
      | .ok values => failureOf (f.apply values)
      | .error _ => none

variable {s t : Tree} {x y : Float} {e : EvalError}

/-! ### The parts that are visited -/

theorem mem_visitsAll_iff {ts : List Tree} : s ∈ visitsAll ts ↔ ∃ t ∈ ts, s ∈ visits t := by
  induction ts with
  | nil => simp [visitsAll]
  | cons t ts ih => simp [visitsAll, ih]

/-- Every part is visited, and nothing else. -/
theorem mem_visits_iff : s ∈ visits t ↔ Within s t := by
  induction t with
  | literal v => simp [visits]
  | symbol c => simp [visits]
  | binary op left right ihl ihr =>
    rw [within_binary_iff, ← ihl, ← ihr]
    simp only [visits, List.mem_append, List.mem_singleton]
    exact or_comm
  | signed sign operand ih =>
    rw [within_signed_iff, ← ih]
    simp only [visits, List.mem_append, List.mem_singleton]
    exact or_comm
  | call f args ih =>
    have hall : s ∈ visitsAll args ↔ ∃ a ∈ args, Within s a := by
      rw [mem_visitsAll_iff]
      exact exists_congr fun a => and_congr_right (ih a)
    rw [within_call_iff, ← hall, visits]
    split
    · rw [List.mem_cons]
    · rw [List.mem_append, List.mem_singleton, or_comm]

/-! ### Arguments -/

theorem failureOf_evaluateAll_cons (t : Tree) (ts : List Tree) :
    failureOf (evaluateAll x y (t :: ts)) =
      (failureOf (t.evaluate x y)).or (failureOf (evaluateAll x y ts)) := by
  rw [evaluateAll]
  cases t.evaluate x y with
  | error e => rfl
  | ok a => cases evaluateAll x y ts <;> rfl

/-- Arguments fail like the first of them that fails. -/
theorem failureOf_evaluateAll (ts : List Tree) :
    failureOf (evaluateAll x y ts) = ts.findSome? fun t => failureOf (t.evaluate x y) := by
  induction ts with
  | nil => rfl
  | cons t ts ih =>
    rw [failureOf_evaluateAll_cons, ih, List.findSome?_cons]
    cases t.evaluate x y <;> rfl

theorem evaluateAll_eq_error_iff {ts : List Tree} : evaluateAll x y ts = .error e ↔
    ∃ (before : List Tree) (a : Tree) (after : List Tree), ts = before ++ a :: after ∧
      a.evaluate x y = .error e ∧ ∀ b ∈ before, ∃ v, b.evaluate x y = .ok v := by
  rw [← failureOf_eq_some_iff, failureOf_evaluateAll, List.findSome?_eq_some_iff]
  simp only [failureOf_eq_some_iff, failureOf_eq_none_iff]

theorem exists_evaluateAll_iff {ts : List Tree} :
    (∃ vs, evaluateAll x y ts = .ok vs) ↔ ∀ a ∈ ts, ∃ v, a.evaluate x y = .ok v := by
  rw [← failureOf_eq_none_iff, failureOf_evaluateAll, List.findSome?_eq_none_iff]
  simp only [failureOf_eq_none_iff]

/-! ### The first failure -/

theorem failureOf_evaluateAll_visits {ts : List Tree}
    (h : ∀ t ∈ ts, failureOf (t.evaluate x y) = t.visits.findSome? (ownFailure? x y)) :
    failureOf (evaluateAll x y ts) = (visitsAll ts).findSome? (ownFailure? x y) := by
  induction ts with
  | nil => rfl
  | cons t ts ih =>
    rw [List.forall_mem_cons] at h
    rw [failureOf_evaluateAll_cons, visitsAll, List.findSome?_append, h.1, ih h.2]

/-- A tree fails like the first of its parts that fails by itself. -/
theorem failureOf_evaluate (t : Tree) (x y : Float) :
    failureOf (t.evaluate x y) = t.visits.findSome? (ownFailure? x y) := by
  induction t with
  | literal v => rfl
  | symbol s => rfl
  | binary op left right ihl ihr =>
    rw [visits, List.findSome?_append, List.findSome?_append, ← ihl, ← ihr,
      List.findSome?_singleton, ownFailure?, evaluate]
    cases left.evaluate x y with
    | error e => rfl
    | ok a => cases right.evaluate x y <;> rfl
  | signed sign operand ih =>
    rw [visits, List.findSome?_append, ← ih, List.findSome?_singleton, ownFailure?, evaluate]
    cases operand.evaluate x y <;> rfl
  | call f args ih =>
    by_cases hmost : Builtin.greatestArity < args.length
    · rw [visits, if_pos hmost, List.findSome?_cons, ownFailure?, if_pos hmost, evaluate,
        if_pos hmost]
      rfl
    · rw [visits, if_neg hmost, List.findSome?_append, ← failureOf_evaluateAll_visits ih,
        List.findSome?_singleton, ownFailure?, if_neg hmost, evaluate, if_neg hmost]
      cases evaluateAll x y args <;> rfl

theorem evaluate_eq_error_iff : t.evaluate x y = .error e ↔
    ∃ (before : List Tree) (s : Tree) (after : List Tree), t.visits = before ++ s :: after ∧
      s.ownFailure? x y = some e ∧ ∀ r ∈ before, r.ownFailure? x y = none := by
  rw [← failureOf_eq_some_iff, failureOf_evaluate, List.findSome?_eq_some_iff]

theorem exists_value_iff :
    (∃ v, t.evaluate x y = .ok v) ↔ ∀ s, Within s t → s.ownFailure? x y = none := by
  rw [← failureOf_eq_none_iff, failureOf_evaluate, List.findSome?_eq_none_iff]
  simp only [mem_visits_iff]

/-- Where a tree has a value, so have its parts. -/
theorem Within.exists_value (hs : Within s t) (ht : ∃ v, t.evaluate x y = .ok v) :
    ∃ v, s.evaluate x y = .ok v :=
  exists_value_iff.mpr fun r hr => exists_value_iff.mp ht r (hr.trans hs)

/-! ### Calls and divisions -/

variable {f : Builtin} {args : List Tree}

theorem evaluate_call (hmost : ¬ Builtin.greatestArity < args.length) :
    (Tree.call f args).evaluate x y = evaluateAll x y args >>= f.apply := by
  rw [evaluate, if_neg hmost]

theorem accepts_of_evaluate {v : Float} (h : (Tree.call f args).evaluate x y = .ok v) :
    f.arity.accepts args.length = true := by
  rw [evaluate, ite_error_eq_ok_iff, bind_eq_ok_iff] at h
  obtain ⟨-, vs, hvs, hv⟩ := h
  rw [← length_of_evaluateAll hvs]
  obtain ⟨-, hf⟩ | ⟨ha, -⟩ := f.apply_cases vs
  · simp [hf] at hv
  · exact ha

theorem divisor_of_evaluate {left right : Tree} {v : Float}
    (h : (Tree.binary .div left right).evaluate x y = .ok v) :
    ∃ b, right.evaluate x y = .ok b ∧ ¬ b.abs < leastDivisor := by
  simp only [evaluate, bind_eq_ok_iff] at h
  obtain ⟨a, -, b, hb, hv⟩ := h
  exact ⟨b, hb, (ite_error_eq_ok_iff.mp hv).1⟩

/-- A call with a wrong number of arguments fails for it only once the arguments have values. -/
theorem evaluate_call_eq_error_iff (hmost : args.length ≤ Builtin.greatestArity)
    (ha : f.arity.accepts args.length = false) : (Tree.call f args).evaluate x y = .error e ↔
      (∃ (before : List Tree) (a : Tree) (after : List Tree), args = before ++ a :: after ∧
        a.evaluate x y = .error e ∧ ∀ b ∈ before, ∃ v, b.evaluate x y = .ok v) ∨
      (∀ a ∈ args, ∃ v, a.evaluate x y = .ok v) ∧ e = .arity f args.length := by
  rw [evaluate_call (Nat.not_lt.mpr hmost), bind_eq_error_iff, evaluateAll_eq_error_iff,
    ← exists_evaluateAll_iff]
  refine or_congr_right ⟨?_, ?_⟩
  · rintro ⟨vs, hvs, he⟩
    rw [← length_of_evaluateAll hvs] at ha ⊢
    simp only [Builtin.apply, ha, Except.error.injEq] at he
    exact ⟨⟨vs, hvs⟩, he.symm⟩
  · rintro ⟨⟨vs, hvs⟩, rfl⟩
    refine ⟨vs, hvs, ?_⟩
    rw [← length_of_evaluateAll hvs] at ha ⊢
    simp only [Builtin.apply, ha]

/-- Evaluation reads no place that is not there, of any tree. When it ends with a value, every part
has one, every call has as many arguments as its function accepts and no divisor counts as zero.
When it fails, it fails like the first part in the order of the visits that fails by itself. A call
with too many arguments for any function fails for that before them, another one with a wrong number
behind them. -/
theorem evaluate_fails_at_first_failing_part (t : Tree) (x y : Float) :
    (t.evaluateAtPlaces x y = (t.evaluate x y).mapError .failed ∧
      ∀ place size, t.evaluateAtPlaces x y ≠ .error (.outOfRange place size)) ∧
    (∀ v, t.evaluate x y = .ok v →
      (∀ s : Tree, Within s t → ∃ w, s.evaluate x y = .ok w) ∧
      (∀ (f : Builtin) (args : List Tree), Within (.call f args) t →
        f.arity.accepts args.length = true) ∧
      ∀ left right : Tree, Within (.binary .div left right) t →
        ∃ b : Float, right.evaluate x y = .ok b ∧ ¬ b.abs < leastDivisor) ∧
    (∀ e, t.evaluate x y = .error e ↔ ∃ (before : List Tree) (s : Tree) (after : List Tree),
      t.visits = before ++ s :: after ∧ s.ownFailure? x y = some e ∧
        ∀ r ∈ before, r.ownFailure? x y = none) ∧
    (∀ s, s ∈ t.visits ↔ Within s t) ∧
    (∀ (f : Builtin) (args : List Tree), 2 < args.length →
      (Tree.call f args).evaluate x y = .error (.arity f args.length)) ∧
    ∀ (f : Builtin) (args : List Tree) (e : EvalError), args.length ≤ 2 →
      f.arity.accepts args.length = false →
      ((Tree.call f args).evaluate x y = .error e ↔
        (∃ (before : List Tree) (a : Tree) (after : List Tree), args = before ++ a :: after ∧
          a.evaluate x y = .error e ∧ ∀ b ∈ before, ∃ v, b.evaluate x y = .ok v) ∨
        (∀ a ∈ args, ∃ v, a.evaluate x y = .ok v) ∧ e = .arity f args.length) := by
  have hplaces := t.evaluateAtPlaces_eq x y
  refine ⟨⟨hplaces, fun place size => ?_⟩,
    fun v hv => ⟨fun s hs => ?_, fun f args hs => ?_, fun left right hs => ?_⟩,
    fun e => evaluate_eq_error_iff, fun s => mem_visits_iff, fun f args hmost => ?_,
    fun f args e hmost ha => evaluate_call_eq_error_iff hmost ha⟩
  · rw [hplaces]
    cases t.evaluate x y <;> simp
  · exact hs.exists_value ⟨v, hv⟩
  · obtain ⟨w, hw⟩ := hs.exists_value ⟨v, hv⟩
    exact accepts_of_evaluate hw
  · obtain ⟨w, hw⟩ := hs.exists_value ⟨v, hv⟩
    exact divisor_of_evaluate hw
  · rw [evaluate]
    exact if_pos hmost

/-- Of a division by zero in the first operand and a sine of two arguments in the second, the
division is met first; at another point it is no failure, and the sine fails behind its
arguments. -/
theorem evaluate_quotient_and_crowded_sine :
    let quotient : Tree := .call .round [.binary .div (.symbol .y) (.symbol .x), .literal 2.0]
    let sine : Tree := .call .sin [.literal 1.0, .binary .div (.symbol .y) (.symbol .x)]
    let t : Tree := .binary .add quotient sine
    (∃ (before : List Tree) (s : Tree) (after : List Tree), t.visits = before ++ s :: after ∧
      s.ownFailure? 0.0 1.0 = some .divisionByZero ∧ ∀ r ∈ before, r.ownFailure? 0.0 1.0 = none) ∧
    sine.evaluate 4.0 1.0 = .error (.arity .sin 2) ∧
    ∃ b : Float, (Tree.symbol .x).evaluate 4.0 1.0 = .ok b ∧ ¬ b.abs < leastDivisor := by
  intro quotient sine t
  have hfails : t.evaluate 0.0 1.0 = .error .divisionByZero := by decide +kernel
  obtain ⟨v, hv⟩ := exists_eq_ok_of_isOk
    (show (quotient.evaluate 4.0 1.0).isOk = true by decide +kernel)
  obtain ⟨hvalues, -, hdivisors⟩ := (evaluate_fails_at_first_failing_part quotient 4.0 1.0).2.1 v hv
  obtain ⟨-, -, -, -, -, hbehind⟩ := evaluate_fails_at_first_failing_part sine 4.0 1.0
  refine ⟨((evaluate_fails_at_first_failing_part t 0.0 1.0).2.2.1 _).mp hfails, ?_, ?_⟩
  · refine (hbehind .sin _ _ (by decide) (by decide)).mpr (.inr ⟨?_, rfl⟩)
    simpa using ⟨⟨_, rfl⟩, hvalues (.binary .div (.symbol .y) (.symbol .x)) (by simp [quotient])⟩
  · exact hdivisors (.symbol .y) (.symbol .x) (by simp [quotient])

end Expression.Tree

end InitialValue
