import InitialValue.Proofs.Evaluation

/-! Evaluation with arguments at places. The values of the arguments of a call fill
slots, as many as the greatest arity; the function is given the front slots and reads
each argument by its place. Here a place that is not there is an outcome of its own.
It is the outcome of no tree: a call with more arguments than slots is refused before
they are evaluated, and a function reads only places that its arity grants. -/

namespace InitialValue.Expression

/-- Why a computation over places has no value. -/
inductive Halt where
  | failed (e : EvalError)
  | outOfRange (place size : Nat)
  deriving DecidableEq, Repr

def argumentAt (args : List Float) (place : Nat) : Except Halt Float :=
  match args[place]? with
  | some a => .ok a
  | none => .error (.outOfRange place args.length)

def frontSlots (slots : List Float) (count : Nat) : Except Halt (List Float) :=
  if count ≤ slots.length then .ok (slots.take count) else .error (.outOfRange count slots.length)

/-- The function itself. The decimals of `round` may be left out, so that place is not read
blindly. -/
def Builtin.computeAtPlaces (f : Builtin) (args : List Float) : Except Halt (Option Float) := do
  let a ← argumentAt args 0
  match f with
  | .pow => do
    let b ← argumentAt args 1
    return some (a.pow b)
  | f => return f.compute a (args.drop 1)

def Builtin.applyAtPlaces (f : Builtin) (args : List Float) : Except Halt Float :=
  if f.arity.accepts args.length then do
    match ← f.computeAtPlaces args with
    | some value => (checked (.builtin f) args value).mapError .failed
    | none => .error (.failed (.nonFinite (.builtin f)))
  else .error (.failed (.arity f args.length))

namespace Tree

mutual

/-- The value at `(x, y)` with arguments at places. -/
def evaluateAtPlaces (x y : Float) : Tree → Except Halt Float
  | .literal v => .ok v
  | .symbol s => .ok (s.value x y)
  | .binary op left right => do
    let a ← evaluateAtPlaces x y left
    let b ← evaluateAtPlaces x y right
    (op.apply a b).mapError .failed
  | .signed sign operand => do
    let a ← evaluateAtPlaces x y operand
    return sign.apply a
  | .call f args =>
    if Builtin.greatestArity < args.length then .error (.failed (.arity f args.length))
    else do
      let slots ← fillSlots x y (List.replicate Builtin.greatestArity 0.0) args
      let values ← frontSlots slots args.length
      f.applyAtPlaces values

/-- The slots after the values of the arguments have been put into them, as far as both go. -/
def fillSlots (x y : Float) : List Float → List Tree → Except Halt (List Float)
  | _ :: slots, t :: ts => do
    let a ← evaluateAtPlaces x y t
    let rest ← fillSlots x y slots ts
    return a :: rest
  | slots, _ => .ok slots

end

end Tree

/-! ### Places that are read -/

theorem Builtin.computeAtPlaces_eq {f : Builtin} {a : Float} {more : List Float}
    (ha : f.arity.accepts (a :: more).length = true) :
    f.computeAtPlaces (a :: more) = .ok (f.compute a more) := by
  cases f with
  | pow =>
    have hlen := Arity.accepts_iff.mp ha
    match more with
    | [] => exact absurd hlen.1 (by simp [arity, Arity.exactly])
    | b :: more => rfl
  | _ => rfl

/-- The arity grants every place that a function reads. -/
theorem Builtin.applyAtPlaces_eq (f : Builtin) (args : List Float) :
    f.applyAtPlaces args = (f.apply args).mapError .failed := by
  cases ha : f.arity.accepts args.length with
  | false => simp only [applyAtPlaces, apply, ha, Bool.false_eq_true, if_false, mapError_error]
  | true =>
    cases args with
    | nil =>
      have hleast : f.arity.least ≤ 0 := (Arity.accepts_iff.mp ha).1
      have := f.one_le_arity_least
      omega
    | cons a more =>
      simp only [applyAtPlaces, apply, ha, if_true, computeAtPlaces_eq ha, ok_bind]
      cases f.compute a more <;> rfl

namespace Tree

variable {x y : Float}

theorem fillSlots_eq {ts : List Tree}
    (h : ∀ t ∈ ts, t.evaluateAtPlaces x y = (t.evaluate x y).mapError .failed) {slots : List Float}
    (hlen : ts.length ≤ slots.length) : fillSlots x y slots ts =
      ((evaluateAll x y ts).mapError .failed).map (· ++ slots.drop ts.length) := by
  induction ts generalizing slots with
  | nil => cases slots <;> rfl
  | cons t ts ih =>
    rw [List.forall_mem_cons] at h
    match slots with
    | [] => simp at hlen
    | slot :: slots =>
      have hrest := ih h.2 (Nat.le_of_succ_le_succ hlen)
      simp only [fillSlots, evaluateAll, h.1, hrest]
      cases t.evaluate x y with
      | error e => rfl
      | ok a => cases evaluateAll x y ts <;> rfl

theorem length_of_evaluateAll {ts : List Tree} {vs : List Float} (h : evaluateAll x y ts = .ok vs) :
    vs.length = ts.length := by
  induction ts generalizing vs with
  | nil =>
    cases h
    rfl
  | cons t ts ih =>
    obtain ⟨a, -, rest, hrest, rfl⟩ := evaluateAll_cons_eq_ok_iff.mp h
    rw [List.length_cons, List.length_cons, ih hrest]

/-- No place out of range is ever read: evaluation at places is evaluation, of any tree. -/
theorem evaluateAtPlaces_eq (t : Tree) (x y : Float) :
    t.evaluateAtPlaces x y = (t.evaluate x y).mapError .failed := by
  induction t with
  | literal v => rfl
  | symbol s => rfl
  | binary op left right ihl ihr =>
    simp only [evaluateAtPlaces, evaluate, ihl, ihr]
    cases left.evaluate x y with
    | error e => rfl
    | ok a => cases right.evaluate x y <;> rfl
  | signed sign operand ih =>
    simp only [evaluateAtPlaces, evaluate, ih]
    cases operand.evaluate x y <;> rfl
  | call f args ih =>
    by_cases hmost : Builtin.greatestArity < args.length
    · simp only [evaluateAtPlaces, evaluate, if_pos hmost, mapError_error]
    · have hlen : args.length ≤ (List.replicate Builtin.greatestArity (0.0 : Float)).length := by
        rw [List.length_replicate]
        omega
      simp only [evaluateAtPlaces, evaluate, if_neg hmost, fillSlots_eq ih hlen]
      cases hvs : evaluateAll x y args with
      | error e => rfl
      | ok vs =>
        have hvlen := length_of_evaluateAll hvs
        simp only [mapError_ok, map_ok, ok_bind]
        rw [frontSlots, if_pos (by simp [hvlen]), ← hvlen, List.take_left, ok_bind,
          f.applyAtPlaces_eq]

end Tree

end InitialValue.Expression
