import InitialValue.Integration
import InitialValue.Proofs.Step

/-! Runs of the step loop as one recursion on the steps that are left. The loop asks
for the slope at the start before the first step asks for it again, and keeps its
rows in reverse; under a slope function that always answers the same, what it ends
with is what `record` gives. The rows of a recorded run and the way runs of
different lengths relate are read off that recursion. -/

namespace InitialValue.Integration

open Expression (EvalError)
open Scalar (isFinite)
open Sampling (Slope)

variable {α : Type} [Scalar α] {f : Slope α} {m : Method} {h : α}

/-- The step from `(x, y)`, refused unless it reaches a finite point. -/
def leave (f : Slope α) (m : Method) (h x y : α) : Except EvalError (Step α) := do
  let next ← (m.step x y h).run f
  if isFinite next.x && isFinite next.y then return next else throw (.nonFinite .stepUpdate)

/-- The rows from `(x, y)`, whose number is `step`, up to the point after `left` more steps. -/
def record (f : Slope α) (m : Method) (h : α) :
    (left step : Nat) → α → α → Except SolveError (List (Row α))
  | 0, step, x, y => do
    let slope ← (f x y).mapError (.evaluationFailed (.ofNat step))
    return [⟨.ofNat step, x, y, slope, none⟩]
  | left + 1, step, x, y => do
    let next ← (leave f m h x y).mapError (.evaluationFailed (.ofNat step))
    let rest ← record f m h left (step + 1) next.x next.y
    return ⟨.ofNat step, x, y, next.diagnostics.initialSlope, some next.diagnostics⟩ :: rest

theorem leave_eq_ok_iff {x y : α} {next : Step α} : leave f m h x y = .ok next ↔
    (m.step x y h).run f = .ok next ∧ isFinite next.x = true ∧ isFinite next.y = true := by
  unfold leave
  rw [bind_eq_ok_iff]
  constructor
  · rintro ⟨_, hs, hn⟩
    split at hn
    · next hfin =>
      cases hn
      exact ⟨hs, by simpa using hfin⟩
    · cases hn
  · rintro ⟨hs, hx, hy⟩
    exact ⟨next, hs, by simp [hx, hy, pure, Except.pure]⟩

theorem leave_of_error {x y : α} {c : EvalError} (hf : f x y = .error c) :
    leave f m h x y = .error c := by
  rw [leave, Method.run_step_of_error hf, error_bind]

/-- Without a slope at the start there is no run. -/
theorem record_of_error {x y : α} {c : EvalError} (hf : f x y = .error c) (left step : Nat) :
    record f m h left step x y = .error (.evaluationFailed (.ofNat step) c) := by
  cases left with
  | zero => rw [record, hf, mapError_error, error_bind]
  | succ left => rw [record, leave_of_error hf, mapError_error, error_bind]

/-- The slope where a step starts is its first slope. -/
theorem slope_of_leave {x y : α} {next : Step α} (hl : leave f m h x y = .ok next) :
    f x y = .ok next.diagnostics.initialSlope :=
  (Method.run_step_eq_ok_iff.mp (leave_eq_ok_iff.mp hl).1).2.initialSlope

/-! ### The loop -/

/-- The rows in their order, after the slope at the point reached. -/
def finish (f : Slope α) (step : Nat) (p : Progress α) : Except SolveError (List (Row α)) := do
  let last ← (f p.x p.y).mapError (.evaluationFailed (.ofNat step))
  return (⟨.ofNat step, p.x, p.y, last, none⟩ :: p.rows).reverse

/-- A turn of the loop leaves the point reached; the slope of the row is the step's first one. -/
theorem run_advance {first : α} {step : Nat} {p : Progress α}
    (hfirst : step = 0 → f p.x p.y = .ok first) :
    (advance m h first step p).run f =
      ((leave f m h p.x p.y).mapError (.evaluationFailed (.ofNat step))).map fun next =>
        ⟨⟨.ofNat step, p.x, p.y, next.diagnostics.initialSlope, some next.diagnostics⟩ :: p.rows,
          next.x, next.y⟩ := by
  simp only [advance, leave, Sampling.run_bind, Sampling.run_mapFailure]
  cases hs : (m.step p.x p.y h).run f with
  | error c => rfl
  | ok next =>
    have hslope := (Method.run_step_eq_ok_iff.mp hs).2.initialSlope
    by_cases hfin : (isFinite next.x && isFinite next.y) = true
    · simp only [mapError_ok, ok_bind, hfin, if_true, Sampling.run_pure, pure_eq_ok, map_ok]
      by_cases h0 : step = 0
      · obtain rfl := Except.ok.inj ((hfirst h0).symm.trans hslope)
        rw [if_pos h0]
      · rw [if_neg h0]
    · simp only [mapError_ok, ok_bind, hfin]
      rfl

/-- The loop and the last slope add to the rows left so far what `record` gives. -/
theorem run_march {first : α} {left step : Nat} {p : Progress α}
    (hfirst : step = 0 → f p.x p.y = .ok first) :
    (march m h first left step p).run f >>= finish f (step + left) =
      (record f m h left step p.x p.y).map (p.rows.reverse ++ ·) := by
  induction left generalizing step p with
  | zero =>
    simp only [march, record, finish, Sampling.run_pure, ok_bind, Nat.add_zero]
    cases f p.x p.y with
    | error c => rfl
    | ok slope => simp
  | succ left ih =>
    simp only [march, record, Sampling.run_bind, run_advance hfirst]
    cases leave f m h p.x p.y with
    | error c => rfl
    | ok next =>
      simp only [mapError_ok, map_ok, ok_bind]
      -- after the first turn the slope at the start is no longer used
      rw [Nat.add_comm left, ← Nat.add_assoc, ih (by simp)]
      cases record f m h left (step + 1) next.x next.y with
      | error e => rfl
      | ok rest => simp

/-- What the loop ends with. -/
theorem run_rows (n : Nat) (x0 y0 : α) : (rows m x0 y0 h n).run f = record f m h n 0 x0 y0 := by
  simp only [rows, boundarySlope, Sampling.run_bind, Sampling.run_mapFailure, Sampling.run_slope]
  cases hf : f x0 y0 with
  | error c => rw [record_of_error hf, mapError_error, error_bind]
  | ok first =>
    cases n with
    | zero => simp [march, record, hf]
    | succ n =>
      have hm := @run_march _ _ f m h first (n + 1) 0 ⟨[], x0, y0⟩ (fun _ => hf)
      simp only [Nat.zero_add, List.reverse_nil, List.nil_append] at hm
      refine Eq.trans ?_ (hm.trans (congrFun Except.map_id _))
      rw [mapError_ok, ok_bind]
      congr 1
      funext p
      simp [finish]

/-! ### Rows -/

theorem record_zero_eq_ok_iff {step : Nat} {x y : α} {rows : List (Row α)} :
    record f m h 0 step x y = .ok rows ↔
      ∃ slope, f x y = .ok slope ∧ [⟨.ofNat step, x, y, slope, none⟩] = rows := by
  simp [record, bind_eq_ok_iff, mapError_eq_ok_iff]

theorem record_succ_eq_ok_iff {left step : Nat} {x y : α} {rows : List (Row α)} :
    record f m h (left + 1) step x y = .ok rows ↔
      ∃ next, leave f m h x y = .ok next ∧
        ∃ rest, record f m h left (step + 1) next.x next.y = .ok rest ∧
        ⟨.ofNat step, x, y, next.diagnostics.initialSlope, some next.diagnostics⟩ ::
          rest = rows := by
  simp only [record, bind_eq_ok_iff, mapError_eq_ok_iff, pure_eq_ok, Except.ok.injEq]

/-- What the rows of a run from `(x, y)` over `left` steps are, when the first has the number
`step`. -/
structure Recorded (f : Slope α) (m : Method) (h : α) (left step : Nat) (x y : α)
    (rows : List (Row α)) :
    Prop where
  length_eq : rows.length = left + 1
  start : ∀ r : Row α, rows[0]? = some r → r.x = x ∧ r.y = y
  numbered : ∀ (i : Nat) (r : Row α), rows[i]? = some r → r.step = .ofNat (step + i)
  slope : ∀ r ∈ rows, f r.x r.y = .ok r.slope
  left_by : ∀ (i : Nat) (r next : Row α), rows[i]? = some r → rows[i + 1]? = some next →
    ∃ d, r.diagnostics = some d ∧ leave f m h r.x r.y = .ok ⟨next.x, next.y, d⟩
  last : ∀ (i : Nat) (r : Row α), rows[i]? = some r → (r.diagnostics = none ↔ i = left)

theorem recorded_of_record {left step : Nat} {x y : α} {rows : List (Row α)}
    (hr : record f m h left step x y = .ok rows) : Recorded f m h left step x y rows := by
  induction left generalizing step x y rows with
  | zero =>
    obtain ⟨slope, hf, rfl⟩ := record_zero_eq_ok_iff.mp hr
    refine ⟨rfl, ?_, ?_, by simpa using hf, ?_, ?_⟩
    · rintro r ⟨⟩
      exact ⟨rfl, rfl⟩
    · rintro (_ | i) r ⟨⟩
      rfl
    · rintro i r next hi ⟨⟩
    · rintro (_ | i) r ⟨⟩
      simp
  | succ left ih =>
    obtain ⟨next, hl, rest, hrest, rfl⟩ := record_succ_eq_ok_iff.mp hr
    have ht := ih hrest
    refine ⟨by simp [ht.length_eq], ?_, ?_, ?_, ?_, ?_⟩
    · rintro r ⟨⟩
      exact ⟨rfl, rfl⟩
    · rintro (_ | i) r hi
      · cases hi
        rfl
      · rw [ht.numbered i r hi, Nat.add_right_comm, Nat.add_assoc]
    · exact List.forall_mem_cons.mpr ⟨slope_of_leave hl, ht.slope⟩
    · rintro (_ | i) r r' hi hi'
      · cases hi
        obtain ⟨hx, hy⟩ := ht.start r' hi'
        exact ⟨_, rfl, by rw [hl, hx, hy]⟩
      · exact ht.left_by i r r' hi hi'
    · rintro (_ | i) r hi
      · cases hi
        simp
      · rw [ht.last i r hi, Nat.add_right_cancel_iff]

theorem Recorded.exists_cons {left step : Nat} {x y : α} {rows : List (Row α)}
    (hr : Recorded f m h left step x y rows) :
    ∃ slope d rest, f x y = .ok slope ∧ rows = ⟨.ofNat step, x, y, slope, d⟩ :: rest := by
  match rows, hr with
  | [], hr => exact absurd hr.length_eq (by simp)
  | ⟨number, x', y', slope, d⟩ :: rest, hr =>
    obtain ⟨rfl, rfl⟩ := hr.start _ rfl
    obtain rfl : number = .ofNat step := hr.numbered 0 _ rfl
    exact ⟨slope, d, rest, hr.slope _ List.mem_cons_self, rfl⟩

/-- The diagnostics of a row are those of the step that leaves it. -/
theorem Recorded.leave_of_diagnostics {left step : Nat} {x y : α} {rows : List (Row α)}
    (hr : Recorded f m h left step x y rows) {r : Row α} (hmem : r ∈ rows) {d : Diagnostics α}
    (hd : r.diagnostics = some d) :
    ∃ next, leave f m h r.x r.y = .ok next ∧ next.diagnostics = d := by
  obtain ⟨i, hi⟩ := List.getElem?_of_mem hmem
  have hne : i ≠ left := fun heq => by simp [(hr.last i r hi).mpr heq] at hd
  have hlt := (List.getElem?_eq_some_iff.mp hi).1
  have hlt' : i + 1 < rows.length := by rw [hr.length_eq] at hlt ⊢; omega
  obtain ⟨d', hd', hl⟩ := hr.left_by i r _ hi (List.getElem?_eq_getElem hlt')
  exact ⟨_, hl, Option.some.inj (hd'.symm.trans hd)⟩

/-- A run that starts at a finite point leaves no other. -/
theorem Recorded.isFinite {left step : Nat} {x y : α} {rows : List (Row α)}
    (hr : Recorded f m h left step x y rows) (hx : isFinite x = true) (hy : isFinite y = true)
    {r : Row α} (hmem : r ∈ rows) : isFinite r.x = true ∧ isFinite r.y = true := by
  obtain ⟨i, hi⟩ := List.getElem?_of_mem hmem
  cases i with
  | zero =>
    obtain ⟨rfl, rfl⟩ := hr.start r hi
    exact ⟨hx, hy⟩
  | succ i =>
    have hlt := (List.getElem?_eq_some_iff.mp hi).1
    have hi' := List.getElem?_eq_getElem (Nat.lt_of_succ_lt hlt)
    obtain ⟨d, -, hl⟩ := hr.left_by i _ r hi' hi
    exact (leave_eq_ok_iff.mp hl).2

/-! ### Runs of different lengths -/

variable {n k step : Nat} {x y : α} {rows : List (Row α)}

/-- A shorter run from the same start has the same rows, but no step leaves its last one. -/
theorem record_of_add (hr : record f m h (n + k) step x y = .ok rows) :
    ∃ last, rows[n]? = some last ∧
      record f m h n step x y = .ok (rows.take n ++ [{ last with diagnostics := none }]) := by
  induction n generalizing step x y rows with
  | zero =>
    obtain ⟨slope, d, rest, hf, rfl⟩ := (recorded_of_record hr).exists_cons
    exact ⟨_, rfl, record_zero_eq_ok_iff.mpr ⟨slope, hf, rfl⟩⟩
  | succ n ih =>
    rw [Nat.add_right_comm] at hr
    obtain ⟨next, hl, rest, hrest, rfl⟩ := record_succ_eq_ok_iff.mp hr
    obtain ⟨last, hlast, hn⟩ := ih hrest
    exact ⟨last, hlast, record_succ_eq_ok_iff.mpr ⟨next, hl, _, hn, rfl⟩⟩

/-- A run from one of the rows of a run has the rows from there on. -/
theorem record_drop_of_add (hr : record f m h (n + k) step x y = .ok rows) :
    ∃ r, rows[n]? = some r ∧ record f m h k (step + n) r.x r.y = .ok (rows.drop n) := by
  induction n generalizing step x y rows with
  | zero =>
    rw [Nat.zero_add] at hr
    obtain ⟨slope, d, rest, hf, rfl⟩ := (recorded_of_record hr).exists_cons
    exact ⟨_, rfl, hr⟩
  | succ n ih =>
    rw [Nat.add_right_comm] at hr
    obtain ⟨next, hl, rest, hrest, rfl⟩ := record_succ_eq_ok_iff.mp hr
    obtain ⟨r, hr', hd⟩ := ih hrest
    rw [Nat.add_right_comm] at hd
    exact ⟨r, hr', hd⟩

/-- The same row, counted from a later start. -/
def renumber (n : Nat) (r : Row α) : Row α := { r with step := r.step - .ofNat n }

/-- Where the counting of the rows begins does not matter. -/
theorem record_renumber (hr : record f m h k (step + n) x y = .ok rows) :
    record f m h k step x y = .ok (rows.map (renumber n)) := by
  induction k generalizing step x y rows with
  | zero =>
    obtain ⟨slope, hf, rfl⟩ := record_zero_eq_ok_iff.mp hr
    exact record_zero_eq_ok_iff.mpr ⟨slope, hf, by simp [renumber]⟩
  | succ k ih =>
    obtain ⟨next, hl, rest, hrest, rfl⟩ := record_succ_eq_ok_iff.mp hr
    rw [Nat.add_right_comm] at hrest
    exact record_succ_eq_ok_iff.mpr ⟨next, hl, _, ih hrest, by simp [renumber]⟩

/-- A run breaks off at one step, before which shorter runs end and at which longer ones break
off. -/
theorem record_eq_error {e : SolveError} (hr : record f m h n step x y = .error e) :
    ∃ j ≤ n, ∃ c, e = .evaluationFailed (.ofNat (step + j)) c ∧
      (∀ i < j, ∃ rows, record f m h i step x y = .ok rows) ∧
      ∀ i, j < i → record f m h i step x y = .error e := by
  induction n generalizing step x y with
  | zero =>
    cases hf : f x y with
    | ok slope => simp [record, hf] at hr
    | error c =>
      rw [record_of_error hf, Except.error.injEq] at hr
      exact ⟨0, Nat.le_refl 0, c, hr.symm, by simp,
        fun i _ => (record_of_error hf i step).trans (by rw [hr])⟩
  | succ n ih =>
    cases hl : leave f m h x y with
    | error c =>
      simp only [record, hl, mapError_error, error_bind, Except.error.injEq] at hr
      refine ⟨0, by simp, c, hr.symm, by simp, ?_⟩
      rintro (_ | i) hi
      · cases hi
      · simp only [record, hl, mapError_error, error_bind, hr]
    | ok next =>
      have hr' : record f m h n (step + 1) next.x next.y = .error e := by
        cases hrest : record f m h n (step + 1) next.x next.y with
        | ok rest => simp [record, hl, hrest] at hr
        | error e' => simpa [record, hl, hrest] using hr
      obtain ⟨j, hj, c, he, hshort, hlong⟩ := ih hr'
      refine ⟨j + 1, by omega, c, ?_, ?_, ?_⟩
      · rw [he, Nat.add_right_comm, Nat.add_assoc]
      · rintro (_ | i) hi
        · exact ⟨_, record_zero_eq_ok_iff.mpr ⟨_, slope_of_leave hl, rfl⟩⟩
        · obtain ⟨rest, hrest⟩ := hshort i (by omega)
          exact ⟨_, record_succ_eq_ok_iff.mpr ⟨next, hl, rest, hrest, rfl⟩⟩
      · rintro (_ | i) hi
        · cases hi
        · simp only [record, hl, mapError_ok, ok_bind, hlong i (by omega), error_bind]

end InitialValue.Integration
