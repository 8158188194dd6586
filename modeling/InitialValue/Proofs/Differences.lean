import InitialValue.Proofs.Binary64.Order
import InitialValue.Proofs.Comparison
import Mathlib.Data.List.Zip

/-! What a comparison says. Two trajectories of finite points are compared when they are
aligned: equally many rows, and each pair of rows with its `x` near one another. The
tolerance grows with the larger magnitude of the two, and distances are rounded alike from
either side, so alignment does not depend on which trajectory comes first. The largest
distance is kept as the rows are passed, with the `x` of the first row that reached it. -/

namespace InitialValue

/-- All points of the trajectory are finite. -/
def Trajectory.FinitePoints (t : Trajectory) : Prop :=
  ∀ r ∈ t.rows, r.x.isFinite = true ∧ r.y.isFinite = true

namespace Comparison

/-! ### The largest difference -/

variable {pairs : List (Row Float × Row Float)} {start best : Float × Float}

/-- The greater difference with its `x`, the earlier one of equals. -/
def raise (best : Float × Float) (p : Row Float × Row Float) : Float × Float :=
  if best.1 < difference p.1 p.2 then (difference p.1 p.2, p.1.x) else best

theorem peak_cons (p : Row Float × Row Float) :
    peak start (p :: pairs) = peak (raise start p) pairs := rfl

/-- The differences never exceed the start, or the first of the greatest ones is kept with its
`x`. -/
inductive Peaks (start : Float × Float) (pairs : List (Row Float × Row Float)) :
    Float × Float → Prop
  | stays : (∀ p ∈ pairs, difference p.1 p.2 ≤ start.1) → Peaks start pairs start
  | rises {before after : List (Row Float × Row Float)} {p : Row Float × Row Float} :
      pairs = before ++ p :: after → start.1 < difference p.1 p.2 →
      (∀ q ∈ before, difference q.1 q.2 < difference p.1 p.2) →
      (∀ q ∈ after, difference q.1 q.2 ≤ difference p.1 p.2) →
        Peaks start pairs (difference p.1 p.2, p.1.x)

/-- What holds from behind the first pair holds with it in front. -/
theorem Peaks.cons {p : Row Float × Row Float} (hstart : start.1.isNaN = false)
    (hp : (difference p.1 p.2).isNaN = false) (h : Peaks (raise start p) pairs best) :
    Peaks start (p :: pairs) best := by
  by_cases hlt : start.1 < difference p.1 p.2
  · -- The first pair is the start for the others: it is the first of the greatest ones unless one
    -- of them rises.
    rw [raise, if_pos hlt] at h
    cases h with
    | stays hle => exact .rises (show p :: pairs = [] ++ p :: pairs from rfl) hlt (by simp) hle
    | @rises before after q hpairs hq hbefore hafter =>
      have hsplit : p :: pairs = (p :: before) ++ q :: after := by rw [hpairs, List.cons_append]
      have hstart := Binary64.lt_of_le_of_lt (Binary64.le_of_lt hlt) hq
      exact .rises hsplit hstart (List.forall_mem_cons.mpr ⟨hq, hbefore⟩) hafter
  · rw [raise, if_neg hlt] at h
    have hle := Binary64.le_of_not_lt hp hstart hlt
    cases h with
    | stays hall => exact .stays (List.forall_mem_cons.mpr ⟨hle, hall⟩)
    | @rises before after q hpairs hq hbefore hafter =>
      have hsplit : p :: pairs = (p :: before) ++ q :: after := by rw [hpairs, List.cons_append]
      have hfirst := Binary64.lt_of_le_of_lt hle hq
      exact .rises hsplit hq (List.forall_mem_cons.mpr ⟨hfirst, hbefore⟩) hafter

theorem peaks_peak (hstart : start.1.isNaN = false)
    (hpairs : ∀ p ∈ pairs, (difference p.1 p.2).isNaN = false) :
    Peaks start pairs (peak start pairs) := by
  induction pairs generalizing start with
  | nil => exact .stays (by simp)
  | cons p pairs ih =>
    obtain ⟨hp, hpairs⟩ := List.forall_mem_cons.mp hpairs
    refine (ih ?_ hpairs).cons hstart hp
    unfold raise
    split_ifs
    · exact hp
    · exact hstart

theorem Peaks.le (hpairs : ∀ p ∈ pairs, (difference p.1 p.2).isNaN = false)
    (h : Peaks start pairs best) : ∀ p ∈ pairs, difference p.1 p.2 ≤ best.1 := by
  cases h with
  | stays hall => exact hall
  | @rises before after p hsplit hp hbefore hafter =>
    subst hsplit
    obtain ⟨-, hself, -⟩ := List.forall_mem_append.mp hpairs |>.imp_right List.forall_mem_cons.mp
    refine List.forall_mem_append.mpr ⟨fun q hq => Binary64.le_of_lt (hbefore q hq), ?_⟩
    exact List.forall_mem_cons.mpr ⟨Binary64.le_refl hself, hafter⟩

/-- Which difference is the largest one does not depend on where it is. -/
theorem fst_peak : (peak start pairs).1 = (pairs.map fun p => difference p.1 p.2).foldl
    (fun best d => if best < d then d else best) start.1 := by
  induction pairs generalizing start with
  | nil => rfl
  | cons p pairs ih =>
    rw [peak_cons, ih, List.map_cons, List.foldl_cons, raise, apply_ite Prod.fst]

theorem difference_comm (ra rb : Row Float) : difference rb ra = difference ra rb :=
  Binary64.abs_sub_comm ra.y rb.y

/-! ### Aligned trajectories -/

variable {a b : Trajectory}

/-- The rows at this place have their `x` near one another. -/
def NearAt (a b : Trajectory) (i : Nat) : Prop :=
  ∀ ra rb, a.rows[i]? = some ra → b.rows[i]? = some rb → Near ra.x rb.x

/-- There are equally many rows, and they are near one another at every place. -/
structure Aligned (a b : Trajectory) : Prop where
  length_eq : a.rows.length = b.rows.length
  nearAt (i : Nat) : NearAt a b i

/-- What keeps two trajectories from being aligned: their lengths, or else the first rows that are
not near. -/
inductive Faulty (a b : Trajectory) : ComparisonFault → Prop
  | lengths : a.rows.length ≠ b.rows.length → Faulty a b (.lengths a.rows.length b.rows.length)
  | grid {i : Nat} {ra rb : Row Float} : a.rows.length = b.rows.length → a.rows[i]? = some ra →
      b.rows[i]? = some rb → ¬ Near ra.x rb.x → (∀ j < i, NearAt a b j) →
        Faulty a b (.grid ra.step ra.x rb.x)

/-- What the comparison of `b` with `a` says about their rows. -/
structure Tells (c : Comparison) (a b : Trajectory) : Prop where
  methods : c.methods = (a.method, b.method)
  xs : c.xs = a.xs
  length_differences : c.differences.length = a.rows.length
  differences {i : Nat} {ra rb : Row Float} : a.rows[i]? = some ra → b.rows[i]? = some rb →
    c.differences[i]? = some (rb.y - ra.y).abs
  le_maxDifference : ∀ d ∈ c.differences, d ≤ c.maxDifference
  place : ((∀ d ∈ c.differences, d = 0.0) ∧ c.maxDifference = 0.0 ∧ c.maxDifferenceX = a.x0) ∨
    ∃ before after, c.differences = before ++ c.maxDifference :: after ∧ 0.0 < c.maxDifference ∧
      (∀ d ∈ before, d < c.maxDifference) ∧ c.xs[before.length]? = some c.maxDifferenceX

/-- What is said where nothing is wrong. -/
def ofRows (a b : Trajectory) : Comparison where
  methods := (a.method, b.method)
  xs := (a.rows.zip b.rows).map fun p => p.1.x
  differences := (a.rows.zip b.rows).map fun p => difference p.1 p.2
  maxDifference := (peak (0.0, a.x0) (a.rows.zip b.rows)).1
  maxDifferenceX := (peak (0.0, a.x0) (a.rows.zip b.rows)).2

theorem Aligned.symm (ha : a.FinitePoints) (hb : b.FinitePoints) (h : Aligned a b) :
    Aligned b a where
  length_eq := h.length_eq.symm
  nearAt i rb ra hrb hra :=
    (h.nearAt i ra rb hra hrb).symm (ha _ (List.mem_of_getElem? hra)).1
      (hb _ (List.mem_of_getElem? hrb)).1

theorem aligned_comm (ha : a.FinitePoints) (hb : b.FinitePoints) : Aligned b a ↔ Aligned a b :=
  ⟨fun h => h.symm hb ha, fun h => h.symm ha hb⟩

section Outcome

variable {c : Comparison} {fault : ComparisonFault}

theorem compare_of_length_ne (h : a.rows.length ≠ b.rows.length) :
    a.compare b = .error (.lengths a.rows.length b.rows.length) := if_pos h

theorem compare_of_find?_eq_none (hlen : a.rows.length = b.rows.length)
    (h : (a.rows.zip b.rows).find? (fun p => !sameX p.1.x p.2.x) = none) :
    a.compare b = .ok (ofRows a b) := by
  unfold Trajectory.compare
  rw [if_neg (not_not.mpr hlen)]
  simp only [h]
  rfl

theorem compare_of_find?_eq_some {p : Row Float × Row Float} (hlen : a.rows.length = b.rows.length)
    (h : (a.rows.zip b.rows).find? (fun p => !sameX p.1.x p.2.x) = some p) :
    a.compare b = .error (.grid p.1.step p.1.x p.2.x) := by
  unfold Trajectory.compare
  rw [if_neg (not_not.mpr hlen)]
  simp only [h]

theorem sameX_iff_near (ha : a.FinitePoints) (hb : b.FinitePoints) {p : Row Float × Row Float}
    (hp : p ∈ a.rows.zip b.rows) : sameX p.1.x p.2.x = true ↔ Near p.1.x p.2.x := by
  obtain ⟨hra, hrb⟩ := List.of_mem_zip hp
  exact sameX_eq_true_iff (ha _ hra).1 (hb _ hrb).1

theorem nearAt_iff {i : Nat} :
    NearAt a b i ↔ ∀ p, (a.rows.zip b.rows)[i]? = some p → Near p.1.x p.2.x := by
  simp only [NearAt, Prod.forall, List.getElem?_zip_eq_some, and_imp]

/-- No pair of rows is found that are not on one grid when all of them are near. -/
theorem find?_eq_none_iff (ha : a.FinitePoints) (hb : b.FinitePoints) :
    (a.rows.zip b.rows).find? (fun p => !sameX p.1.x p.2.x) = none ↔ ∀ i, NearAt a b i := by
  simp only [List.find?_eq_none, Bool.not_eq_true', Bool.not_eq_false, nearAt_iff]
  constructor
  · intro h i p hi
    have hp := List.mem_of_getElem? hi
    exact (sameX_iff_near ha hb hp).mp (h p hp)
  · intro h p hp
    obtain ⟨i, hi⟩ := List.mem_iff_getElem?.mp hp
    exact (sameX_iff_near ha hb hp).mpr (h i p hi)

/-- The pair that is found is the first one that is not near. -/
theorem find?_eq_some_iff (ha : a.FinitePoints) (hb : b.FinitePoints) {p : Row Float × Row Float} :
    (a.rows.zip b.rows).find? (fun p => !sameX p.1.x p.2.x) = some p ↔
      ∃ i, a.rows[i]? = some p.1 ∧ b.rows[i]? = some p.2 ∧ ¬ Near p.1.x p.2.x ∧
        ∀ j < i, NearAt a b j := by
  rw [List.find?_eq_some_iff_getElem]
  constructor
  · rintro ⟨hfar, i, hi, rfl, hbefore⟩
    obtain ⟨hra, hrb⟩ := List.getElem?_zip_eq_some.mp (List.getElem?_eq_getElem hi)
    rw [Bool.not_eq_true', ← Bool.not_eq_true, sameX_iff_near ha hb (List.getElem_mem hi)] at hfar
    refine ⟨i, hra, hrb, hfar, fun j hj => nearAt_iff.mpr fun q hq => ?_⟩
    obtain ⟨hj', rfl⟩ := List.getElem?_eq_some_iff.mp hq
    have hsame := hbefore j hj
    rwa [Bool.not_not, sameX_iff_near ha hb (List.getElem_mem hj')] at hsame
  · rintro ⟨i, hra, hrb, hfar, hbefore⟩
    obtain ⟨hi, hp⟩ := List.getElem?_eq_some_iff.mp (List.getElem?_zip_eq_some.mpr ⟨hra, hrb⟩)
    refine ⟨?_, i, hi, hp, fun j hj => ?_⟩
    · rwa [Bool.not_eq_true', ← Bool.not_eq_true, sameX_iff_near ha hb (hp ▸ List.getElem_mem hi)]
    · rw [Bool.not_not, sameX_iff_near ha hb (List.getElem_mem _)]
      exact nearAt_iff.mp (hbefore j hj) _ (List.getElem?_eq_getElem (hj.trans hi))

/-- A comparison ends with what the rows say, with their lengths, or with the first rows that are
apart. -/
theorem compare_cases (ha : a.FinitePoints) (hb : b.FinitePoints) :
    (Aligned a b ∧ a.compare b = .ok (ofRows a b)) ∨
      ¬ Aligned a b ∧ ∃ fault, Faulty a b fault ∧ a.compare b = .error fault := by
  by_cases hlen : a.rows.length = b.rows.length
  · cases hfind : (a.rows.zip b.rows).find? fun p => !sameX p.1.x p.2.x with
    | none =>
      exact .inl ⟨⟨hlen, (find?_eq_none_iff ha hb).mp hfind⟩, compare_of_find?_eq_none hlen hfind⟩
    | some p =>
      obtain ⟨i, hra, hrb, hfar, hbefore⟩ := (find?_eq_some_iff ha hb).mp hfind
      refine .inr ⟨fun hal => hfar (hal.nearAt i _ _ hra hrb), _,
        .grid hlen hra hrb hfar hbefore, ?_⟩
      exact compare_of_find?_eq_some hlen hfind
  · exact .inr ⟨fun hal => hlen hal.length_eq, _, .lengths hlen, compare_of_length_ne hlen⟩

theorem compare_eq_ok_iff (ha : a.FinitePoints) (hb : b.FinitePoints) :
    a.compare b = .ok c ↔ Aligned a b ∧ c = ofRows a b := by
  obtain ⟨hal, h⟩ | ⟨hal, fault, -, h⟩ := compare_cases ha hb
  · rw [h, Except.ok.injEq, eq_comm]
    exact (and_iff_right hal).symm
  · simp [h, hal]

theorem compare_eq_error_iff (ha : a.FinitePoints) (hb : b.FinitePoints) :
    a.compare b = .error fault ↔ Faulty a b fault := by
  constructor
  · intro hfault
    obtain ⟨-, h⟩ | ⟨-, fault', hfaulty, h⟩ := compare_cases ha hb
    · simp [h] at hfault
    · obtain rfl := Except.error.inj (h.symm.trans hfault)
      exact hfaulty
  · rintro (hlen | ⟨hlen, hra, hrb, hfar, hbefore⟩)
    · exact compare_of_length_ne hlen
    · have hfind := (find?_eq_some_iff ha hb (p := (_, _))).mpr ⟨_, hra, hrb, hfar, hbefore⟩
      exact compare_of_find?_eq_some hlen hfind

theorem isNaN_difference (ha : a.FinitePoints) (hb : b.FinitePoints) :
    ∀ p ∈ a.rows.zip b.rows, (difference p.1 p.2).isNaN = false := by
  intro p hp
  obtain ⟨hra, hrb⟩ := List.of_mem_zip hp
  exact isNaN_abs_sub (hb _ hrb).2 (ha _ hra).2

/-- A difference that is not above zero is zero. -/
theorem difference_eq_zero {ra rb : Row Float} (h : difference ra rb ≤ 0.0) :
    difference ra rb = 0.0 := by
  obtain ⟨hnum, -, hle⟩ := Binary64.le_iff_value_le.mp h
  rw [difference, Binary64.value_abs, Binary64.value_zero] at hle
  exact Binary64.abs_eq_zero ((Binary64.isNaN_abs _).symm.trans hnum) (abs_nonpos_iff.mp hle)

theorem tells_ofRows (ha : a.FinitePoints) (hb : b.FinitePoints) (hal : Aligned a b) :
    Tells (ofRows a b) a b := by
  have hlen : (a.rows.zip b.rows).length = a.rows.length := by
    rw [List.length_zip, hal.length_eq, min_self]
  have hxs : (ofRows a b).xs = a.xs := by
    change (a.rows.zip b.rows).map (Row.x ∘ Prod.fst) = a.rows.map Row.x
    rw [← List.map_map, List.map_fst_zip hal.length_eq.le]
  have hzero : (0.0 : Float).isNaN = false := rfl
  have hpeaks : Peaks (0.0, a.x0) (a.rows.zip b.rows) (peak (0.0, a.x0) (a.rows.zip b.rows)) :=
    peaks_peak hzero (isNaN_difference ha hb)
  have hle := hpeaks.le (isNaN_difference ha hb)
  refine ⟨rfl, hxs, (List.length_map _).trans hlen, fun {i ra rb} hra hrb => ?_,
    List.forall_mem_map.mpr hle, ?_⟩
  · have hp := List.getElem?_zip_eq_some (z := (ra, rb)).mpr ⟨hra, hrb⟩
    simp only [ofRows, List.getElem?_map, hp, Option.map_some, difference]
  · simp only [ofRows]
    generalize peak (0.0, a.x0) (a.rows.zip b.rows) = best at hpeaks
    cases hpeaks with
    | stays hall =>
      exact .inl ⟨List.forall_mem_map.mpr fun p hp => difference_eq_zero (hall p hp), rfl, rfl⟩
    | @rises before after p hsplit hp hbefore hafter =>
      have hmap : (a.rows.zip b.rows).map (fun q => difference q.1 q.2) =
          before.map (fun q => difference q.1 q.2) ++ difference p.1 p.2 ::
            after.map fun q => difference q.1 q.2 := by
        rw [hsplit, List.map_append, List.map_cons]
      refine .inr ⟨_, _, hmap, hp, List.forall_mem_map.mpr hbefore, ?_⟩
      rw [hsplit, List.map_append, List.map_cons, List.length_map]
      simp

/-- The order of the two trajectories does not enter the differences. -/
theorem differences_swap : (ofRows b a).differences = (ofRows a b).differences := by
  change (b.rows.zip a.rows).map (fun p => difference p.1 p.2) =
    (a.rows.zip b.rows).map fun p => difference p.1 p.2
  rw [← List.zip_swap, List.map_map]
  exact List.map_congr_left fun p _ => difference_comm p.1 p.2

theorem maxDifference_eq : (ofRows a b).maxDifference =
    (ofRows a b).differences.foldl (fun best d => if best < d then d else best) 0.0 := fst_peak

end Outcome

end Comparison

open Comparison

/-- Trajectories of finite points are compared exactly when they are aligned, and otherwise the
lengths or the first rows that are apart are named. A comparison lists the distances of `y`, the
greatest one, and the first place where it is reached. Comparing the other way round says the same,
apart from that place. -/
theorem compare_finitePoints {a b : Trajectory} (ha : a.FinitePoints) (hb : b.FinitePoints) :
    ((∃ c, a.compare b = .ok c) ↔ Aligned a b) ∧
    (∀ fault, a.compare b = .error fault ↔ Faulty a b fault) ∧
    (∀ c, a.compare b = .ok c → c.Tells a b) ∧
    ((∃ c, b.compare a = .ok c) ↔ ∃ c, a.compare b = .ok c) ∧
    ∀ c c', a.compare b = .ok c → b.compare a = .ok c' →
      c'.differences = c.differences ∧ c'.maxDifference = c.maxDifference := by
  have hok : ∀ {a b : Trajectory}, a.FinitePoints → b.FinitePoints →
      ((∃ c, a.compare b = .ok c) ↔ Aligned a b) := by
    intro a b ha hb
    simp only [compare_eq_ok_iff ha hb, exists_and_left, exists_eq, and_true]
  refine ⟨hok ha hb, fun fault => compare_eq_error_iff ha hb, fun c hc => ?_, ?_,
    fun c c' hc hc' => ?_⟩
  · obtain ⟨hal, rfl⟩ := (compare_eq_ok_iff ha hb).mp hc
    exact tells_ofRows ha hb hal
  · rw [hok hb ha, hok ha hb, aligned_comm ha hb]
  · obtain ⟨-, rfl⟩ := (compare_eq_ok_iff ha hb).mp hc
    obtain ⟨-, rfl⟩ := (compare_eq_ok_iff hb ha).mp hc'
    exact ⟨differences_swap, by rw [maxDifference_eq, maxDifference_eq, differences_swap]⟩

/-- The greatest distance is reached at the second row and at the third one, where `x` is not quite
the same. A little further off the rows are no longer near. -/
theorem compare_of_two_peaks :
    let row (step : UInt64) (x y : Float) : Row Float := ⟨step, x, y, 0.0, none⟩
    let summary := Summary.ofEnds 0.0 0.0 1.0 3.0 0.5 2
    let a : Trajectory :=
      ⟨.euler, "y", 0.0, 0.0, 0.5, 2, [row 0 0.0 0.0, row 1 0.5 1.0, row 2 1.0 3.0], summary⟩
    let b (x : Float) : Trajectory :=
      ⟨.heun, "y", 0.0, 0.0, 0.5, 2, [row 0 0.0 0.0, row 1 0.5 3.0, row 2 x 1.0], summary⟩
    let c : Comparison := ⟨(.euler, .heun), [0.0, 0.5, 1.0], [0.0, 2.0, 2.0], 2.0, 0.5⟩
    a.FinitePoints ∧ (b 1.0000000009).FinitePoints ∧ (b 1.0000000011).FinitePoints ∧
      a.compare (b 1.0000000009) = .ok c ∧ c.Tells a (b 1.0000000009) ∧
      (∃ c', (b 1.0000000009).compare a = .ok c') ∧
      Faulty a (b 1.0000000011) (.grid 2 1.0 1.0000000011) := by
  intro row summary a b c
  have hpoints : (∀ r ∈ a.rows ++ (b 1.0000000009).rows ++ (b 1.0000000011).rows,
      r.x.isFinite = true ∧ r.y.isFinite = true) ∧ a.compare (b 1.0000000009) = .ok c ∧
      a.compare (b 1.0000000011) = .error (.grid 2 1.0 1.0000000011) := by
    decide +kernel
  obtain ⟨hfinite, hok, hfault⟩ := hpoints
  obtain ⟨hab, hfar⟩ := List.forall_mem_append.mp hfinite
  obtain ⟨ha, hnear⟩ := List.forall_mem_append.mp hab
  obtain ⟨-, -, htells, hswap, -⟩ := compare_finitePoints (a := a) (b := b 1.0000000009) ha hnear
  refine ⟨ha, hnear, hfar, hok, htells c hok, hswap.mpr ⟨c, hok⟩, ?_⟩
  exact ((compare_finitePoints (a := a) (b := b 1.0000000011) ha hfar).2.1 _).mp hfault

end InitialValue
