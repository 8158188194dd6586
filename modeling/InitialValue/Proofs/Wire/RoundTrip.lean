import InitialValue.Proofs.Finiteness
import InitialValue.Proofs.Wire.Value
import InitialValue.Wire.Trajectory

/-! What is written is read back. A trajectory, a request, limits or steps come back just
when their numbers are finite. Whatever is read from a value with finite numbers has
finite numbers, the standard limits included; so a second reading, of what is written
after the first, changes nothing, whichever spellings the first one met. -/

namespace InitialValue

open Wire Wire.Value

/-! ### Methods and steps -/

theorem Method.ofValue?_toValue (m : Method) : ofValue? m.toValue = some m := by
  cases m <;> rfl

def StepSpec.values : StepSpec → List Float
  | .count _ => []
  | .size h => [h]

namespace StepSpec

variable {s : StepSpec} {v : Value}

theorem allFinite_toValue (s : StepSpec) : s.toValue.AllFinite := by
  cases s <;> simp [toValue]

theorem ofValue?_toValue (hs : ∀ x ∈ s.values, x.isFinite = true) :
    ofValue? s.toValue = some s := by
  cases s with
  | count n => rfl
  | size h =>
    have hh : asNumber? (ofFloat h) = some h := asNumber?_ofFloat (hs h (by simp [values]))
    simp [toValue, ofValue?, asVariant?, hh]

theorem isFinite_of_ofValue? (hv : v.AllFinite) (hs : ofValue? v = some s) :
    ∀ x ∈ s.values, x.isFinite = true := by
  obtain ⟨⟨name, w⟩, hw, hs⟩ := Option.bind_eq_some_iff.mp hs
  have hfin : w.AllFinite := by
    unfold asVariant? at hw
    split at hw
    · cases hw
      exact allFinite_record_iff.mp hv _ (List.mem_singleton_self _)
    · cases hw
  split at hs
  · obtain ⟨n, -, rfl⟩ := Option.map_eq_some_iff.mp hs
    simp [values]
  · next heq =>
    cases heq
    obtain ⟨h, hh, rfl⟩ := Option.map_eq_some_iff.mp hs
    simpa [values] using isFinite_of_asNumber? hfin hh
  · cases hs

end StepSpec

/-! ### Limits -/

def Limits.values (l : Limits) : List Float := [l.minStepSize, l.maxStepSize]

namespace Limits

variable {l : Limits} {v : Value}

theorem allFinite_toValue (l : Limits) : l.toValue.AllFinite := by
  simp [toValue]

theorem ofValue?_toValue (hl : ∀ x ∈ l.values, x.isFinite = true) :
    ofValue? l.toValue = some l := by
  simp only [values, List.forall_mem_cons] at hl
  have hfields : l.toValue.fields? [["max_steps"], ["min_step_size"], ["max_step_size"]] =
      some [some (.count l.maxSteps), some (.ofFloat l.minStepSize),
        some (.ofFloat l.maxStepSize)] := rfl
  simp [ofValue?, hfields, withDefault, asCount?, asNumber?_ofFloat hl.1, asNumber?_ofFloat hl.2.1]

theorem isFinite_of_ofValue? (hv : v.AllFinite) (hl : ofValue? v = some l) :
    ∀ x ∈ l.values, x.isFinite = true := by
  obtain ⟨fs, hfs, hl⟩ := Option.bind_eq_some_iff.mp hl
  have hfin := fieldFinite_of_fields? hv hfs
  split at hl
  · simp only [Option.bind_eq_bind, Option.bind_eq_some_iff, Option.pure_def,
      Option.some.injEq] at hl
    obtain ⟨_, -, _, hmin, _, hmax, rfl⟩ := hl
    simp only [List.forall_mem_cons] at hfin
    simp only [values, List.forall_mem_cons]
    exact ⟨isFinite_of_withDefault hfin.2.1 rfl hmin,
      isFinite_of_withDefault hfin.2.2.1 rfl hmax, by simp⟩
  · cases hl

end Limits

/-! ### Requests -/

def Request.values (r : Request) : List Float := r.x0 :: r.y0 :: r.xn :: r.stepSize.toList

namespace Request

variable {r : Request} {v : Value}

theorem allFinite_toValue (r : Request) : r.toValue.AllFinite := by
  simp [toValue, Method.toValue, allFinite_ofOption]

theorem ofValue?_toValue (hr : ∀ x ∈ r.values, x.isFinite = true) :
    ofValue? r.toValue = some r := by
  simp only [values, List.forall_mem_cons] at hr
  obtain ⟨hx0, hy0, hxn, hstep⟩ := hr
  have hfields : r.toValue.fields? spellings =
      some [some (.text r.function), some (.ofFloat r.x0), some (.ofFloat r.y0),
        some (.ofFloat r.xn), some (ofOption .count r.numSteps),
        some (ofOption .ofFloat r.stepSize), some r.method.toValue] := rfl
  have hcount : Value.optional asCount? (some (ofOption .count r.numSteps)) = some r.numSteps :=
    optional_ofOption (fun _ _ => rfl) (fun _ _ => nofun)
  have hsize : Value.optional asNumber? (some (ofOption .ofFloat r.stepSize)) = some r.stepSize :=
    optional_ofOption (fun h hh => asNumber?_ofFloat (hstep h (by simpa using hh)))
      fun h hh => ofFloat_ne_null (hstep h (by simpa using hh))
  simp [ofValue?, hfields, required, asText?, asNumber?_ofFloat hx0, asNumber?_ofFloat hy0,
    asNumber?_ofFloat hxn, hcount, hsize, Method.ofValue?_toValue]

theorem isFinite_of_ofValue? (hv : v.AllFinite) (hr : ofValue? v = some r) :
    ∀ x ∈ r.values, x.isFinite = true := by
  obtain ⟨fs, hfs, hr⟩ := Option.bind_eq_some_iff.mp hr
  have hfin := fieldFinite_of_fields? hv hfs
  split at hr
  · simp only [Option.bind_eq_bind, Option.bind_eq_some_iff, Option.pure_def,
      Option.some.injEq] at hr
    obtain ⟨_, -, _, hx0, _, hy0, _, hxn, _, -, stepSize, hsize, _, -, rfl⟩ := hr
    simp only [List.forall_mem_cons] at hfin
    obtain ⟨-, hfx0, hfy0, hfxn, -, hfsize, -⟩ := hfin
    simp only [values, List.forall_mem_cons]
    refine ⟨isFinite_of_required hfx0 hx0, isFinite_of_required hfy0 hy0,
      isFinite_of_required hfxn hxn, ?_⟩
    cases stepSize with
    | none => simp
    | some h =>
      obtain ⟨w, rfl, hw⟩ := exists_of_optional hsize
      simpa using isFinite_of_asNumber? (hfsize w rfl) hw
  · cases hr

end Request

/-! ### Slopes of a step -/

namespace Diagnostics

variable {d : Diagnostics Float} {v : Value}

theorem allFinite_toValue (d : Diagnostics Float) : d.toValue.AllFinite := by
  cases d <;> simp [toValue, named, Method.toValue]

theorem toValue_ne_null (d : Diagnostics Float) : d.toValue ≠ .null := nofun

theorem numbers?_named (hd : ∀ x ∈ d.values, x.isFinite = true) :
    numbers? (d.named.map Prod.fst) (.record (d.named.map fun (name, x) => (name, .ofFloat x))) =
      some d.values := by
  have hfields : fields? ((d.named.map Prod.fst).map ([·]))
      (.record (d.named.map fun (name, x) => (name, .ofFloat x))) =
      some (d.values.map fun x => some (.ofFloat x)) := by
    cases d <;> rfl
  rw [numbers?, hfields]
  refine mapM_eq_some_iff.mpr ?_
  rw [List.map_map]
  exact List.map_congr_left fun x hx => asNumber?_ofFloat (hd x hx)

theorem ofValue?_toValue (hd : ∀ x ∈ d.values, x.isFinite = true) :
    ofValue? d.toValue = some d := by
  have hnumbers := numbers?_named hd
  cases d with
  | euler | heun | rungeKutta =>
    -- splitting off the tag leaves the named numbers, by computation
    exact Option.bind_eq_some_iff.mpr ⟨_, hnumbers, rfl⟩

theorem allFinite_of_split? {tag : String} {rest : Value} (hv : v.AllFinite)
    (h : split? v = some (tag, rest)) : rest.AllFinite := by
  cases hv with
  | record hall =>
    simp only [split?, Option.bind_eq_bind, Option.bind_eq_some_iff, Option.pure_def,
      Option.some.injEq, Prod.mk.injEq] at h
    obtain ⟨_, -, _, -, -, rfl⟩ := h
    exact .record fun f hf => hall f (List.mem_of_mem_filter hf)
  | @list items hall =>
    cases items with
    | nil => cases h
    | cons w items =>
      simp only [split?, Option.bind_eq_bind, Option.bind_eq_some_iff, Option.pure_def,
        Option.some.injEq, Prod.mk.injEq] at h
      obtain ⟨_, -, -, rfl⟩ := h
      exact .list (List.forall_mem_cons.mp hall).2
  | null | bool | count | number | text => cases h

theorem isFinite_of_numbers? {names : List String} {xs : List Float} (hv : v.AllFinite)
    (h : numbers? names v = some xs) : ∀ x ∈ xs, x.isFinite = true := by
  obtain ⟨fs, hfs, hxs⟩ := Option.bind_eq_some_iff.mp h
  intro x hx
  have hmem : some x ∈ xs.map some := List.mem_map_of_mem hx
  rw [← mapM_eq_some_iff.mp hxs] at hmem
  obtain ⟨f, hf, hread⟩ := List.mem_map.mp hmem
  exact isFinite_of_required (fieldFinite_of_fields? hv hfs f hf) hread

theorem isFinite_of_ofValue? (hv : v.AllFinite) (hd : ofValue? v = some d) :
    ∀ x ∈ d.values, x.isFinite = true := by
  obtain ⟨⟨tag, rest⟩, hsplit, hd⟩ := Option.bind_eq_some_iff.mp hd
  have hrest := allFinite_of_split? hv hsplit
  dsimp only at hd
  -- each tag has its own names of numbers, and what they read is what the diagnostics hold
  split at hd
  iterate 3
    obtain ⟨xs, hxs, hd⟩ := Option.bind_eq_some_iff.mp hd
    have hfin := isFinite_of_numbers? hrest hxs
    split at hd <;> cases hd
    exact hfin
  cases hd

end Diagnostics

/-! ### Rows and summaries -/

namespace Row

variable {r : Row Float} {v : Value}

theorem allFinite_toValue (r : Row Float) : r.toValue.AllFinite := by
  obtain ⟨step, x, y, slope, _ | d⟩ := r
  · simp [toValue]
  · simp [toValue, d.allFinite_toValue]

theorem fields?_toValue (r : Row Float) :
    r.toValue.fields? [["step"], ["x"], ["y"], ["slope"], ["diagnostics"]] =
      some [some (.count r.step), some (.ofFloat r.x), some (.ofFloat r.y), some (.ofFloat r.slope),
        r.diagnostics.map Diagnostics.toValue] := by
  obtain ⟨step, x, y, slope, _ | d⟩ := r
  · rfl
  · rfl

theorem ofValue?_toValue (hr : ∀ x ∈ r.values, x.isFinite = true) :
    ofValue? r.toValue = some r := by
  simp only [values, List.forall_mem_cons] at hr
  obtain ⟨hx, hy, hslope, hd⟩ := hr
  have hdiagnostics : Value.optional Diagnostics.ofValue? (r.diagnostics.map Diagnostics.toValue) =
      some r.diagnostics := by
    cases hrd : r.diagnostics with
    | none => rfl
    | some d =>
      rw [hrd] at hd
      exact optional_some (Diagnostics.ofValue?_toValue hd) d.toValue_ne_null
  simp [ofValue?, fields?_toValue, required, asCount?, asNumber?_ofFloat hx, asNumber?_ofFloat hy,
    asNumber?_ofFloat hslope, hdiagnostics]

theorem isFinite_of_ofValue? (hv : v.AllFinite) (hr : ofValue? v = some r) :
    ∀ x ∈ r.values, x.isFinite = true := by
  obtain ⟨fs, hfs, hr⟩ := Option.bind_eq_some_iff.mp hr
  have hfin := fieldFinite_of_fields? hv hfs
  split at hr
  · simp only [Option.bind_eq_bind, Option.bind_eq_some_iff, Option.pure_def,
      Option.some.injEq] at hr
    obtain ⟨_, -, _, hx, _, hy, _, hslope, diagnostics, hd, rfl⟩ := hr
    simp only [List.forall_mem_cons] at hfin
    obtain ⟨-, hfx, hfy, hfslope, hfd, -⟩ := hfin
    simp only [values, List.forall_mem_cons]
    refine ⟨isFinite_of_required hfx hx, isFinite_of_required hfy hy,
      isFinite_of_required hfslope hslope, ?_⟩
    cases diagnostics with
    | none => simp
    | some d =>
      obtain ⟨w, rfl, hw⟩ := exists_of_optional hd
      exact Diagnostics.isFinite_of_ofValue? (hfd w rfl) hw
  · cases hr

end Row

namespace Summary

variable {s : Summary} {v : Value}

theorem allFinite_toValue (s : Summary) : s.toValue.AllFinite := by
  simp [toValue]

theorem ofValue?_toValue (hs : s.stepSize.isFinite = true) : ofValue? s.toValue = some s := by
  have hfields : s.toValue.fields?
      [["initial_value"], ["final_value"], ["interval"], ["total_steps"], ["step_size"]] =
      some [some (.text s.initialValue), some (.text s.finalValue), some (.text s.interval),
        some (.count s.totalSteps), some (.ofFloat s.stepSize)] := rfl
  simp [ofValue?, hfields, required, asText?, asCount?, asNumber?_ofFloat hs]

theorem isFinite_of_ofValue? (hv : v.AllFinite) (hs : ofValue? v = some s) :
    s.stepSize.isFinite = true := by
  obtain ⟨fs, hfs, hs⟩ := Option.bind_eq_some_iff.mp hs
  have hfin := fieldFinite_of_fields? hv hfs
  split at hs
  · simp only [Option.bind_eq_bind, Option.bind_eq_some_iff, Option.pure_def,
      Option.some.injEq] at hs
    obtain ⟨_, -, _, -, _, -, _, -, _, hsize, rfl⟩ := hs
    exact isFinite_of_required (hfin _ (by simp)) hsize
  · cases hs

end Summary

/-! ### Trajectories -/

namespace Trajectory

variable {t : Trajectory} {v : Value}

theorem allFinite_toValue (t : Trajectory) : t.toValue.AllFinite := by
  simp [toValue, Method.toValue, Row.allFinite_toValue, Summary.allFinite_toValue]

theorem ofValue?_toValue (ht : ∀ x ∈ t.values, x.isFinite = true) :
    ofValue? t.toValue = some t := by
  simp only [values, List.forall_mem_cons, List.mem_flatMap] at ht
  obtain ⟨hx0, hy0, hh, hsize, hrows⟩ := ht
  have hfields : t.toValue.fields? [["method"], ["expression"], ["x0"], ["y0"], ["h"],
      ["num_steps"], ["records"], ["summary"]] =
      some [some t.method.toValue, some (.text t.expression), some (.ofFloat t.x0),
        some (.ofFloat t.y0), some (.ofFloat t.h), some (.count t.numSteps),
        some (.list (t.rows.map Row.toValue)), some t.summary.toValue] := rfl
  have hlist : asList? Row.ofValue? (.list (t.rows.map Row.toValue)) = some t.rows :=
    asList?_list_map fun r hr => Row.ofValue?_toValue fun x hx => hrows x ⟨r, hr, hx⟩
  simp [ofValue?, hfields, required, asText?, asCount?, Method.ofValue?_toValue,
    asNumber?_ofFloat hx0, asNumber?_ofFloat hy0, asNumber?_ofFloat hh, hlist,
    Summary.ofValue?_toValue hsize]

theorem isFinite_of_ofValue? (hv : v.AllFinite) (ht : ofValue? v = some t) :
    ∀ x ∈ t.values, x.isFinite = true := by
  obtain ⟨fs, hfs, ht⟩ := Option.bind_eq_some_iff.mp ht
  have hfin := fieldFinite_of_fields? hv hfs
  split at ht
  · simp only [Option.bind_eq_bind, Option.bind_eq_some_iff, Option.pure_def,
      Option.some.injEq] at ht
    obtain ⟨_, -, _, -, _, hx0, _, hy0, _, hh, _, -, rows, hrows, summary, hsummary, rfl⟩ := ht
    simp only [List.forall_mem_cons] at hfin
    obtain ⟨-, -, hfx0, hfy0, hfh, -, hfrows, hfsummary, -⟩ := hfin
    obtain ⟨w, rfl, hrows⟩ := Option.bind_eq_some_iff.mp hrows
    obtain ⟨u, rfl, hsummary⟩ := Option.bind_eq_some_iff.mp hsummary
    have hrow := forall_of_asList? (hfrows w rfl)
      (fun u r hu hr => Row.isFinite_of_ofValue? hu hr) hrows
    simp only [values, List.forall_mem_cons, List.mem_flatMap]
    refine ⟨isFinite_of_required hfx0 hx0, isFinite_of_required hfy0 hy0,
      isFinite_of_required hfh hh, Summary.isFinite_of_ofValue? (hfsummary u rfl) hsummary, ?_⟩
    rintro x ⟨r, hr, hx⟩
    exact hrow r hr x hx
  · cases ht

end Trajectory

/-- Trajectories, requests, limits and steps are read back from what they are written as exactly
when their numbers are finite, as those of every solution are, and methods always. Whatever was
first read, from a value with finite numbers, does not change when it is written and read again. -/
theorem reading_recovers_what_is_written :
    (∀ t : Trajectory, Trajectory.ofValue? t.toValue = some t ↔ ∀ x ∈ t.values, x.isFinite = true) ∧
    (∀ t : Trajectory,
      (∃ (s : Solver) (expression : String) (x0 y0 h : Float) (n : UInt64) (m : Method),
          s.solve expression x0 y0 h n m = .ok t) ∨
        (∃ (s : Solver) (expression : String) (x0 y0 xn : Float) (spec : StepSpec) (m : Method),
          s.solveInterval expression x0 y0 xn spec m = .ok t) ∨
        (∃ (s : Solver) (r : Request), s.solveRequest r = .ok t) ∨
        (∃ (d : Draft) (override : Option Method), d.solve override = .ok t) →
      Trajectory.ofValue? t.toValue = some t) ∧
    (∀ r : Request, Request.ofValue? r.toValue = some r ↔ ∀ x ∈ r.values, x.isFinite = true) ∧
    (∀ l : Limits, Limits.ofValue? l.toValue = some l ↔ ∀ x ∈ l.values, x.isFinite = true) ∧
    (∀ s : StepSpec, StepSpec.ofValue? s.toValue = some s ↔ ∀ x ∈ s.values, x.isFinite = true) ∧
    (∀ m : Method, Method.ofValue? m.toValue = some m) ∧
    ∀ v : Value, v.AllFinite →
      (∀ t, Trajectory.ofValue? v = some t → Trajectory.ofValue? t.toValue = some t) ∧
      (∀ r, Request.ofValue? v = some r → Request.ofValue? r.toValue = some r) ∧
      (∀ l, Limits.ofValue? v = some l → Limits.ofValue? l.toValue = some l) ∧
      (∀ s, StepSpec.ofValue? v = some s → StepSpec.ofValue? s.toValue = some s) ∧
      ∀ m, Method.ofValue? v = some m → Method.ofValue? m.toValue = some m := by
  refine ⟨fun t => ⟨Trajectory.isFinite_of_ofValue? t.allFinite_toValue,
    Trajectory.ofValue?_toValue⟩, ?_, fun r =>
    ⟨Request.isFinite_of_ofValue? r.allFinite_toValue, Request.ofValue?_toValue⟩, fun l =>
    ⟨Limits.isFinite_of_ofValue? l.allFinite_toValue, Limits.ofValue?_toValue⟩, fun s =>
    ⟨StepSpec.isFinite_of_ofValue? s.allFinite_toValue, StepSpec.ofValue?_toValue⟩,
    Method.ofValue?_toValue, fun v hv => ⟨?_, ?_, ?_, ?_, fun m _ => m.ofValue?_toValue⟩⟩
  · rintro t (⟨_, _, _, _, _, _, _, ht⟩ | ⟨_, _, _, _, _, _, _, ht⟩ | ⟨_, _, ht⟩ | ⟨_, _, ht⟩)
    · exact Trajectory.ofValue?_toValue (Solver.values_isFinite_of_solve ht)
    · exact Trajectory.ofValue?_toValue (Solver.values_isFinite_of_solveInterval ht)
    · exact Trajectory.ofValue?_toValue (Solver.values_isFinite_of_solveRequest ht)
    · obtain ⟨r, s, -, -, ht⟩ := Draft.solveRequest_of_solve ht
      exact Trajectory.ofValue?_toValue (Solver.values_isFinite_of_solveRequest ht)
  · exact fun t ht => Trajectory.ofValue?_toValue (Trajectory.isFinite_of_ofValue? hv ht)
  · exact fun r hr => Request.ofValue?_toValue (Request.isFinite_of_ofValue? hv hr)
  · exact fun l hl => Limits.ofValue?_toValue (Limits.isFinite_of_ofValue? hv hl)
  · exact fun s hs => StepSpec.ofValue?_toValue (StepSpec.isFinite_of_ofValue? hv hs)

/-- A request under its other spellings, without a count, and the rows of its solution with and
without slopes of a step. -/
theorem reading_recovers_quarter_steps :
    let v : Value := .record [("expression", .text "x*y"), ("x0", .count 0), ("y0", .number 0.5),
      ("xn", .count 1), ("step_size", .number 0.25), ("method", .text "runge_kutta")]
    ∃ r t, Request.ofValue? v = some r ∧ r.method = .rungeKutta ∧
      Request.ofValue? r.toValue = some r ∧
      Solver.standard.solveRequest r = .ok t ∧ Trajectory.ofValue? t.toValue = some t := by
  intro v
  have hv : v.AllFinite := by
    simp only [v, allFinite_record_iff, List.forall_mem_cons]
    exact ⟨.text _, .count _, .number rfl, .count _, .number rfl, .text _, by simp⟩
  let r : Request := ⟨"x*y", 0.0, 0.5, 1.0, none, some 0.25, .rungeKutta⟩
  have hr : Request.ofValue? v = some r := by decide +kernel
  have hok : (Solver.standard.solveRequest r).isOk = true := by decide +kernel
  obtain ⟨t, ht⟩ := exists_eq_ok_of_isOk hok
  obtain ⟨-, hsolution, -, -, -, -, hagain⟩ := reading_recovers_what_is_written
  exact ⟨r, t, hr, rfl, (hagain v hv).2.1 r hr, ht, hsolution t (.inr (.inr (.inl ⟨_, r, ht⟩)))⟩

end InitialValue
