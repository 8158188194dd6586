import InitialValue.Proofs.Tightening
import InitialValue.Proofs.Wire.Value
import InitialValue.Wire.Request

/-! One record read as a request and as a draft. The fields that both have are read alike;
the number of steps is a count in one and any number in the other, the method a method in
one and a text in the other. A count may lose its last digits on the way through the
numbers, but only where it is too large for every solver. So a record that can be read
both ways has the same outcome both ways. -/

namespace InitialValue

open Wire Wire.Value

variable {fields : List (String × Value)} {r : Request} {d : Draft} {m : Method}
  {l : Limits} {s : Solver}

/-! ### Fields -/

/-- A count can be read as a number. -/
theorem Wire.Value.optional_asNumber?_of_asCount? {field : Option Value} {n : Option UInt64}
    (hn : Value.optional asCount? field = some n) :
    Value.optional asNumber? field = some (n.map UInt64.toFloat) := by
  cases field with
  | none =>
    cases hn
    rfl
  | some v =>
    cases v with
    | null =>
      cases hn
      rfl
    | count k =>
      cases hn
      rfl
    | bool | number | text | list | record => cases hn

theorem Wire.Value.eq_text_of_asText? {v : Value} {text : String} (hv : asText? v = some text) :
    v = .text text := by
  cases v with
  | text =>
    cases hv
    rfl
  | null | bool | count | number | list | record => cases hv

/-- The method of a request is read from its name, alone or as a field that is null. -/
theorem Method.ofName_of_ofValue? {v : Value} {name : String} (hm : Method.ofValue? v = some m)
    (hv : asText? v = some name) : ofName name = .ok m := by
  have htags : ∀ p ∈ tags, ofName p.1 = .ok p.2 := by decide +kernel
  cases eq_text_of_asText? hv
  obtain ⟨before, after, heq, -⟩ := List.lookup_eq_some_iff.mp hm
  exact htags (name, m) (heq ▸ by simp)

/-- A method is not null, so the value it is read from is not taken for a field that was left
out. -/
theorem Wire.Value.optional_asText?_of_method {v : Value} (hm : Method.ofValue? v = some m) :
    Value.optional asText? (some v) = (asText? v).map some := by
  cases v with
  | null => cases hm
  | bool | count | number | text | list | record => rfl

/-- The draft that says what a request says, with a name for the method. -/
def Request.toDraft (r : Request) (name : String) : Draft where
  function := r.function
  x0 := r.x0
  y0 := r.y0
  xn := r.xn
  numSteps := r.numSteps.map UInt64.toFloat
  stepSize := r.stepSize
  method := some name
  limits := none

/-- A record that can be read as a request says the same as a draft, as far as its method is a
text. -/
theorem Request.ofValue?_toDraft (hr : Request.ofValue? (.record fields) = some r)
    (hl : field? fields ["limits"] = some none ∨ field? fields ["limits"] = some (some .null)) :
    ∃ v, field? fields ["method"] = some (some v) ∧ Method.ofValue? v = some r.method ∧
      Draft.ofValue? (.record fields) = (asText? v).map r.toDraft := by
  obtain ⟨vs, hvs, hr⟩ := Option.bind_eq_some_iff.mp hr
  split at hr
  · next function x0 y0 xn numSteps stepSize method =>
    simp only [Option.bind_eq_bind, Option.bind_eq_some_iff, Option.pure_def,
      Option.some.injEq] at hr
    obtain ⟨_, hfunction, _, hx0, _, hy0, _, hxn, _, hnumSteps, _, hstepSize, _, hmethod, rfl⟩ := hr
    obtain ⟨v, rfl, hm⟩ := Option.bind_eq_some_iff.mp hmethod
    obtain ⟨limits, hlimits, hnone⟩ : ∃ limits, field? fields ["limits"] = some limits ∧
        Value.optional Limits.ofValue? limits = some none := by
      obtain hl | hl := hl
      · exact ⟨_, hl, rfl⟩
      · exact ⟨_, hl, rfl⟩
    have hmap := fields?_record_eq_some_iff.mp hvs
    have hall : fields? (Request.spellings ++ [["limits"]]) (.record fields) =
        some [function, x0, y0, xn, numSteps, stepSize, some v, limits] := by
      rw [fields?_record_eq_some_iff, List.map_append, hmap]
      simp [hlimits]
    refine ⟨v, ?_, hm, ?_⟩
    · simp only [Request.spellings, List.map_cons, List.cons.injEq] at hmap
      exact hmap.2.2.2.2.2.2.1
    · simp only [Draft.ofValue?, hall, hfunction, hx0, hy0, hxn,
        optional_asNumber?_of_asCount? hnumSteps, hstepSize, optional_asText?_of_method hm, hnone,
        Option.bind_eq_bind, Option.bind_some, Option.pure_def]
      cases asText? v <;> rfl
  · cases hr

/-! ### Outcomes -/

theorem Plan.ofCount_of_lt {x0 xn : Float} {n : UInt64} (hn : l.maxSteps < n) :
    ofCount x0 xn n l = .error (.rejected (.tooManySteps l.maxSteps)) := by
  have h0 : n ≠ 0 := by
    rintro rfl
    exact UInt64.not_lt_zero hn
  rw [ofCount, if_neg h0, if_pos hn]

/-- A count that goes through the numbers leads to the same plan: it comes back, or it was too large
and still is. -/
theorem Solver.resolve_count_toFloat (s : Solver) (x0 xn : Float) (n : UInt64) :
    Plan.resolve x0 xn (.count n.toFloat.toUInt64) s.limits =
      Plan.resolve x0 xn (.count n) s.limits := by
  rcases le_or_gt n.toNat (2 ^ 53) with hn | hn
  · rw [Binary64.toUInt64_toFloat hn]
  · have hmost : ∀ k : UInt64, 2 ^ 53 ≤ k.toNat → s.limits.maxSteps < k := fun k hk =>
      UInt64.lt_iff_toNat_lt.mpr (s.toNat_maxSteps_lt.trans_le hk)
    simp only [Plan.resolve, Plan.ofCount_of_lt (hmost n hn.le),
      Plan.ofCount_of_lt (hmost _ (Binary64.two_pow_le_toUInt64_toFloat hn.le))]

theorem Solver.solveRequest_toFloat (s : Solver) (r : Request) :
    s.solveRequest { r with numSteps := r.numSteps.map fun n => n.toFloat.toUInt64 } =
      s.solveRequest r := by
  obtain ⟨function, x0, y0, xn, numSteps, stepSize, method⟩ := r
  cases numSteps with
  | none => rfl
  | some n =>
    cases stepSize with
    | some h => rfl
    | none =>
      change (Plan.resolve x0 xn (.count n.toFloat.toUInt64) s.limits >>= _) =
        (Plan.resolve x0 xn (.count n) s.limits >>= _)
      rw [s.resolve_count_toFloat]

namespace Draft

/-- A count passes as a number of steps. -/
theorem wholeSteps_of_toFloat {n : Option UInt64} (hn : d.numSteps = n.map UInt64.toFloat) :
    d.wholeSteps = .ok (n.map fun n => n.toFloat.toUInt64) := by
  unfold wholeSteps
  cases n with
  | none =>
    rw [hn]
    rfl
  | some n =>
    have hnonneg : 0.0 ≤ n.toFloat :=
      (Binary64.le_iff rfl (Binary64.rounds_toFloat n).isNaN).mpr (Binary64.value_toFloat_nonneg n)
    simp [hn, Binary64.isWhole_toFloat, hnonneg]

end Draft

/-- A draft that says what a request says has its outcome under the standard limits. -/
theorem Request.solve_toDraft {name : String} (hname : Method.ofName name = .ok r.method) :
    (r.toDraft name).solve none = (Solver.standard.solveRequest r).mapError (.solve r.method) := by
  have hmethod : (r.toDraft name).chosenMethod none = .ok r.method := by
    simp [toDraft, Draft.chosenMethod, hname]
  have hrequest : (r.toDraft name).toRequest none =
      .ok { r with numSteps := r.numSteps.map fun n => n.toFloat.toUInt64 } :=
    Draft.toRequest_eq_ok_iff.mpr ⟨_, _, hmethod, Draft.wholeSteps_of_toFloat rfl, rfl⟩
  have hsolver : (r.toDraft name).solver = .ok .standard :=
    congrArg (Except.mapError DraftError.limits) Solver.standard.ofLimits_limits
  rw [Draft.solve, hrequest, ok_bind, hsolver, ok_bind, Solver.solveRequest_toFloat]

/-- A record without limits that can be read as a request can be read as a draft just when its
method is a text. It then has the same solution both ways, or fails for the same reason. -/
theorem request_and_draft_agree (hr : Request.ofValue? (.record fields) = some r)
    (hl : field? fields ["limits"] = some none ∨ field? fields ["limits"] = some (some .null)) :
    ((∃ d, Draft.ofValue? (.record fields) = some d) ↔
      ∃ name, field? fields ["method"] = some (some (.text name))) ∧
    ∀ d, Draft.ofValue? (.record fields) = some d →
      (∀ t, d.solve none = .ok t ↔ Solver.standard.solveRequest r = .ok t) ∧
      ∀ e, Solver.standard.solveRequest r = .error e → d.solve none = .error (.solve r.method e) ∧
        (DraftError.solve r.method e).message =
          ": ".intercalate ((r.method.label ++ " solve failed") :: e.chain) := by
  obtain ⟨v, hfield, hm, hdraft⟩ := Request.ofValue?_toDraft hr hl
  rw [hdraft, hfield]
  constructor
  · simp only [Option.map_eq_some_iff, Option.some.injEq]
    constructor
    · rintro ⟨d, name, hname, -⟩
      exact ⟨name, eq_text_of_asText? hname⟩
    · rintro ⟨name, rfl⟩
      exact ⟨_, name, rfl, rfl⟩
  · intro d hd
    obtain ⟨name, hname, rfl⟩ := Option.map_eq_some_iff.mp hd
    rw [Request.solve_toDraft (Method.ofName_of_ofValue? hm hname)]
    exact ⟨fun t => mapError_eq_ok_iff, fun e he => ⟨by rw [he, mapError_error], rfl⟩⟩

/-- A count that no number holds exactly is too large either way. -/
theorem large_count_either_way :
    let fields : List (String × Value) :=
      [("expression", .text "y"), ("x0", .count 0), ("y0", .count 1),
      ("xn", .number 0.5), ("num_steps", .count 9007199254740993), ("method", .text "heun"),
      ("limits", .null)]
    ∃ d, Draft.ofValue? (.record fields) = some d ∧
      d.solve none = .error (.solve .heun (.rejected (.tooManySteps 10000))) := by
  intro fields
  have hr : Request.ofValue? (.record fields) =
      some ⟨"y", 0.0, 1.0, 0.5, some 9007199254740993, none, .heun⟩ := by
    decide +kernel
  obtain ⟨hread, hagree⟩ := request_and_draft_agree hr (.inr rfl)
  obtain ⟨d, hd⟩ := hread.mpr ⟨"heun", rfl⟩
  have he : Solver.standard.solveRequest ⟨"y", 0.0, 1.0, 0.5, some 9007199254740993, none, .heun⟩ =
      .error (.rejected (.tooManySteps 10000)) := by
    decide +kernel
  exact ⟨d, hd, ((hagree d hd).2 _ he).1⟩

/-- A method that is given as the name of a null field can be solved as a request and not read as a
draft. -/
theorem method_field_is_no_draft :
    let fields : List (String × Value) :=
      [("function", .text "y"), ("x0", .count 0), ("y0", .count 1),
      ("xn", .count 1), ("num_steps", .count 2), ("method", .record [("euler", .null)])]
    let r : Request := ⟨"y", 0.0, 1.0, 1.0, some 2, none, .euler⟩
    Request.ofValue? (.record fields) = some r ∧ field? fields ["limits"] = some none ∧
      (Solver.standard.solveRequest r).isOk = true ∧ Draft.ofValue? (.record fields) = none := by
  intro fields r
  exact ⟨by decide +kernel, rfl, by decide +kernel, by decide +kernel⟩

end InitialValue
