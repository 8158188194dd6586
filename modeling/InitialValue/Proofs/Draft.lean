import InitialValue.Draft
import InitialValue.Proofs.Outcome

/-! What comes of a draft on the way to its solution. It becomes a request and a solver, or
one of these fails in the ways listed here; every other failure is that of the solver on
the request. -/

namespace InitialValue

variable {l : Limits} {s : Solver} {q : Request} {d : Draft} {override : Option Method}
  {t : Trajectory}

/-- A solver for limits has these limits. -/
theorem Solver.limits_of_ofLimits (hs : ofLimits l = .ok s) : s.limits = l := by
  unfold ofLimits at hs
  split at hs
  · cases hs
    rfl
  · cases hs

theorem Solver.ofLimits_eq_error {e : SolveError} (he : ofLimits l = .error e) :
    ∃ fault, e = .rejected (.unusableLimits fault) := by
  unfold ofLimits at he
  split at he
  · cases he
  · next fault _ =>
    cases he
    exact ⟨fault, rfl⟩

/-- The limits of a solver are usable. -/
theorem Solver.ofLimits_limits (s : Solver) : ofLimits s.limits = .ok s := by
  unfold ofLimits
  split
  · rfl
  · next fault hfault => cases s.usable.symm.trans hfault

namespace Draft

theorem toRequest_eq_ok_iff : d.toRequest override = .ok q ↔ ∃ method numSteps,
    d.chosenMethod override = .ok method ∧ d.wholeSteps = .ok numSteps ∧
      q = ⟨d.function, d.x0, d.y0, d.xn, numSteps, d.stepSize, method⟩ := by
  simp [toRequest, bind_eq_ok_iff, eq_comm (b := q)]

/-- No request comes of a draft without a method, with an unknown one, or with a fraction of a
step. -/
theorem toRequest_eq_error {e : DraftError} (he : d.toRequest override = .error e) :
    e = .methodMissing ∨ (∃ u, e = .unknownMethod u) ∨ ∃ n, e = .fractionalSteps n := by
  obtain hm | ⟨method, -, he⟩ := bind_eq_error_iff.mp he
  · unfold chosenMethod at hm
    split at hm
    · cases hm
    · split at hm
      · cases hm
        exact .inl rfl
      · obtain ⟨u, -, rfl⟩ := mapError_eq_error_iff.mp hm
        exact .inr (.inl ⟨u, rfl⟩)
  · obtain hn | ⟨numSteps, -, he⟩ := bind_eq_error_iff.mp he
    · unfold wholeSteps at hn
      split at hn
      · cases hn
      · split at hn <;> cases hn
        exact .inr (.inr ⟨_, rfl⟩)
    · cases he

theorem limits_of_solver (hs : d.solver = .ok s) : s.limits = d.effectiveLimits :=
  Solver.limits_of_ofLimits (mapError_eq_ok_iff.mp hs)

theorem solver_eq_error {e : DraftError} (he : d.solver = .error e) :
    ∃ fault, e = .limits (.rejected (.unusableLimits fault)) := by
  obtain ⟨c, hc, rfl⟩ := mapError_eq_error_iff.mp he
  obtain ⟨fault, rfl⟩ := Solver.ofLimits_eq_error hc
  exact ⟨fault, rfl⟩

theorem solveRequest_of_solve (ht : d.solve override = .ok t) : ∃ q s,
    d.toRequest override = .ok q ∧ d.solver = .ok s ∧ s.solveRequest q = .ok t := by
  obtain ⟨q, hq, ht⟩ := bind_eq_ok_iff.mp ht
  obtain ⟨s, hs, ht⟩ := bind_eq_ok_iff.mp ht
  exact ⟨q, s, hq, hs, mapError_eq_ok_iff.mp ht⟩

/-- A draft that is not solved leads to no request, asks for unusable limits, or the solver
fails. -/
theorem solve_eq_error {e : DraftError} (he : d.solve override = .error e) :
    (e = .methodMissing ∨ (∃ u, e = .unknownMethod u) ∨ ∃ n, e = .fractionalSteps n) ∨
      (∃ fault, e = .limits (.rejected (.unusableLimits fault))) ∨
      ∃ (s : Solver) (q : Request) (c : SolveError), s.solveRequest q = .error c ∧
        e = .solve q.method c := by
  obtain hq | ⟨q, -, he⟩ := bind_eq_error_iff.mp he
  · exact .inl (toRequest_eq_error hq)
  obtain hs | ⟨s, -, he⟩ := bind_eq_error_iff.mp he
  · exact .inr (.inl (solver_eq_error hs))
  obtain ⟨c, hc, rfl⟩ := mapError_eq_error_iff.mp he
  exact .inr (.inr ⟨s, q, c, hc, rfl⟩)

end Draft

end InitialValue
