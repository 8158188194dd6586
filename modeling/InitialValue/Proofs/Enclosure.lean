import InitialValue.Proofs.Binary64.Monotone
import InitialValue.Proofs.Binary64.Order
import InitialValue.Proofs.Frame

/-! The frame of a trajectory encloses its points. The hull of the values of an axis holds
each of them, in whatever order they come, and the margin moves its ends outwards: it is
never negative, and where it overflows the ends are infinite. -/

namespace InitialValue

open Binary64 (value value_zero value_one infinity)

namespace Frame

/-- The point lies in the rectangle or on its border. -/
def Encloses (r : Frame) (x y : Float) : Prop := r.xMin ≤ x ∧ x ≤ r.xMax ∧ r.yMin ≤ y ∧ y ≤ r.yMax

variable {values : List Float} {low high pad : Float}

theorem margin_mul_eq_infinity {span : Float} (h : span.toModel.unpack = .infinity .positive) :
    margin * span = infinity := by
  change Float.ofModel (Float.Model.pack (.mul _ margin.toModel.unpack span.toModel.unpack)) =
    infinity
  rw [h]
  rfl

/-- A part of the span that is positive, an overflown span, or one where there is no span. -/
theorem pad_nonneg (hpad : (if 0.0 < high - low then margin * (high - low) else 1.0) = pad) :
    pad.isNaN = false ∧ 0 ≤ value pad := by
  subst hpad
  split_ifs with hpos
  · obtain ⟨hzero, hspan⟩ := Binary64.isNaN_of_lt hpos
    have hspan0 : 0 ≤ value (high - low) := ((Binary64.lt_iff hzero hspan).mp hpos).le
    cases hfin : (high - low).isFinite with
    | true =>
      have hprod := Binary64.rounds_mul (a := margin) rfl hfin
      exact ⟨hprod.isNaN, hprod.ge_of_ge 0.0 (mul_nonneg margin_bounds.1 hspan0)⟩
    | false =>
      rw [margin_mul_eq_infinity (Binary64.unpack_eq_infinity hspan hfin hspan0)]
      exact ⟨rfl, Binary64.bound_pos.le⟩
  · rw [value_one]
    exact ⟨rfl, zero_le_one⟩

/-- The padded ends of an axis have all its values between them. -/
theorem mem_padded (hfin : ∀ v ∈ values, v.isFinite = true) {v : Float} (hv : v ∈ values) :
    (padded values).1 ≤ v ∧ v ≤ (padded values).2 := by
  obtain ⟨w, ws, rfl⟩ := List.exists_cons_of_ne_nil (List.ne_nil_of_mem hv)
  have hs := spans_hull hfin
  generalize hhull : hull (w :: ws) = p at hs
  obtain ⟨low, high⟩ := p
  have hlow : low.isFinite = true := hfin low hs.low_mem
  have hhigh : high.isFinite = true := hfin high hs.high_mem
  have hnum := Binary64.isNaN_eq_false (hfin v hv)
  obtain ⟨hle, hge⟩ := hs.between v hv
  obtain ⟨pad, hpad⟩ : ∃ pad, (if 0.0 < high - low then margin * (high - low) else 1.0) = pad :=
    ⟨_, rfl⟩
  obtain ⟨hpadnum, hpad0⟩ := pad_nonneg hpad
  rw [padded_eq hhull hpad]
  constructor
  · exact Binary64.le_trans (Binary64.sub_le_of_nonneg hlow hpadnum hpad0)
      ((Binary64.le_iff (Binary64.isNaN_eq_false hlow) hnum).mpr hle)
  · exact Binary64.le_trans ((Binary64.le_iff hnum (Binary64.isNaN_eq_false hhigh)).mpr hge)
      (Binary64.le_add_of_nonneg hhigh hpadnum hpad0)

/-- The frame around a trajectory with finite points encloses every one of them. -/
theorem around_encloses_points {t : Trajectory}
    (hfin : ∀ r ∈ t.rows, r.x.isFinite = true ∧ r.y.isFinite = true) :
    ∀ r ∈ t.rows, (around t).Encloses r.x r.y := by
  intro r hr
  have hx := mem_padded (List.forall_mem_map.mpr fun q hq => (hfin q hq).1) (List.mem_map_of_mem hr)
  have hy := mem_padded (List.forall_mem_map.mpr fun q hq => (hfin q hq).2) (List.mem_map_of_mem hr)
  exact ⟨hx.1, hx.2, hy.1, hy.2⟩

/-- Points above one another, at a distance that overflows: one to either side, and all of the other
axis. -/
theorem around_encloses_distant_points :
    let rows : List (Row Float) := [⟨0, 3.0, 1.7e308, 0.0, none⟩, ⟨1, 3.0, -1.7e308, 0.0, none⟩]
    let t : Trajectory := ⟨.euler, "0", 3.0, 1.7e308, 1.0, 1, rows,
      .ofEnds 3.0 1.7e308 3.0 (-1.7e308) 1.0 1⟩
    (∀ r ∈ t.rows, r.x.isFinite = true ∧ r.y.isFinite = true) ∧
      around t = ⟨2.0, 4.0, -infinity, infinity, 15, 12⟩ ∧
        ∀ r ∈ t.rows, (around t).Encloses r.x r.y := by
  intro rows t
  have hfin : ∀ r ∈ t.rows, r.x.isFinite = true ∧ r.y.isFinite = true := by decide +kernel
  exact ⟨hfin, by decide +kernel, around_encloses_points hfin⟩

end Frame

end InitialValue
