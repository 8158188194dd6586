import InitialValue.Proofs.Binary64.Order
import InitialValue.Proofs.Limits

/-! Limits that restrict one another. Restricting takes the larger of two least sizes and
the smaller of two greatest ones, and both pass over what is not a number. So limits whose
bounds are numbers never let more pass for being restricted, whatever they are restricted
by, and a chain of such limits lets pass what all of its members do. Bounds may cross on the
way: then no size is left, which is what the members have in common. -/

namespace InitialValue.Limits

variable {l k : Limits} {chain : List Limits} {h : Float} {n : UInt64}

/-- Both bounds of the step size are numbers. -/
structure Numeric (l : Limits) : Prop where
  minStepSize : l.minStepSize.isNaN = false
  maxStepSize : l.maxStepSize.isNaN = false

/-- Those bounds of the step size that are numbers let a step of size `h` pass. -/
structure Spares (l : Limits) (h : Float) : Prop where
  minStepSize : l.minStepSize.isNaN = false → l.minStepSize ≤ h.abs
  maxStepSize : l.maxStepSize.isNaN = false → h.abs ≤ l.maxStepSize

/-- The limits restricted by the members of a chain, one after another. -/
def restrictedByAll (l : Limits) (chain : List Limits) : Limits := chain.foldl restrictedBy l

@[simp] theorem restrictedByAll_nil (l : Limits) : l.restrictedByAll [] = l := rfl

@[simp] theorem restrictedByAll_cons (l k : Limits) (chain : List Limits) :
    l.restrictedByAll (k :: chain) = (l.restrictedBy k).restrictedByAll chain := rfl

/-! ### One restriction -/

theorem Numeric.restrictedBy (hl : l.Numeric) : (l.restrictedBy k).Numeric where
  minStepSize := (Binary64.isNaN_of_le (Binary64.le_larger_left hl.minStepSize)).2
  maxStepSize := (Binary64.isNaN_of_le (Binary64.smaller_le_left hl.maxStepSize)).1

theorem Numeric.allowsStepSize_iff (hl : l.Numeric) :
    l.allowsStepSize h = true ↔ h.isFinite = true ∧ l.Spares h := by
  rw [Limits.allowsStepSize_iff]
  refine and_congr_right fun _ =>
    ⟨fun ⟨hleast, hmost⟩ => ⟨fun _ => hleast, fun _ => hmost⟩, fun hs => ?_⟩
  exact ⟨hs.minStepSize hl.minStepSize, hs.maxStepSize hl.maxStepSize⟩

/-- What restricts need not be numbers: bounds that are none are passed over. -/
theorem Numeric.allowsStepSize_restrictedBy_iff (hl : l.Numeric) :
    (l.restrictedBy k).allowsStepSize h = true ↔ l.allowsStepSize h = true ∧ k.Spares h := by
  have hbounds : (l.restrictedBy k).allowsStepSize h = true ↔ h.isFinite = true ∧
      Binary64.larger l.minStepSize k.minStepSize ≤ h.abs ∧
        h.abs ≤ Binary64.smaller l.maxStepSize k.maxStepSize :=
    Limits.allowsStepSize_iff
  rw [hbounds, Limits.allowsStepSize_iff, Binary64.larger_le_iff hl.minStepSize,
    Binary64.le_smaller_iff hl.maxStepSize]
  constructor
  · rintro ⟨hfin, ⟨hleast, hleast'⟩, hmost, hmost'⟩
    exact ⟨⟨hfin, hleast, hmost⟩, hleast', hmost'⟩
  · rintro ⟨⟨hfin, hleast, hmost⟩, hs⟩
    exact ⟨hfin, ⟨hleast, hs.minStepSize⟩, hmost, hs.maxStepSize⟩

theorem le_maxSteps_restrictedBy_iff :
    n ≤ (l.restrictedBy k).maxSteps ↔ n ≤ l.maxSteps ∧ n ≤ k.maxSteps := Std.le_min_iff

/-! ### Chains -/

theorem allowsStepSize_restrictedByAll_iff (hnum : ∀ k ∈ l :: chain, k.Numeric) :
    (l.restrictedByAll chain).allowsStepSize h = true ↔
      ∀ k ∈ l :: chain, k.allowsStepSize h = true := by
  induction chain generalizing l with
  | nil => simp
  | cons k chain ih =>
    obtain ⟨hl, hk, hchain⟩ : l.Numeric ∧ k.Numeric ∧ ∀ k ∈ chain, k.Numeric := by simpa using hnum
    rw [restrictedByAll_cons, ih (List.forall_mem_cons.mpr ⟨hl.restrictedBy, hchain⟩)]
    simp only [List.forall_mem_cons, hl.allowsStepSize_restrictedBy_iff, hk.allowsStepSize_iff]
    constructor
    · rintro ⟨⟨ha, hs⟩, hall⟩
      exact ⟨ha, ⟨(Limits.allowsStepSize_iff.mp ha).1, hs⟩, hall⟩
    · rintro ⟨ha, ⟨-, hs⟩, hall⟩
      exact ⟨⟨ha, hs⟩, hall⟩

theorem le_maxSteps_restrictedByAll_iff :
    n ≤ (l.restrictedByAll chain).maxSteps ↔ ∀ k ∈ l :: chain, n ≤ k.maxSteps := by
  induction chain generalizing l with
  | nil => simp
  | cons k chain ih =>
    rw [restrictedByAll_cons, ih]
    simp only [List.forall_mem_cons, le_maxSteps_restrictedBy_iff, and_assoc]

/-- A chain of limits whose bounds are numbers admits what all its members admit, in whatever order
and however often they stand in it. A single restriction admits no more than the limits that are
restricted, even where the bounds of the other ones are no numbers. -/
theorem restriction_is_intersection :
    (∀ (l : Limits) (chain : List Limits), (∀ k ∈ l :: chain, k.Numeric) →
      (∀ h, (l.restrictedByAll chain).allowsStepSize h = true ↔
        ∀ k ∈ l :: chain, k.allowsStepSize h = true) ∧
      (∀ n, n ≤ (l.restrictedByAll chain).maxSteps ↔ ∀ k ∈ l :: chain, n ≤ k.maxSteps) ∧
      ∀ (l' : Limits) (chain' : List Limits), (∀ k, k ∈ l' :: chain' ↔ k ∈ l :: chain) →
        (∀ h, (l'.restrictedByAll chain').allowsStepSize h =
          (l.restrictedByAll chain).allowsStepSize h) ∧
        (l'.restrictedByAll chain').maxSteps = (l.restrictedByAll chain).maxSteps) ∧
    ∀ l k : Limits, l.Numeric →
      (∀ h, (l.restrictedBy k).allowsStepSize h = true ↔ l.allowsStepSize h = true ∧ k.Spares h) ∧
      ∀ n, n ≤ (l.restrictedBy k).maxSteps ↔ n ≤ l.maxSteps ∧ n ≤ k.maxSteps := by
  refine ⟨fun l chain hnum => ⟨fun h => allowsStepSize_restrictedByAll_iff hnum,
    fun n => le_maxSteps_restrictedByAll_iff, fun l' chain' hsame => ⟨fun h => ?_, ?_⟩⟩,
    fun l k hl => ⟨fun h => hl.allowsStepSize_restrictedBy_iff,
      fun n => le_maxSteps_restrictedBy_iff⟩⟩
  · have hnum' : ∀ k ∈ l' :: chain', k.Numeric := fun k hk => hnum k ((hsame k).mp hk)
    rw [Bool.eq_iff_iff, allowsStepSize_restrictedByAll_iff hnum',
      allowsStepSize_restrictedByAll_iff hnum]
    simp only [hsame]
  · have hadmits : ∀ n, n ≤ (l'.restrictedByAll chain').maxSteps ↔
        n ≤ (l.restrictedByAll chain).maxSteps := by
      intro n
      simp only [le_maxSteps_restrictedByAll_iff, hsame]
    exact UInt64.le_antisymm ((hadmits _).mp (UInt64.le_refl _))
      ((hadmits _).mpr (UInt64.le_refl _))

/-- One member has no greatest size and another one stands twice; sizes are let pass in either
direction. The standard limits restricted by bounds that are no numbers do not let a larger step
pass. -/
theorem restriction_of_wide_and_narrow :
    let wide : Limits := ⟨100, 0.125, Binary64.infinity⟩
    let narrow : Limits := ⟨50, 0.25, 2.0⟩
    let unknown : Limits := ⟨1000000, 0.0 / 0.0, 0.0 / 0.0⟩
    (wide.restrictedByAll [narrow, wide, narrow]).allowsStepSize (-0.5) = true ∧
      ¬ (wide.restrictedByAll [narrow, wide, narrow]).allowsStepSize 2.5 = true ∧
      (narrow.restrictedByAll [wide]).maxSteps =
        (wide.restrictedByAll [narrow, wide, narrow]).maxSteps ∧
      ¬ (standard.restrictedBy unknown).allowsStepSize 10.5 = true := by
  intro wide narrow unknown
  have hbounds : wide.minStepSize.isNaN = false ∧ wide.maxStepSize.isNaN = false ∧
      narrow.minStepSize.isNaN = false ∧ narrow.maxStepSize.isNaN = false := by decide +kernel
  have hsizes : (wide.allowsStepSize (-0.5) = true ∧ narrow.allowsStepSize (-0.5) = true) ∧
      narrow.allowsStepSize 2.5 = false ∧ standard.allowsStepSize 10.5 = false := by decide +kernel
  have hnum : ∀ k ∈ [wide, narrow, wide, narrow], k.Numeric := by
    have hwide : wide.Numeric := ⟨hbounds.1, hbounds.2.1⟩
    have hnarrow : narrow.Numeric := ⟨hbounds.2.2.1, hbounds.2.2.2⟩
    simp [hwide, hnarrow]
  have hsame : ∀ k, k ∈ [narrow, wide] ↔ k ∈ [wide, narrow, wide, narrow] := by
    simp only [List.mem_cons, List.not_mem_nil, or_false]
    tauto
  obtain ⟨hallows, -, horder⟩ := restriction_is_intersection.1 _ _ hnum
  obtain ⟨hsingle, -⟩ := restriction_is_intersection.2 standard unknown ⟨rfl, rfl⟩
  refine ⟨(hallows _).mpr ?_, fun h => ?_, (horder narrow [wide] hsame).2, fun h => ?_⟩
  · simp [hsizes.1]
  · exact Bool.false_ne_true (hsizes.2.1.symm.trans ((hallows _).mp h narrow (by simp)))
  · exact Bool.false_ne_true (hsizes.2.2.symm.trans ((hsingle _).mp h).1)

end InitialValue.Limits
