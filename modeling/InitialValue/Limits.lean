import InitialValue.Binary64.Elementary

/-! Limits on a run: how many steps it may take and how large a step may be in
magnitude. Limits are usable when they leave some steps and some sizes, and
restricting one pair of limits by another never admits more. -/

namespace InitialValue

structure Limits where
  maxSteps : UInt64
  minStepSize : Float
  maxStepSize : Float
  deriving DecidableEq, Repr

/-- Why limits are not usable. -/
inductive LimitsFault where
  | noSteps | tooManySteps | minStepSize | maxStepSize
  deriving DecidableEq, Repr

namespace Limits

/-- No limits may allow more steps than this. -/
def stepCeiling : UInt64 := 1000000

/-- The limits that hold where none are asked for. -/
def standard : Limits := ⟨10000, 1e-8, 10.0⟩

instance : Inhabited Limits := ⟨standard⟩

/-- The first reason why the limits are not usable. -/
def fault? (l : Limits) : Option LimitsFault :=
  if l.maxSteps = 0 then some .noSteps
  else if stepCeiling < l.maxSteps then some .tooManySteps
  else if !(l.minStepSize.isFinite && 0.0 < l.minStepSize) then some .minStepSize
  else if !l.maxStepSize.isFinite || l.maxStepSize < l.minStepSize then some .maxStepSize
  else none

/-- Whether a step of size `h`, in either direction, keeps within the limits. -/
def allowsStepSize (l : Limits) (h : Float) : Bool :=
  h.isFinite && l.minStepSize ≤ h.abs && h.abs ≤ l.maxStepSize

/-- The limits narrowed by others. -/
def restrictedBy (l other : Limits) : Limits where
  maxSteps := min l.maxSteps other.maxSteps
  minStepSize := Binary64.larger l.minStepSize other.minStepSize
  maxStepSize := Binary64.smaller l.maxStepSize other.maxStepSize

theorem fault?_standard : standard.fault? = none := by decide +kernel

end Limits

def LimitsFault.message : LimitsFault → String
  | .noSteps => "max_steps must be greater than zero."
  | .tooManySteps => "max_steps must not exceed " ++ toString Limits.stepCeiling ++ "."
  | .minStepSize => "min_step_size must be positive and finite."
  | .maxStepSize => "max_step_size must be finite and at least min_step_size."

end InitialValue
