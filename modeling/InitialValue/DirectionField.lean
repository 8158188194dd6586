import InitialValue.Binary64.Elementary
import InitialValue.Decimal.Layout
import InitialValue.Trajectory

/-! Direction fields: the unit direction of `(1, f(x, y))` on a grid of points in a
rectangle, row by row from below, each row from the left. A point at which the
slope function has no value has no direction. -/

namespace InitialValue

/-- A rectangle with the numbers of grid points across and up. -/
structure Frame where
  xMin : Float
  xMax : Float
  yMin : Float
  yMax : Float
  nx : UInt64
  ny : UInt64
  deriving DecidableEq, Repr

/-- What keeps a frame from being sampled. The last of these is no error for a caller: the program
ends there. -/
inductive FrameFault where
  | notFinite
  | emptyX (low high : Float)
  | emptyY (low high : Float)
  | tooFewPoints
  | capacityOverflow
  deriving DecidableEq, Repr

/-- A range as a message shows it. -/
def FrameFault.rangeText (low high : Float) : String :=
  "[" ++ Decimal.plain low ++ ", " ++ Decimal.plain high ++ "]"

def FrameFault.message : FrameFault → String
  | .notFinite => "Slope field bounds must be finite."
  | .emptyX low high => "Slope field x range " ++ rangeText low high ++ " is empty or inverted."
  | .emptyY low high => "Slope field y range " ++ rangeText low high ++ " is empty or inverted."
  | .tooFewPoints => "Slope field needs at least 2 samples per axis."
  | .capacityOverflow => "capacity overflow"

namespace Frame

/-! ### Frames around data -/

/-- The numbers of grid points of a frame around a trajectory. -/
def standardNx : UInt64 := 15

def standardNy : UInt64 := 12

/-- The part of the span that is added on either side. -/
def margin : Float := 0.1

/-- The least and the greatest of some values. -/
def hull (values : List Float) : Float × Float :=
  values.foldl (fun (low, high) v => (Binary64.smaller low v, Binary64.larger high v))
    (Binary64.infinity, -Binary64.infinity)

/-- The hull with a margin, which is one where all values are equal. -/
def padded (values : List Float) : Float × Float :=
  let (low, high) := hull values
  let span := high - low
  let pad := if 0.0 < span then margin * span else 1.0
  (low - pad, high + pad)

/-- The frame that shows a trajectory. -/
def around (t : Trajectory) : Frame :=
  let (xMin, xMax) := padded t.xs
  let (yMin, yMax) := padded t.ys
  ⟨xMin, xMax, yMin, yMax, standardNx, standardNy⟩

/-! ### Grids -/

/-- The first reason why a frame has no grid. -/
def fault? (r : Frame) : Option FrameFault :=
  if [r.xMin, r.xMax, r.yMin, r.yMax].any (!·.isFinite) then some .notFinite
  else if r.xMax ≤ r.xMin then some (.emptyX r.xMin r.xMax)
  else if r.yMax ≤ r.yMin then some (.emptyY r.yMin r.yMax)
  else if r.nx < 2 || r.ny < 2 then some .tooFewPoints
  else none

def dx (r : Frame) : Float := (r.xMax - r.xMin) / (r.nx - 1).toFloat

def dy (r : Frame) : Float := (r.yMax - r.yMin) / (r.ny - 1).toFloat

def gridX (r : Frame) (ix : Nat) : Float := r.xMin + r.dx * (UInt64.ofNat ix).toFloat

def gridY (r : Frame) (iy : Nat) : Float := r.yMin + r.dy * (UInt64.ofNat iy).toFloat

end Frame

/-- A grid point with the direction there, if the slope function has a value. -/
structure Sample where
  x : Float
  y : Float
  direction : Option (Float × Float)
  deriving DecidableEq, Repr

/-- The unit vector in the direction of `(1, slope)`. -/
def Sample.unit (slope : Float) : Float × Float :=
  let norm := Binary64.hypotenuse 1.0 slope
  (1.0 / norm, slope / norm)

/-- The sample of a slope function at a point. -/
def Sample.take (f : Sampling.Slope Float) (x y : Float) : Sample :=
  ⟨x, y, (f x y).toOption.map unit⟩

structure DirectionField where
  frame : Frame
  samples : List Sample
  deriving DecidableEq, Repr

/-! ### Room for samples -/

/-- The bytes of a sample: two coordinates, and a direction behind a word that says whether there is
one. -/
def Sample.bytes : Nat := 2 * 8 + (8 + 2 * 8)

/-- The most bytes that the elements of one list may take up. -/
def DirectionField.maxBytes : Nat := 0x7fffffffffffffff

/-- There is room for the samples of a frame. -/
def Frame.Fits (r : Frame) : Prop :=
  Sample.bytes * (r.nx.toNat * r.ny.toNat) ≤ DirectionField.maxBytes

instance (r : Frame) : Decidable r.Fits := inferInstanceAs (Decidable (_ ≤ _))

namespace DirectionField

/-- Samples a slope function over a frame. Where there is no room for the samples their list fails:
at the start, or while it grows if their number does not fit into a word. -/
def sample (f : Sampling.Slope Float) (r : Frame) : Except FrameFault DirectionField :=
  match r.fault? with
  | some fault => .error fault
  | none =>
    if r.Fits then
      .ok ⟨r, (List.range r.ny.toNat).flatMap fun iy =>
        (List.range r.nx.toNat).map fun ix => .take f (r.gridX ix) (r.gridY iy)⟩
    else .error .capacityOverflow

/-- The sample in column `ix` of row `iy`; its place is reckoned in 64-bit words. -/
def get? (d : DirectionField) (ix iy : UInt64) : Option Sample :=
  if d.frame.nx ≤ ix then none else d.samples[(iy * d.frame.nx + ix).toNat]?

end DirectionField

end InitialValue
