/-! Finite binary64 values taken apart: the sign, and the magnitude as a natural
mantissa times a power of two. Every rule of this library that looks below the
arithmetic of `Float` (whole numbers, decimal texts) reads a value through this
one decoder and then works in `Nat`. -/

namespace InitialValue.Binary64

/-- The magnitude `mantissa * 2 ^ exponent`. -/
structure Magnitude where
  mantissa : Nat
  exponent : Int
  deriving DecidableEq, Repr

/-- The exponent of the smallest positive value. -/
def leastExponent : Int := -1074

/-- One more than the largest mantissa, halved: mantissas of normal values start here. -/
def normalMantissa : Nat := 0x10000000000000

/-- The sign bit, which zero carries too. -/
def isNegative (x : Float) : Bool := x.toBits >>> 63 == 1

/-- The magnitude of a finite value. -/
def magnitude (x : Float) : Magnitude :=
  let field := (x.toBits >>> 52 &&& 0x7ff).toNat
  let fraction := (x.toBits &&& 0xfffffffffffff).toNat
  if field = 0 then ⟨fraction, leastExponent⟩ else ⟨fraction + normalMantissa, field - 1075⟩

/-- A natural number below `2 ^ 53` as a value, with the given sign. -/
def ofWhole (negative : Bool) (n : Nat) : Float :=
  let x := (UInt64.ofNat n).toFloat
  if negative then -x else x

/-! ### Whole numbers

The test, and the three ways of moving a value to a neighbouring whole number. A value that is whole
or not finite stays as it is, and a result of zero keeps the sign of its argument. -/

/-- The size of one in units of the mantissa, for a magnitude with a negative exponent. -/
def Magnitude.unit (m : Magnitude) : Nat := Nat.pow 2 (-m.exponent).toNat

/-- A finite value without a fractional part. -/
def isWhole (x : Float) : Bool :=
  x.isFinite && (0 ≤ (magnitude x).exponent || (magnitude x).mantissa % (magnitude x).unit == 0)

/-- Replaces a value by one of the two whole numbers around it. The choice `up` sees the sign, the
whole part of the magnitude, what is left over, and the unit in which it is counted. -/
def toWhole (up : Bool → Nat → Nat → Nat → Bool) (x : Float) : Float :=
  if !x.isFinite || isWhole x then x
  else
    let m := magnitude x
    let whole := m.mantissa / m.unit
    let step := if up (isNegative x) whole (m.mantissa % m.unit) m.unit then 1 else 0
    ofWhole (isNegative x) (whole + step)

def floor : Float → Float := toWhole fun negative _ _ _ => negative

def ceil : Float → Float := toWhole fun negative _ _ _ => !negative

/-- The nearest whole number; a half goes to the even neighbour. -/
def roundEven : Float → Float :=
  toWhole fun _ whole left unit => unit < 2 * left || (2 * left == unit && whole % 2 == 1)

theorem toWhole_of_isWhole {x : Float} (up : Bool → Nat → Nat → Nat → Bool) (h : isWhole x = true) :
    toWhole up x = x := by simp [toWhole, h]

theorem isFinite_of_isWhole {x : Float} (h : isWhole x = true) : x.isFinite = true := by
  simp only [isWhole, Bool.and_eq_true] at h
  exact h.1

end InitialValue.Binary64
