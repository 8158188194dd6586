import InitialValue.Binary64.Magnitude

/-! Elementary functions that the arithmetic of `Float` does not bring along: the
smaller and the larger of two values, the length of a right triangle's long side,
the logarithm near one, the inverse hyperbolic functions written with logarithms,
and whole powers. -/

namespace InitialValue.Binary64

def infinity : Float := 1.0 / 0.0

/-! ### The smaller and the larger of two values

An argument that is not a number is passed over, so that a fold over data sees only the
numbers in it; of two equal values the first one is kept. -/

def smaller (a b : Float) : Float :=
  if a.isNaN then b else if b < a then b else a

def larger (a b : Float) : Float :=
  if a.isNaN then b else if a < b then b else a

/-! ### Lengths and logarithms -/

/-- The long side of a right triangle, scaled by the larger leg so that no square overflows. It is
infinite with an infinite leg, whatever the other one is. -/
def hypotenuse (a b : Float) : Float :=
  let long := larger a.abs b.abs
  let short := smaller a.abs b.abs
  if long.isInf then long
  else if a.isNaN || b.isNaN then a + b
  else if long == 0.0 then long
  else
    let ratio := short / long
    long * (1.0 + ratio * ratio).sqrt

/-- `log (1 + x)` without the loss of digits for small `x`: the rounding error of `1 + x` is undone
by the factor `x / ((1 + x) - 1)`. -/
def logOnePlus (x : Float) : Float :=
  let shifted := 1.0 + x
  if shifted == 1.0 then x
  else if shifted.isInf then shifted
  else shifted.log * (x / (shifted - 1.0))

/-- The magnitude of `a` with the sign of `b`. -/
def withSignOf (a b : Float) : Float :=
  if isNegative b then -a.abs else a.abs

def arsinh (x : Float) : Float :=
  let a := x.abs
  let inverse := 1.0 / a
  withSignOf (logOnePlus (a + a / (hypotenuse 1.0 inverse + inverse))) x

def arcosh (x : Float) : Float :=
  if x < 1.0 then 0.0 / 0.0 else (x + (x - 1.0).sqrt * (x + 1.0).sqrt).log

def artanh (x : Float) : Float := 0.5 * logOnePlus (2.0 * x / (1.0 - x))

/-! ### Whole powers -/

/-- Repeated squaring: `result * base ^ n`, for exponents with at most `bits` binary digits. -/
def powerLoop (result base : Float) (n : Nat) : (bits : Nat) → Float
  | 0 => result
  | bits + 1 =>
    let result := if n % 2 = 1 then result * base else result
    if n / 2 = 0 then result else powerLoop result (base * base) (n / 2) bits

/-- A whole power; a negative one is the reciprocal of the positive one. -/
def wholePower (base : Float) (n : Int) : Float :=
  let power := powerLoop 1.0 base n.natAbs (n.natAbs + 1)
  if n < 0 then 1.0 / power else power

end InitialValue.Binary64
