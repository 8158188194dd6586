import InitialValue.Binary64.Magnitude

/-! The shortest decimal that reads back to a given binary64 value. The reals that
round to the value form an interval, with its ends when the mantissa is even. For
one digit, two digits and so on, the two neighbours of the value on that decimal
grid are tested; the first grid with a neighbour in the interval wins, of two
neighbours the nearer one, and the upper one when they are equally near. All
comparisons are of natural numbers. -/

namespace InitialValue.Decimal

open Binary64 (Magnitude)

/-- The decimal `0.d₁d₂… * 10 ^ point`. -/
structure Digits where
  digits : List Char
  point : Int
  deriving DecidableEq, Repr

/-- `10 ^ n`, and one for a negative exponent. -/
def powerOfTen (n : Int) : Nat := Nat.pow 10 n.toNat

/-- Whether `num / den < 10 ^ point`. -/
def liesBelow (num den : Nat) (point : Int) : Bool :=
  num * powerOfTen (-point) < den * powerOfTen point

/-- The number of digits before the decimal point of `num / den`, which may be negative: found among
the three candidates that the binary logarithms leave. -/
def pointOf (num den : Nat) : Int :=
  let estimate := ((num.log2 : Int) - den.log2) * 30103 / 100000
  if liesBelow num den estimate then estimate
  else if liesBelow num den (estimate + 1) then estimate + 1
  else estimate + 2

/-- A positive value with the ends of its interval, all three over one denominator. -/
structure Bracket where
  low : Nat
  value : Nat
  high : Nat
  den : Nat
  closed : Bool

/-- The interval of a positive magnitude: half a unit on either side, and a quarter below a power of
two. -/
def Bracket.ofMagnitude (m : Magnitude) : Bracket :=
  let factor := Nat.pow 2 m.exponent.toNat
  let narrow := m.mantissa == Binary64.normalMantissa && m.exponent != Binary64.leastExponent
  { low := (4 * m.mantissa - if narrow then 1 else 2) * factor
    value := 4 * m.mantissa * factor
    high := (4 * m.mantissa + 2) * factor
    den := 4 * Nat.pow 2 (-m.exponent).toNat
    closed := m.mantissa % 2 == 0 }

/-- Whether the decimal `n` on the grid of step `unit / scale` lies in the interval. -/
def Bracket.holds (b : Bracket) (scale unit n : Nat) : Bool :=
  if b.closed then b.low * scale ≤ n * unit && n * unit ≤ b.high * scale
  else b.low * scale < n * unit && n * unit < b.high * scale

/-- The neighbour to choose on the grid of `10 ^ last`, if one lies in the interval. -/
def Bracket.onGrid? (b : Bracket) (last : Int) : Option Nat :=
  let scale := powerOfTen (-last)
  let unit := b.den * powerOfTen last
  let n := b.value * scale / unit
  match b.holds scale unit n, b.holds scale unit (n + 1) with
  | true, true => some (if 2 * (b.value * scale) < (2 * n + 1) * unit then n else n + 1)
  | true, false => some n
  | false, true => some (n + 1)
  | false, false => none

/-- The digits of `n * 10 ^ last` without trailing zeros. -/
def Digits.ofNat (n : Nat) (last : Int) : Digits :=
  let digits := Nat.toDigits 10 n
  ⟨(digits.reverse.dropWhile (· == '0')).reverse, digits.length + last⟩

/-- Seventeen digits tell any two binary64 values apart. -/
def enoughDigits : Nat := 17

/-- Tries `room` more digits, the next grid being that of `10 ^ last`. -/
def Bracket.search (b : Bracket) (last : Int) : (room : Nat) → Digits
  | 0 => .ofNat (b.value * powerOfTen (-last) / (b.den * powerOfTen last)) last
  | room + 1 =>
    match b.onGrid? last with
    | some n => .ofNat n last
    | none => b.search (last - 1) room

/-- The shortest digits of a positive magnitude. -/
def shortest (m : Magnitude) : Digits :=
  let b := Bracket.ofMagnitude m
  b.search (pointOf b.value b.den - 1) enoughDigits

end InitialValue.Decimal
