import InitialValue.Binary64.Elementary

/-! Reading a decimal numeral: digits with at most one point, and an optional
power of ten. The value is the binary64 value nearest to the numeral; a numeral
beyond the range reads as infinity or zero, however long its exponent is. -/

namespace InitialValue.Decimal

/-- The number that a list of decimal digits denotes. -/
def ofDigits (digits : List Char) : Nat :=
  digits.foldl (fun n c => 10 * n + (c.toNat - '0'.toNat)) 0

/-- The number `digits * 10 ^ exponent`. -/
structure Numeral where
  digits : List Char
  exponent : Int

/-- The position of the last possible leading digit of a finite value, with room to spare. -/
def greatestPoint : Int := 310

/-- Numerals whose leading digit stands below this position are nearest to zero. -/
def leastPoint : Int := -330

def Numeral.value (n : Numeral) : Float :=
  let significant := n.digits.dropWhile (· == '0')
  let point := significant.length + n.exponent
  if significant.isEmpty || point < leastPoint then 0.0
  else if greatestPoint < point then Binary64.infinity
  else Float.ofScientific (ofDigits significant) (n.exponent < 0) n.exponent.natAbs

/-- The exponent that follows the letter: an optional sign and digits. -/
def exponentOf : List Char → Int
  | '-' :: digits => -(ofDigits digits : Int)
  | '+' :: digits => ofDigits digits
  | digits => ofDigits digits

def isExponentMark (c : Char) : Bool := c == 'e' || c == 'E'

/-- Takes a numeral apart; `none` when it has more than one point. -/
def numeral? (text : List Char) : Option Numeral :=
  let body := text.takeWhile (!isExponentMark ·)
  let exponent := exponentOf (text.drop (body.length + 1))
  let whole := body.takeWhile (· != '.')
  let fraction := body.drop (whole.length + 1)
  if fraction.contains '.' then none
  else some ⟨whole ++ fraction, exponent - fraction.length⟩

/-- The value of an unsigned numeral; `none` when it has more than one point. -/
def read? (text : List Char) : Option Float := (numeral? text).map Numeral.value

end InitialValue.Decimal
