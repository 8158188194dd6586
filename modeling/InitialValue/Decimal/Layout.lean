import InitialValue.Decimal.Shortest

/-! The texts of binary64 values. Two layouts write the shortest digits that read
back: `plain` never uses an exponent and gives whole numbers no point, `marked`
always shows a point or an exponent. A third rounds to a fixed number of places.
The sign is kept in every layout, for zero too. -/

namespace InitialValue.Decimal

/-- The texts of a value that has no digits. -/
def wordOf? (x : Float) : Option String :=
  if x.isNaN then some "NaN"
  else if x.isInf then some (if Binary64.isNegative x then "-inf" else "inf")
  else none

/-- A way of writing shortest digits. -/
structure Layout where
  /-- What follows the digits of a whole number. -/
  wholeMark : String
  /-- The positions of the point between which no exponent is used; without them it never is. -/
  positional : Option (Int × Int)

/-- Shortest digits, never an exponent: `10`, `0.00000001`. -/
def Layout.plain : Layout := ⟨"", none⟩

/-- Shortest digits with a point or an exponent: `10.0`, `1e-8`. -/
def Layout.marked : Layout := ⟨".0", some (-3, 16)⟩

def zeros (n : Int) : String := String.ofList (List.replicate n.toNat '0')

def Layout.positionalText (l : Layout) (d : Digits) : String :=
  if d.point ≤ 0 then "0." ++ zeros (-d.point) ++ String.ofList d.digits
  else if d.digits.length ≤ d.point then
    String.ofList d.digits ++ zeros (d.point - d.digits.length) ++ l.wholeMark
  else
    String.ofList (d.digits.take d.point.toNat) ++ "." ++
      String.ofList (d.digits.drop d.point.toNat)

def exponentText (d : Digits) : String :=
  let fraction := d.digits.drop 1
  String.ofList (d.digits.take 1) ++
    (if fraction.isEmpty then "" else "." ++ String.ofList fraction) ++
    "e" ++ toString (d.point - 1)

def Layout.magnitudeText (l : Layout) (m : Binary64.Magnitude) : String :=
  if m.mantissa = 0 then "0" ++ l.wholeMark
  else
    let d := shortest m
    match l.positional with
    | none => l.positionalText d
    | some (least, most) =>
      if least ≤ d.point && d.point ≤ most then l.positionalText d else exponentText d

def signText (x : Float) : String := if Binary64.isNegative x then "-" else ""

def Layout.text (l : Layout) (x : Float) : String :=
  (wordOf? x).getD (signText x ++ l.magnitudeText (Binary64.magnitude x))

def plain (x : Float) : String := Layout.plain.text x

def marked (x : Float) : String := Layout.marked.text x

/-- The quotient `num / den` rounded to a natural number; a half goes to the even neighbour. -/
def roundQuotient (num den : Nat) : Nat :=
  let left := num % den
  if den < 2 * left || (2 * left == den && num / den % 2 == 1) then num / den + 1 else num / den

/-- Digits with the point before the last `places` of them. -/
def withPlaces (places n : Nat) : String :=
  let digits := Nat.toDigits 10 n
  let padded := List.replicate (places + 1 - digits.length) '0' ++ digits
  String.ofList (padded.take (padded.length - places)) ++ "." ++
    String.ofList (padded.drop (padded.length - places))

/-- The exact value rounded to `places` decimal places, which are always written. -/
def fixed (places : Nat) (x : Float) : String :=
  let m := Binary64.magnitude x
  let num := m.mantissa * Nat.pow 2 m.exponent.toNat * Nat.pow 10 places
  (wordOf? x).getD
    (signText x ++ withPlaces places (roundQuotient num (Nat.pow 2 (-m.exponent).toNat)))

end InitialValue.Decimal
