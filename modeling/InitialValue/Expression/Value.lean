import InitialValue.Binary64.Elementary
import InitialValue.Expression.Parser

/-! The value of an expression at a point. Operands and arguments are evaluated
from left to right and the first failure is the answer. A result that is not a
number is a failure everywhere; an infinite one only when all operands were
finite, so that the constant `inf` may pass through an expression (`exp(-inf)` is
zero). The value of a whole expression has to be finite. -/

namespace InitialValue.Expression

/-- Divisors of a smaller magnitude count as zero: the spacing of the values above one. -/
def leastDivisor : Float := 2.220446049250313e-16

/-- The point at which a text is tried out before it is used. -/
def probePoint : Float × Float := (1.0, 1.0)

/-- Passes on the result of an operation unless it is to be refused. -/
def checked (operation : Operation) (inputs : List Float) (value : Float) :
    Except EvalError Float :=
  if value.isNaN || (value.isInf && inputs.all Float.isFinite) then .error (.nonFinite operation)
  else .ok value

/-- Rounds to a whole number of decimals, a half to the even neighbour. Beyond the range of the
exponents every digit is kept or none is. -/
def roundTo (value decimals : Float) : Option Float :=
  if !Binary64.isWhole decimals then none
  else if 308.0 < decimals then some value
  else if decimals < -308.0 then some 0.0
  else
    let places : Int :=
      if decimals < 0.0 then -((-decimals).toUInt64.toNat : Int) else decimals.toUInt64.toNat
    let scale := Binary64.wholePower 10.0 places
    let scaled := value * scale
    some (if scaled.isFinite then Binary64.roundEven scaled / scale else value)

/-- The factorials that are finite. -/
def factorialOf (x : Float) : Option Float :=
  if !Binary64.isWhole x || x < 0.0 || 170.0 < x then none
  else some ((List.range (x.toUInt64.toNat - 1)).foldl
    (fun product k => product * (UInt64.ofNat (k + 2)).toFloat) 1.0)

/-- The function itself, on arguments whose number has been checked. -/
def Builtin.compute (f : Builtin) (a : Float) (more : List Float) : Option Float :=
  match f with
  | .sin => some a.sin
  | .cos => some a.cos
  | .tan => some a.tan
  | .arcsin => some a.asin
  | .arccos => some a.acos
  | .arctan => some a.atan
  | .sinh => some a.sinh
  | .cosh => some a.cosh
  | .tanh => some a.tanh
  | .arsinh => some (Binary64.arsinh a)
  | .arcosh => some (Binary64.arcosh a)
  | .artanh => some (Binary64.artanh a)
  | .exp => some a.exp
  | .ln => some a.log
  | .log10 => some a.log10
  | .log2 => some a.log2
  | .sqrt => some a.sqrt
  | .pow => more.head?.map a.pow
  | .abs => some a.abs
  | .floor => some (Binary64.floor a)
  | .ceil => some (Binary64.ceil a)
  | .round =>
    match more with
    | [] => some (Binary64.roundEven a)
    | decimals :: _ => roundTo a decimals
  | .factorial => factorialOf a

def Builtin.apply (f : Builtin) (args : List Float) : Except EvalError Float :=
  match f.arity.accepts args.length, args with
  | true, a :: more =>
    match f.compute a more with
    | some value => checked (.builtin f) args value
    | none => .error (.nonFinite (.builtin f))
  | _, _ => .error (.arity f args.length)

def Operator.apply (op : Operator) (a b : Float) : Except EvalError Float :=
  match op with
  | .add => checked (.operator op) [a, b] (a + b)
  | .sub => checked (.operator op) [a, b] (a - b)
  | .mul => checked (.operator op) [a, b] (a * b)
  | .div =>
    if b.abs < leastDivisor then .error .divisionByZero else checked (.operator op) [a, b] (a / b)
  | .pow => checked (.operator op) [a, b] (a.pow b)

def Sign.apply : Sign → Float → Float
  | .plus, a => a
  | .minus, a => -a

namespace Tree

mutual

/-- The value at `(x, y)`, which may be infinite. -/
def evaluate (x y : Float) : Tree → Except EvalError Float
  | .literal v => .ok v
  | .symbol s => .ok (s.value x y)
  | .binary op left right => do
    let a ← evaluate x y left
    let b ← evaluate x y right
    op.apply a b
  | .signed sign operand => do
    let a ← evaluate x y operand
    return sign.apply a
  | .call f args =>
    if Builtin.greatestArity < args.length then .error (.arity f args.length)
    else do
      let values ← evaluateAll x y args
      f.apply values

def evaluateAll (x y : Float) : List Tree → Except EvalError (List Float)
  | [] => .ok []
  | t :: ts => do
    let a ← evaluate x y t
    let rest ← evaluateAll x y ts
    return a :: rest

end

end Tree

end InitialValue.Expression

namespace InitialValue.Expression

/-- The value at `(x, y)`, which is finite. -/
def evaluate (e : Expression) (x y : Float) : Except EvalError Float := do
  let value ← e.root.evaluate x y
  if value.isFinite then return value else throw (.nonFinite .result)

/-- Evaluates at the probe point. -/
def probe (e : Expression) : Except EvalError Float := e.evaluate probePoint.1 probePoint.2

/-- Whether a text is an expression with a value at the probe point. A text that fails there may
still have values elsewhere. -/
def isUsable (text : String) : Bool :=
  match parse text with
  | .ok e => e.probe.isOk
  | .error _ => false

end InitialValue.Expression
