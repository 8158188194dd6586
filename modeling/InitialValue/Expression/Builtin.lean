/-! The functions an expression may call. Each has one canonical name, used in
messages, a category, an arity, and one or more spellings in the table of names.
The order of the table is the order in which a reader is shown the names. -/

namespace InitialValue.Expression

/-- Inclusive bounds on the number of arguments of a function. -/
structure Arity where
  least : Nat
  most : Nat
  deriving DecidableEq, Repr

namespace Arity

def exactly (n : Nat) : Arity := ⟨n, n⟩

def accepts (a : Arity) (count : Nat) : Bool := a.least ≤ count && count ≤ a.most

def text (a : Arity) : String :=
  if a.least = a.most then toString a.least else toString a.least ++ " to " ++ toString a.most

theorem accepts_iff {a : Arity} {n : Nat} : a.accepts n = true ↔ a.least ≤ n ∧ n ≤ a.most := by
  simp [accepts]

end Arity

inductive Category where
  | trigonometric | hyperbolic | exponential | power | rounding | special
  deriving DecidableEq, Repr

def Category.label : Category → String
  | .trigonometric => "trigonometric"
  | .hyperbolic => "hyperbolic"
  | .exponential => "exponential"
  | .power => "power"
  | .rounding => "rounding"
  | .special => "special"

inductive Builtin where
  | sin | cos | tan | arcsin | arccos | arctan
  | sinh | cosh | tanh | arsinh | arcosh | artanh
  | exp | ln | log10 | log2
  | sqrt | pow | abs
  | floor | ceil | round
  | factorial
  deriving DecidableEq, Repr

namespace Builtin

/-- Every spelling, in the order in which they are listed for a reader. -/
def names : List (String × Builtin) :=
  [("sin", .sin), ("cos", .cos), ("tan", .tan),
    ("arcsin", .arcsin), ("arccos", .arccos), ("arctan", .arctan),
    ("asin", .arcsin), ("acos", .arccos), ("atan", .arctan),
    ("sinh", .sinh), ("cosh", .cosh), ("tanh", .tanh),
    ("arcsinh", .arsinh), ("arccosh", .arcosh), ("arctanh", .artanh),
    ("asinh", .arsinh), ("acosh", .arcosh), ("atanh", .artanh),
    ("exp", .exp), ("log", .ln), ("ln", .ln), ("log10", .log10), ("log2", .log2),
    ("sqrt", .sqrt), ("pow", .pow), ("abs", .abs), ("fabs", .abs),
    ("floor", .floor), ("ceil", .ceil), ("round", .round), ("factorial", .factorial)]

def ofName? (name : String) : Option Builtin := names.lookup name

/-- The canonical name. -/
def name : Builtin → String
  | .sin => "sin"
  | .cos => "cos"
  | .tan => "tan"
  | .arcsin => "arcsin"
  | .arccos => "arccos"
  | .arctan => "arctan"
  | .sinh => "sinh"
  | .cosh => "cosh"
  | .tanh => "tanh"
  | .arsinh => "arcsinh"
  | .arcosh => "arccosh"
  | .artanh => "arctanh"
  | .exp => "exp"
  | .ln => "log"
  | .log10 => "log10"
  | .log2 => "log2"
  | .sqrt => "sqrt"
  | .pow => "pow"
  | .abs => "abs"
  | .floor => "floor"
  | .ceil => "ceil"
  | .round => "round"
  | .factorial => "factorial"

def category : Builtin → Category
  | .sin | .cos | .tan | .arcsin | .arccos | .arctan => .trigonometric
  | .sinh | .cosh | .tanh | .arsinh | .arcosh | .artanh => .hyperbolic
  | .exp | .ln | .log10 | .log2 => .exponential
  | .sqrt | .pow | .abs => .power
  | .floor | .ceil | .round => .rounding
  | .factorial => .special

def arity : Builtin → Arity
  | .pow => .exactly 2
  | .round => ⟨1, 2⟩
  | _ => .exactly 1

/-- No function takes more arguments than this. -/
def greatestArity : Nat := 2

theorem ofName?_name (f : Builtin) : ofName? f.name = some f := by cases f <;> decide +kernel

theorem arity_most_le (f : Builtin) : f.arity.most ≤ greatestArity := by cases f <;> decide

theorem one_le_arity_least (f : Builtin) : 1 ≤ f.arity.least := by cases f <;> decide

end Builtin

end InitialValue.Expression
