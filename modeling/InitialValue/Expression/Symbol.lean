import InitialValue.Binary64.Elementary

/-! The names an expression may read: the two variables of the plane and the
named constants. -/

namespace InitialValue.Expression

inductive Constant where
  | pi | e | inf
  deriving DecidableEq, Repr

namespace Constant

def names : List (String × Constant) := [("pi", .pi), ("e", .e), ("euler", .e), ("inf", .inf)]

def ofName? (name : String) : Option Constant := names.lookup name

/-- The canonical name. -/
def name : Constant → String
  | .pi => "pi"
  | .e => "e"
  | .inf => "inf"

def value : Constant → Float
  | .pi => 3.141592653589793
  | .e => 2.718281828459045
  | .inf => Binary64.infinity

end Constant

inductive Symbol where
  | x | y
  | constant (c : Constant)
  deriving DecidableEq, Repr

namespace Symbol

def coordinates : List (String × Symbol) := [("x", .x), ("y", .y)]

def ofName? (name : String) : Option Symbol :=
  (coordinates.lookup name).or ((Constant.ofName? name).map .constant)

/-- The canonical name. -/
def name : Symbol → String
  | .x => "x"
  | .y => "y"
  | .constant c => c.name

/-- The value at the point `(x, y)`. -/
def value (x y : Float) : Symbol → Float
  | .x => x
  | .y => y
  | .constant c => c.value

end Symbol

end InitialValue.Expression
