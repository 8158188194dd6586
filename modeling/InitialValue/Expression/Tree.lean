import InitialValue.Expression.Builtin
import InitialValue.Expression.Symbol

/-! The trees of expressions. Parentheses leave no node, and a call may hold any
number of arguments: whether the number fits is decided where a tree is read
from text and where it is evaluated. -/

namespace InitialValue.Expression

inductive Operator where
  | add | sub | mul | div | pow
  deriving DecidableEq, Repr

def Operator.symbol : Operator → String
  | .add => "+"
  | .sub => "-"
  | .mul => "*"
  | .div => "/"
  | .pow => "^"

inductive Sign where
  | plus | minus
  deriving DecidableEq, Repr

inductive Tree where
  | literal (value : Float)
  | symbol (s : Symbol)
  | binary (op : Operator) (left right : Tree)
  | signed (sign : Sign) (operand : Tree)
  | call (f : Builtin) (args : List Tree)
  deriving Repr

namespace Catalog

/-! ### The catalog

Everything an expression may mention, arranged for a reader: the functions in groups by category,
each group at the place of its first member, and the names of constants, variables and operators. -/

/-- Adds a name to the group of its category, or starts a new group at the end. -/
def insert (category : Category) (name : String) :
    List (Category × List String) → List (Category × List String)
  | [] => [(category, [name])]
  | (c, names) :: groups =>
    if c = category then (c, names ++ [name]) :: groups
    else (c, names) :: insert category name groups

def functions : List (Category × List String) :=
  Builtin.names.foldl (fun groups (name, f) => insert f.category name groups) []

def constants : List String := Constant.names.map Prod.fst

def coordinates : List String := Symbol.coordinates.map Prod.fst

def operators : List String := ["+", "-", "*", "/", "^", "**", "()"]

end Catalog

end InitialValue.Expression
