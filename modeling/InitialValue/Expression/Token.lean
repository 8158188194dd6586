import InitialValue.Decimal.Layout

/-! The tokens of expressions, and lexemes: tokens with the place and the
characters they were read from. -/

namespace InitialValue.Expression

inductive Token where
  | number (value : Float)
  | identifier (name : String)
  | plus | minus | star | slash | caret
  | opening | closing | comma
  deriving DecidableEq, Repr

/-- How a message speaks of a token. -/
def Token.description : Token → String
  | .number v => "number " ++ Decimal.plain v
  | .identifier name => "identifier `" ++ name ++ "`"
  | .plus => "`+`"
  | .minus => "`-`"
  | .star => "`*`"
  | .slash => "`/`"
  | .caret => "`^`"
  | .opening => "`(`"
  | .closing => "`)`"
  | .comma => "`,`"

/-- A token, the number of characters before it, and the characters it consists of. -/
structure Lexeme where
  token : Token
  offset : Nat
  text : List Char
  deriving DecidableEq, Repr

end InitialValue.Expression
