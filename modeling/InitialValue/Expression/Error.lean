import InitialValue.Expression.Token
import InitialValue.Expression.Tree

/-! What can be wrong with the text of an expression, and what can go wrong when
an expression is evaluated. Errors are causes; each has one message, and every
error belongs to one of five kinds. Positions count the characters before the
fault. -/

namespace InitialValue.Expression

/-- Longest text of an expression, in characters. -/
def maxLength : Nat := 4096

/-- Deepest nesting of parentheses, signs, exponents and calls. -/
def maxNesting : Nat := 64

inductive ErrorKind where
  | unsupportedConstruct | divisionByZero | nonFiniteResult | arityError | parseError
  deriving DecidableEq, Repr

/-! ### Texts that are not expressions -/

/-- Things that other notations have and expressions do not. -/
inductive Construct where
  | floorDivision | comparison | assignment | attribute | indexing | braces | quotation
  | modulo | bitwise | colon | separator
  | character (c : Char)
  | identifier (name : String)
  | call (name : String)
  deriving DecidableEq, Repr

def Construct.description : Construct → String
  | .floorDivision => "floor division `//`"
  | .comparison => "comparison operator"
  | .assignment => "assignment or keyword argument `=`"
  | .attribute => "attribute access `.`"
  | .indexing => "indexing or list literal"
  | .braces => "set or dict literal"
  | .quotation => "string literal"
  | .modulo => "modulo operator `%`"
  | .bitwise => "bitwise operator"
  | .colon => "slice or lambda body `:`"
  | .separator => "statement separator `;`"
  | .character c => "character `" ++ c.toString ++ "`"
  | .identifier name => "identifier `" ++ name ++ "`"
  | .call name => "call to `" ++ name ++ "`"

/-- How a message speaks of the next token, or of the end of the text when there is none. -/
def describeNext : Option Token → String
  | none => "end of input"
  | some t => t.description

/-- A breach of the grammar; `next` is the token that stands where it may not. -/
inductive SyntaxFault where
  | numeral (text : List Char)
  | unexpected (next : Option Token)
  | expectedClosing (next : Option Token)
  | expectedSeparator (next : Token)
  deriving DecidableEq, Repr

def SyntaxFault.description : SyntaxFault → String
  | .numeral text => "invalid number literal `" ++ String.ofList text ++ "`"
  | .unexpected next => "unexpected " ++ describeNext next
  | .expectedClosing next => "expected `)`, found " ++ describeNext next
  | .expectedSeparator next => "expected `,` or `)`, found " ++ next.description

inductive ParseError where
  | malformed (fault : SyntaxFault) (position : Nat)
  | unsupported (construct : Construct) (position : Nat)
  | arity (f : Builtin) (found position : Nat)
  | tooLong
  | tooDeep
  deriving DecidableEq, Repr

def arityMessage (f : Builtin) (found : Nat) : String :=
  "`" ++ f.name ++ "` expects " ++ f.arity.text ++ " argument(s), got " ++ toString found

namespace ParseError

def message : ParseError → String
  | .malformed fault position =>
    "syntax error at position " ++ toString position ++ ": " ++ fault.description
  | .unsupported construct position =>
    "unsupported construct at position " ++ toString position ++ ": " ++ construct.description
  | .arity f found position => arityMessage f found ++ " (position " ++ toString position ++ ")"
  | .tooLong => "expression is longer than " ++ toString maxLength ++ " characters"
  | .tooDeep => "expression nests deeper than " ++ toString maxNesting ++ " levels"

def kind : ParseError → ErrorKind
  | .unsupported .. => .unsupportedConstruct
  | .arity .. => .arityError
  | .malformed .. | .tooLong | .tooDeep => .parseError

end ParseError

/-! ### Values that are not numbers -/

/-- The operations whose result is checked. -/
inductive Operation where
  | builtin (f : Builtin)
  | operator (op : Operator)
  | result
  | stepUpdate
  | predictor
  | stage (n : Nat)
  deriving DecidableEq, Repr

def Operation.name : Operation → String
  | .builtin f => f.name
  | .operator op => op.symbol
  | .result => "result"
  | .stepUpdate => "step update"
  | .predictor => "predictor"
  | .stage n => "rk4 stage " ++ toString n

inductive EvalError where
  | parse (e : ParseError)
  | divisionByZero
  | nonFinite (operation : Operation)
  | arity (f : Builtin) (found : Nat)
  deriving DecidableEq, Repr

namespace EvalError

def message : EvalError → String
  | .parse e => e.message
  | .divisionByZero => "division by zero"
  | .nonFinite operation => "`" ++ operation.name ++ "` produced a non-finite value"
  | .arity f found => arityMessage f found

def kind : EvalError → ErrorKind
  | .parse e => e.kind
  | .divisionByZero => .divisionByZero
  | .nonFinite _ => .nonFiniteResult
  | .arity .. => .arityError

end EvalError

end InitialValue.Expression
