import InitialValue.Expression.Lexer

/-! Reading a tree from lexemes. A sum is a chain of products and a product a
chain of unaries, both grouped to the left; a unary is a sign before a unary, or a
power; the exponent of a power is a unary, so powers group to the right and a sign
binds less tightly than a power. Parentheses, signs, exponents and arguments each
descend into another unary, and `unary` counts the levels that are left. Every
parser takes at least one lexeme, which its result proves; the chains and the
argument lists end because of that. -/

namespace InitialValue.Expression

/-- A value read from the front of `ts`, and the rest, which is shorter. -/
structure Parsed (α : Type) (ts : List Lexeme) where
  value : α
  rest : List Lexeme
  shorter : rest.length < ts.length

abbrev Parser (α : Type) := (ts : List Lexeme) → Except ParseError (Parsed α ts)

namespace Parsed

variable {α β : Type} {ts us : List Lexeme}

def map (f : α → β) (p : Parsed α ts) : Parsed β ts := ⟨f p.value, p.rest, p.shorter⟩

/-- The same reading, seen from a longer list. -/
def widen (p : Parsed α ts) (h : ts.length ≤ us.length) : Parsed α us :=
  ⟨p.value, p.rest, Nat.lt_of_lt_of_le p.shorter h⟩

end Parsed

def additive? : Token → Option Operator
  | .plus => some .add
  | .minus => some .sub
  | _ => none

def multiplicative? : Token → Option Operator
  | .star => some .mul
  | .slash => some .div
  | _ => none

/-- Extends `left` by operators and operands, grouping to the left. -/
def chain (operator? : Token → Option Operator) (operand : Parser Tree) {ts : List Lexeme}
    (left : Parsed Tree ts) : Except ParseError (Parsed Tree ts) :=
  match h : left.rest with
  | [] => .ok left
  | t :: rest =>
    match operator? t.token with
    | none => .ok left
    | some op =>
      match operand rest with
      | .error e => .error e
      | .ok right =>
        have : right.rest.length < left.rest.length := by
          have := right.shorter; simp [h]; omega
        chain operator? operand
          ⟨.binary op left.value right.value, right.rest, Nat.lt_trans this left.shorter⟩
termination_by left.rest.length

def term (unary : Parser Tree) : Parser Tree := fun ts =>
  unary ts >>= chain multiplicative? unary

def sum (unary : Parser Tree) : Parser Tree := fun ts =>
  term unary ts >>= chain additive? (term unary)

/-- Arguments up to the closing parenthesis, at least one. The text ends after `stop` characters. -/
def arguments (argument : Parser Tree) (stop : Nat) (ts : List Lexeme) :
    Except ParseError (Parsed (List Tree) ts) :=
  match argument ts with
  | .error e => .error e
  | .ok first =>
    match h : first.rest with
    | [] => .error (.malformed (.expectedClosing none) stop)
    | t :: rest =>
      have shorter : rest.length < ts.length := by have := first.shorter; simp [h] at this; omega
      match t.token with
      | .closing => .ok ⟨[first.value], rest, shorter⟩
      | .comma =>
        match arguments argument stop rest with
        | .error e => .error e
        | .ok more => .ok ((more.map (first.value :: ·)).widen (Nat.le_of_lt shorter))
      | _ => .error (.malformed (.expectedSeparator t.token) t.offset)
termination_by ts.length

/-- The arguments of a call whose opening parenthesis has been read. -/
def argumentList (argument : Parser Tree) (stop : Nat) : Parser (List Tree)
  | [] => arguments argument stop []
  | t :: ts =>
    match t.token with
    | .closing => .ok ⟨[], ts, by simp⟩
    | _ => arguments argument stop (t :: ts)

/-- A call to `name`, which stands at `position`, from after its opening parenthesis. -/
def call (unary : Parser Tree) (stop : Nat) (name : String) (position : Nat) : Parser Tree :=
  fun ts =>
  match Builtin.ofName? name with
  | none => .error (.unsupported (.call name) position)
  | some f =>
    match argumentList (sum unary) stop ts with
    | .error e => .error e
    | .ok args =>
      if f.arity.accepts args.value.length then .ok (args.map (.call f))
      else .error (.arity f args.value.length position)

/-- The closing parenthesis after `inner`. -/
def closed {ts : List Lexeme} (stop : Nat) (inner : Parsed Tree ts) :
    Except ParseError (Parsed Tree ts) :=
  match h : inner.rest with
  | [] => .error (.malformed (.expectedClosing none) stop)
  | t :: rest =>
    match t.token with
    | .closing => .ok ⟨inner.value, rest, by have := inner.shorter; simp [h] at this; omega⟩
    | _ => .error (.malformed (.expectedClosing t.token) t.offset)

def primary (unary : Parser Tree) (stop : Nat) : Parser Tree
  | [] => .error (.malformed (.unexpected none) stop)
  | t :: ts =>
    match t.token with
    | .number v => .ok ⟨.literal v, ts, by simp⟩
    | .identifier name =>
      match ts with
      | ⟨.opening, _, _⟩ :: inside =>
        (call unary stop name t.offset inside).map (·.widen (by simp; omega))
      | rest =>
        match Symbol.ofName? name with
        | some s => .ok ⟨.symbol s, rest, by simp⟩
        | none => .error (.unsupported (.identifier name) t.offset)
    | .opening => (sum unary ts >>= closed stop).map (·.widen (by simp))
    | _ => .error (.malformed (.unexpected t.token) t.offset)

/-- The exponent after `base`, if a caret follows it. -/
def raised (unary : Parser Tree) {ts : List Lexeme} (base : Parsed Tree ts) :
    Except ParseError (Parsed Tree ts) :=
  match h : base.rest with
  | ⟨.caret, _, _⟩ :: rest =>
    (unary rest).map fun p => (p.map (.binary .pow base.value)).widen (by
      have := base.shorter; simp [h] at this; omega)
  | _ => .ok base

def power (unary : Parser Tree) (stop : Nat) : Parser Tree := fun ts =>
  primary unary stop ts >>= raised unary

/-- A sign before a unary, or a power. -/
def signed (unary : Parser Tree) (stop : Nat) : Parser Tree
  | ⟨.minus, _, _⟩ :: ts => (unary ts).map fun p => (p.map (.signed .minus)).widen (by simp)
  | ⟨.plus, _, _⟩ :: ts => (unary ts).map fun p => (p.map (.signed .plus)).widen (by simp)
  | ts => power unary stop ts

/-- A unary with `room` levels of nesting left, its own included. -/
def unary (stop : Nat) : (room : Nat) → Parser Tree
  | 0, _ => .error .tooDeep
  | room + 1, ts => signed (unary stop room) stop ts

/-- The tree of all lexemes of a text that is `stop` characters long. -/
def treeOf (stop : Nat) (ts : List Lexeme) : Except ParseError Tree :=
  match sum (unary stop maxNesting) ts with
  | .error e => .error e
  | .ok p =>
    match p.rest with
    | [] => .ok p.value
    | t :: _ => .error (.malformed (.unexpected t.token) t.offset)

end InitialValue.Expression

namespace InitialValue

/-- A right-hand side `f(x, y)` as it was typed, with its tree. -/
structure Expression where
  source : String
  root : Expression.Tree
  deriving Repr

namespace Expression

/-- Reads an expression; its length is checked before anything else. -/
def parse (text : String) : Except ParseError Expression :=
  if maxLength < text.length then .error .tooLong
  else do
    let ts ← lexemes text.toList
    let root ← treeOf text.length ts
    return ⟨text, root⟩

end Expression

end InitialValue
