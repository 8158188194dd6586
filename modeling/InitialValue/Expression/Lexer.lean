import InitialValue.Decimal.Numeral
import InitialValue.Expression.Error

/-! Cutting the text of an expression into lexemes. Blanks separate lexemes and
belong to none; every lexeme is the longest one at its place: a numeral takes all
digits and points, and an exponent only when a digit follows its letter and sign;
an identifier takes all letters, digits and underscores; two stars are one token.
Outside of names and numerals nothing but the operators, parentheses and the comma
is known, and everything else is refused by what it would mean elsewhere. -/

/-! ### Blanks

The characters that Unicode gives the property White_Space: twenty-five code points, of
which core's `Char.isWhitespace` knows the ASCII ones but two. -/

namespace InitialValue.Text

/-- The ranges of the property, first and last code point included. -/
def blankRanges : List (Nat × Nat) :=
  [(0x09, 0x0d), (0x20, 0x20), (0x85, 0x85), (0xa0, 0xa0), (0x1680, 0x1680), (0x2000, 0x200a),
    (0x2028, 0x2029), (0x202f, 0x202f), (0x205f, 0x205f), (0x3000, 0x3000)]

def isBlank (c : Char) : Bool :=
  blankRanges.any fun (first, last) => first ≤ c.toNat && c.toNat ≤ last

theorem isBlank_of_isWhitespace {c : Char} (h : c.isWhitespace = true) : isBlank c = true := by
  simp only [Char.isWhitespace, Bool.or_eq_true, decide_eq_true_eq] at h
  rcases h with ((h | h) | h) | h <;> subst h <;> decide

example : (blankRanges.map fun (first, last) => last + 1 - first).sum = 25 := by decide

end InitialValue.Text

/-! ### Lexemes -/

namespace InitialValue.Expression

def isWordStart (c : Char) : Bool := c.isAlpha || c == '_'

def isWordPart (c : Char) : Bool := c.isAlphanum || c == '_'

def isNumeralPart (c : Char) : Bool := c.isDigit || c == '.'

/-- Whether a numeral starts at `c`, with `cs` after it. -/
def startsNumeral (c : Char) (cs : List Char) : Bool :=
  c.isDigit || (c == '.' && (cs.head?.map Char.isDigit).getD false)

def startsWithSign : List Char → Bool
  | '+' :: _ | '-' :: _ => true
  | _ => false

/-- The exponent at the front of a text, empty unless it has a digit. -/
def exponentPart : List Char → List Char
  | [] => []
  | mark :: cs =>
    let sign := if startsWithSign cs then cs.take 1 else []
    let digits := (cs.drop sign.length).takeWhile Char.isDigit
    if Decimal.isExponentMark mark && !digits.isEmpty then mark :: (sign ++ digits) else []

/-- What continues a numeral after its first character. -/
def numeralTail (cs : List Char) : List Char :=
  let body := cs.takeWhile isNumeralPart
  body ++ exponentPart (cs.drop body.length)

/-- The construct that a character starts which starts no lexeme. -/
def refused (c : Char) (next : Option Char) : Construct :=
  match c with
  | '/' => .floorDivision
  | '<' | '>' | '!' => .comparison
  | '=' => if next = some '=' then .comparison else .assignment
  | '.' => .attribute
  | '[' | ']' => .indexing
  | '\x7b' | '\x7d' => .braces
  | '\x27' | '\x22' => .quotation
  | '%' => .modulo
  | '&' | '|' | '~' => .bitwise
  | ':' => .colon
  | ';' => .separator
  | c => .character c

/-- The operator, parenthesis or comma at `c`, with the rest of its characters. -/
def punctuation? (c : Char) (next : Option Char) : Option (Token × List Char) :=
  match c with
  | '+' => some (.plus, [])
  | '-' => some (.minus, [])
  | '*' => some (if next = some '*' then (.caret, ['*']) else (.star, []))
  | '/' => if next = some '/' then none else some (.slash, [])
  | '^' => some (.caret, [])
  | '(' => some (.opening, [])
  | ')' => some (.closing, [])
  | ',' => some (.comma, [])
  | _ => none

/-- The token at `c`, with the characters of the lexeme that come after `c`. -/
def firstToken (offset : Nat) (c : Char) (cs : List Char) : Except ParseError (Token × List Char) :=
  if startsNumeral c cs then
    match Decimal.read? (c :: numeralTail cs) with
    | some v => .ok (.number v, numeralTail cs)
    | none => .error (.malformed (.numeral (c :: numeralTail cs)) offset)
  else if isWordStart c then
    .ok (.identifier (String.ofList (c :: cs.takeWhile isWordPart)), cs.takeWhile isWordPart)
  else
    match punctuation? c cs.head? with
    | some token => .ok token
    | none => .error (.unsupported (refused c cs.head?) offset)

/-- The lexemes of a text that `offset` characters precede. -/
def lexemesFrom (offset : Nat) : List Char → Except ParseError (List Lexeme)
  | [] => .ok []
  | c :: cs =>
    if Text.isBlank c then lexemesFrom (offset + 1) cs
    else do
      let (token, tail) ← firstToken offset c cs
      let rest ← lexemesFrom (offset + 1 + tail.length) (cs.drop tail.length)
      return ⟨token, offset, c :: tail⟩ :: rest
termination_by cs => cs.length

def lexemes (text : List Char) : Except ParseError (List Lexeme) := lexemesFrom 0 text

end InitialValue.Expression
