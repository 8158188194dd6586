import InitialValue.Proofs.Grammar

/-! The phrases of the grammar as mere lists of tokens, without trees and levels. How many
arguments a function may have is left open: with the numbers that it accepts, the phrases
are those that have a derivation, and with any number they are what a text can be before
arguments are counted. Such a list is read from left to right with no more to remember than
what is awaited and which parentheses are open. Where that reading gets stuck, no phrase
goes on. -/

namespace InitialValue.Expression

/-! ### Phrases without trees -/

/-- The tokens are a phrase, however deep it nests, in which functions have allowed numbers of
arguments. -/
inductive Forms (allowed : Builtin → Nat → Prop) : Phrase → List Token → Prop
  | ofTerm {ts : List Token} : Forms allowed .term ts → Forms allowed .sum ts
  | sum {ts us : List Token} {t : Token} : t ∈ [.plus, .minus] → Forms allowed .sum ts →
      Forms allowed .term us → Forms allowed .sum (ts ++ t :: us)
  | ofUnary {ts : List Token} : Forms allowed .unary ts → Forms allowed .term ts
  | term {ts us : List Token} {t : Token} : t ∈ [.star, .slash] → Forms allowed .term ts →
      Forms allowed .unary us → Forms allowed .term (ts ++ t :: us)
  | ofPower {ts : List Token} : Forms allowed .power ts → Forms allowed .unary ts
  | signed {ts : List Token} {t : Token} : t ∈ [.plus, .minus] → Forms allowed .unary ts →
      Forms allowed .unary (t :: ts)
  | ofPrimary {ts : List Token} : Forms allowed .primary ts → Forms allowed .power ts
  | power {ts us : List Token} : Forms allowed .primary ts → Forms allowed .unary us →
      Forms allowed .power (ts ++ .caret :: us)
  | number (v : Float) : Forms allowed .primary [.number v]
  | symbol {name : String} {s : Symbol} : Symbol.ofName? name = some s →
      Forms allowed .primary [.identifier name]
  | call {name : String} {f : Builtin} (args : List (List Token)) : Builtin.ofName? name = some f →
      (∀ arg ∈ args, Forms allowed .sum arg) → allowed f args.length →
      Forms allowed .primary (.identifier name :: .opening :: (commaSeparated args ++ [.closing]))
  | group {ts : List Token} : Forms allowed .sum ts →
    Forms allowed .primary (.opening :: (ts ++ [.closing]))

/-- The number of arguments is left aside. -/
def anyNumber : Builtin → Nat → Prop := fun _ _ => True

theorem Derives.forms_accepted {n : Nat} {p : Phrase} {ts : List Token} {a : Tree}
    (h : Derives n p ts a) : Forms (fun f count => f.arity.accepts count = true) p ts := by
  induction h with
  | ofTerm _ ih => exact .ofTerm ih
  | add _ _ iha ihb | sub _ _ iha ihb => exact .sum (by simp) iha ihb
  | ofUnary _ ih => exact .ofUnary ih
  | mul _ _ iha ihb | div _ _ iha ihb => exact .term (by simp) iha ihb
  | plus _ ih | minus _ ih => exact .signed (by simp) ih
  | ofPower _ ih => exact .ofPower ih
  | ofPrimary _ ih => exact .ofPrimary ih
  | pow _ _ iha ihb => exact .power iha ihb
  | number v => exact .number v
  | symbol hs => exact .symbol hs
  | call args hf _ ha ih =>
    exact .call _ hf (by simpa using fun ts a hmem => ih (ts, a) hmem) (by simpa using ha)
  | group _ ih => exact .group ih

theorem Forms.mono {allowed allowed' : Builtin → Nat → Prop} {p : Phrase} {ts : List Token}
    (h : Forms allowed p ts) (hall : ∀ f count, allowed f count → allowed' f count) :
    Forms allowed' p ts := by
  induction h with
  | ofTerm _ ih => exact .ofTerm ih
  | sum ht _ _ iha ihb => exact .sum ht iha ihb
  | ofUnary _ ih => exact .ofUnary ih
  | term ht _ _ iha ihb => exact .term ht iha ihb
  | ofPower _ ih => exact .ofPower ih
  | signed ht _ ih => exact .signed ht ih
  | ofPrimary _ ih => exact .ofPrimary ih
  | power _ _ iha ihb => exact .power iha ihb
  | number v => exact .number v
  | symbol hs => exact .symbol hs
  | call args hf _ ha ih => exact .call args hf ih (hall _ _ ha)
  | group _ ih => exact .group ih

/-- What has a derivation is a phrase. -/
theorem Derives.forms {n : Nat} {p : Phrase} {ts : List Token} {a : Tree} (h : Derives n p ts a) :
    Forms anyNumber p ts :=
  h.forms_accepted.mono fun _ _ _ => trivial

/-- One bound on the levels serves two phrases. -/
theorem exists_derives_both {p q : Phrase} {ts us : List Token} (h : ∃ n a, Derives n p ts a)
    (h' : ∃ n b, Derives n q us b) : ∃ n a b, Derives n p ts a ∧ Derives n q us b := by
  obtain ⟨n, a, ha⟩ := h
  obtain ⟨k, b, hb⟩ := h'
  exact ⟨max n k, a, b, ha.mono (Nat.le_max_left n k), hb.mono (Nat.le_max_right n k)⟩

theorem exists_derives_all {args : List (List Token)}
    (h : ∀ arg ∈ args, ∃ n a, Derives n .sum arg a) :
    ∃ (n : Nat) (parts : List (List Token × Tree)), parts.map Prod.fst = args ∧
      ∀ part ∈ parts, Derives n .sum part.1 part.2 := by
  induction args with
  | nil => exact ⟨0, [], rfl, by simp⟩
  | cons arg args ih =>
    rw [List.forall_mem_cons] at h
    obtain ⟨⟨n, a, ha⟩, hargs⟩ := h
    obtain ⟨k, parts, rfl, hparts⟩ := ih hargs
    refine ⟨max n k, (arg, a) :: parts, rfl, List.forall_mem_cons.mpr ⟨?_, fun part hmem => ?_⟩⟩
    · exact ha.mono (Nat.le_max_left n k)
    · exact (hparts part hmem).mono (Nat.le_max_right n k)

/-- With the numbers of arguments that the functions accept, phrases are what has a derivation. -/
theorem forms_accepted_iff {p : Phrase} {ts : List Token} :
    Forms (fun f count => f.arity.accepts count = true) p ts ↔ ∃ n a, Derives n p ts a := by
  refine ⟨fun h => ?_, fun ⟨n, a, h⟩ => h.forms_accepted⟩
  induction h with
  | ofTerm _ ih => exact ih.imp fun n => Exists.imp fun a => .ofTerm
  | sum ht _ _ iha ihb =>
    obtain ⟨n, a, b, ha, hb⟩ := exists_derives_both iha ihb
    obtain rfl | rfl : _ = Token.plus ∨ _ = Token.minus := by simpa using ht
    · exact ⟨n, _, .add ha hb⟩
    · exact ⟨n, _, .sub ha hb⟩
  | ofUnary _ ih => exact ih.imp fun n => Exists.imp fun a => .ofUnary
  | term ht _ _ iha ihb =>
    obtain ⟨n, a, b, ha, hb⟩ := exists_derives_both iha ihb
    obtain rfl | rfl : _ = Token.star ∨ _ = Token.slash := by simpa using ht
    · exact ⟨n, _, .mul ha hb⟩
    · exact ⟨n, _, .div ha hb⟩
  | ofPower _ ih =>
    obtain ⟨n, a, h⟩ := ih
    exact ⟨n + 1, a, .ofPower h⟩
  | signed ht _ ih =>
    obtain ⟨n, a, h⟩ := ih
    obtain rfl | rfl : _ = Token.plus ∨ _ = Token.minus := by simpa using ht
    · exact ⟨n + 1, _, .plus h⟩
    · exact ⟨n + 1, _, .minus h⟩
  | ofPrimary _ ih => exact ih.imp fun n => Exists.imp fun a => .ofPrimary
  | power _ _ iha ihb =>
    obtain ⟨n, a, b, ha, hb⟩ := exists_derives_both iha ihb
    exact ⟨n, _, .pow ha hb⟩
  | number v => exact ⟨0, _, .number v⟩
  | symbol hs => exact ⟨0, _, .symbol hs⟩
  | call args hf _ ha ih =>
    obtain ⟨n, parts, rfl, hparts⟩ := exists_derives_all ih
    exact ⟨n, _, .call parts hf hparts (by simpa using ha)⟩
  | group _ ih => exact ih.imp fun n => Exists.imp fun a => .group

/-- A number is a phrase of any kind. -/
theorem forms_number (p : Phrase) (v : Float) : Forms anyNumber p [.number v] := by
  have hprimary : Forms anyNumber .primary [.number v] := .number v
  have hunary := Forms.ofPower (.ofPrimary hprimary)
  cases p with
  | sum => exact .ofTerm (.ofUnary hunary)
  | term => exact .ofUnary hunary
  | unary => exact hunary
  | power => exact .ofPrimary hprimary
  | primary => exact hprimary

/-! ### Reading from left to right -/

def Token.isOperator : Token → Bool
  | .plus | .minus | .star | .slash | .caret => true
  | _ => false

theorem Token.isOperator_of_mem : (∀ t ∈ [Token.plus, .minus], t.isOperator = true) ∧
    ∀ t ∈ [Token.star, .slash], t.isOperator = true := by
  simp [isOperator]

/-- What the next token has to be: the start of an operand, that or a closing parenthesis behind the
opening one of a call, the opening one behind the name of a function, or what follows an operand. -/
inductive Awaited where
  | operand | argument | parenthesis | operator
  deriving DecidableEq, Repr

/-- An open parenthesis around an operand or around arguments. -/
inductive Bracket where
  | group | call
  deriving DecidableEq, Repr

/-- What is awaited, and the open parentheses from the inside out. -/
abbrev Front := Awaited × List Bracket

variable {brackets : List Bracket} {s s' s'' : Front} {t : Token} {ts us : List Token} {p : Phrase}

/-- The start of an operand. -/
def beginOperand (brackets : List Bracket) : Token → Option Front
  | .number _ => some (.operator, brackets)
  | .identifier name =>
    if (Symbol.ofName? name).isSome then some (.operator, brackets)
    else if (Builtin.ofName? name).isSome then some (.parenthesis, brackets)
    else none
  | .plus | .minus => some (.operand, brackets)
  | .opening => some (.operand, .group :: brackets)
  | _ => none

/-- Reads one more token, if it is awaited. -/
def advance : Front → Token → Option Front
  | (.operand, brackets), t => beginOperand brackets t
  | (.argument, .call :: brackets), .closing => some (.operator, brackets)
  | (.argument, brackets), t => beginOperand brackets t
  | (.parenthesis, brackets), .opening => some (.argument, .call :: brackets)
  | (.operator, brackets), .plus | (.operator, brackets), .minus | (.operator, brackets), .star
  | (.operator, brackets), .slash | (.operator, brackets), .caret => some (.operand, brackets)
  | (.operator, _ :: brackets), .closing => some (.operator, brackets)
  | (.operator, .call :: brackets), .comma => some (.operand, .call :: brackets)
  | _, _ => none

/-- Reading the tokens leads from one front to another. -/
def Leads (s : Front) (ts : List Token) (s' : Front) : Prop := ts.foldlM advance s = some s'

@[simp] theorem leads_nil_iff : Leads s [] s' ↔ s = s' := by simp [Leads]

@[simp] theorem leads_cons_iff :
    Leads s (t :: ts) s'' ↔ ∃ s', advance s t = some s' ∧ Leads s' ts s'' := by
  simp [Leads, List.foldlM_cons, Option.bind_eq_some_iff]

theorem leads_append_iff : Leads s (ts ++ us) s'' ↔ ∃ s', Leads s ts s' ∧ Leads s' us s'' := by
  simp [Leads, List.foldlM_append, Option.bind_eq_some_iff]

theorem Leads.append (h : Leads s ts s') (h' : Leads s' us s'') : Leads s (ts ++ us) s'' :=
  leads_append_iff.mpr ⟨s', h, h'⟩

theorem Leads.cons (h : advance s t = some s') (h' : Leads s' ts s'') : Leads s (t :: ts) s'' :=
  leads_cons_iff.mpr ⟨s', h, h'⟩

theorem leads_singleton (h : advance s t = some s') : Leads s [t] s' :=
  .cons h (leads_nil_iff.mpr rfl)

theorem Leads.functional (h : Leads s ts s') (h' : Leads s ts s'') : s' = s'' :=
  Option.some.inj (h.symm.trans h')

/-- Every operator asks for another operand. -/
theorem advance_operator (ht : t.isOperator = true) :
    advance (.operator, brackets) t = some (.operand, brackets) := by
  cases t <;> first | rfl | cases ht

theorem advance_sign (ht : t ∈ [.plus, .minus]) :
    advance (.operand, brackets) t = some (.operand, brackets) := by
  obtain rfl | rfl : t = .plus ∨ t = .minus := by simpa using ht
  · rfl
  · rfl

theorem advance_function {name : String} {f : Builtin} (hf : Builtin.ofName? name = some f) :
    advance (.operand, brackets) (.identifier name) = some (.parenthesis, brackets) := by
  simp [advance, beginOperand, Builtin.symbol_ofName?_eq_none hf, hf]

/-- Arguments start like operands. -/
theorem advance_argument (ht : t ≠ .closing) :
    advance (.argument, brackets) t = advance (.operand, brackets) t := by
  match brackets with
  | [] | .group :: _ => rfl
  | .call :: _ => cases t <;> first | rfl | exact absurd rfl ht

theorem Leads.argument (h : Leads (.operand, brackets) ts s) (hne : ts ≠ []) :
    Leads (.argument, brackets) ts s := by
  cases ts with
  | nil => exact absurd rfl hne
  | cons t ts =>
    obtain ⟨s', hs', hts⟩ := leads_cons_iff.mp h
    have ht : t ≠ .closing := by
      rintro rfl
      cases hs'
    exact .cons ((advance_argument ht).trans hs') hts

theorem leads_commaSeparated {args : List (List Token)} (hne : args ≠ [])
    (h : ∀ arg ∈ args, Leads (.operand, .call :: brackets) arg (.operator, .call :: brackets)) :
    Leads (.operand, .call :: brackets) (commaSeparated args) (.operator, .call :: brackets) := by
  induction args with
  | nil => exact absurd rfl hne
  | cons arg args ih =>
    rw [List.forall_mem_cons] at h
    cases args with
    | nil => simpa using h.1
    | cons next args =>
      rw [commaSeparated_cons_cons]
      exact h.1.append (.cons rfl (ih (by simp) h.2))

/-- A phrase is read from where an operand is awaited to where an operator is. -/
theorem Forms.leads (h : Forms anyNumber p ts) (brackets : List Bracket) :
    Leads (.operand, brackets) ts (.operator, brackets) := by
  induction h generalizing brackets with
  | ofTerm _ ih | ofUnary _ ih | ofPower _ ih | ofPrimary _ ih => exact ih brackets
  | sum ht _ _ iha ihb =>
    have ht := (Token.isOperator_of_mem.1 _ ht)
    exact (iha brackets).append (.cons (advance_operator ht) (ihb brackets))
  | term ht _ _ iha ihb =>
    have ht := (Token.isOperator_of_mem.2 _ ht)
    exact (iha brackets).append (.cons (advance_operator ht) (ihb brackets))
  | signed ht _ ih => exact .cons (advance_sign ht) (ih brackets)
  | power _ _ iha ihb => exact (iha brackets).append (.cons rfl (ihb brackets))
  | number v => simp [advance, beginOperand]
  | symbol hs => simp [advance, beginOperand, hs]
  | call args hf _ _ ih =>
    refine .cons (advance_function hf) (.cons rfl ?_)
    by_cases hne : args = []
    · subst hne
      exact leads_singleton rfl
    · have hargs := leads_commaSeparated hne fun arg hmem => ih arg hmem (.call :: brackets)
      exact Leads.argument (hargs.append (leads_singleton rfl)) (by simp)
  | group _ ih => exact .cons rfl ((ih _).append (leads_singleton rfl))

/-- Where the next token is not awaited, no phrase goes on. -/
theorem not_forms_of_leads (h : Leads (.operand, []) ts s) (ht : advance s t = none) :
    ¬ Forms anyNumber p (ts ++ t :: us) := by
  intro hf
  obtain ⟨s', hs', hrest⟩ := leads_append_iff.mp (hf.leads [])
  obtain rfl := h.functional hs'
  obtain ⟨s'', hs'', -⟩ := leads_cons_iff.mp hrest
  rw [ht] at hs''
  cases hs''

end InitialValue.Expression
