import InitialValue.Expression.Parser
import Mathlib.Data.List.Chain

/-! The grammar of expressions, as derivations of a tree from a list of tokens:

    sum     ::= term | sum ('+' | '-') term
    term    ::= unary | term ('*' | '/') unary
    unary   ::= ('+' | '-') unary | power
    power   ::= primary | primary '^' unary
    primary ::= number | symbol | function '(' [sum (',' sum)*] ')' | '(' sum ')'

Symbols and functions are the names of the two tables, and a function takes as
many arguments as its arity accepts. An identifier before `(` is never a symbol: no
phrase goes on with `(` where a primary may end, and the two tables share no name. A
derivation carries the number of levels it may use, which bounds how many unaries
are nested in one another; more levels derive no less. -/

namespace InitialValue.Expression

/-- The nonterminals; a sum is a whole expression. -/
inductive Phrase where
  | sum | term | unary | power | primary
  deriving DecidableEq, Repr

/-- Token lists with a comma between any two of them. -/
def commaSeparated (parts : List (List Token)) : List Token := List.intercalate [.comma] parts

@[simp] theorem commaSeparated_nil : commaSeparated [] = [] := rfl

@[simp] theorem commaSeparated_singleton (ts : List Token) : commaSeparated [ts] = ts := by
  simp [commaSeparated]

@[simp] theorem commaSeparated_cons_cons (ts us : List Token) (parts : List (List Token)) :
    commaSeparated (ts :: us :: parts) = ts ++ .comma :: commaSeparated (us :: parts) := by
  simp [commaSeparated, List.intercalate]

/-- The phrase derives the tokens with this tree, by a derivation in which at most `levels` unaries
are nested in one another. -/
inductive Derives : (levels : Nat) → Phrase → List Token → Tree → Prop
  | ofTerm {n ts a} : Derives n .term ts a → Derives n .sum ts a
  | add {n ts us a b} : Derives n .sum ts a → Derives n .term us b →
      Derives n .sum (ts ++ .plus :: us) (.binary .add a b)
  | sub {n ts us a b} : Derives n .sum ts a → Derives n .term us b →
      Derives n .sum (ts ++ .minus :: us) (.binary .sub a b)
  | ofUnary {n ts a} : Derives n .unary ts a → Derives n .term ts a
  | mul {n ts us a b} : Derives n .term ts a → Derives n .unary us b →
      Derives n .term (ts ++ .star :: us) (.binary .mul a b)
  | div {n ts us a b} : Derives n .term ts a → Derives n .unary us b →
      Derives n .term (ts ++ .slash :: us) (.binary .div a b)
  | plus {n ts a} : Derives n .unary ts a → Derives (n + 1) .unary (.plus :: ts) (.signed .plus a)
  | minus {n ts a} : Derives n .unary ts a →
    Derives (n + 1) .unary (.minus :: ts) (.signed .minus a)
  | ofPower {n ts a} : Derives n .power ts a → Derives (n + 1) .unary ts a
  | ofPrimary {n ts a} : Derives n .primary ts a → Derives n .power ts a
  | pow {n ts us a b} : Derives n .primary ts a → Derives n .unary us b →
      Derives n .power (ts ++ .caret :: us) (.binary .pow a b)
  | number {n} (v : Float) : Derives n .primary [.number v] (.literal v)
  | symbol {n name s} : Symbol.ofName? name = some s →
      Derives n .primary [.identifier name] (.symbol s)
  | call {n name f} (args : List (List Token × Tree)) : Builtin.ofName? name = some f →
      (∀ arg ∈ args, Derives n .sum arg.1 arg.2) → f.arity.accepts args.length = true →
      Derives n .primary
        (.identifier name :: .opening :: (commaSeparated (args.map Prod.fst) ++ [.closing]))
        (.call f (args.map Prod.snd))
  | group {n ts a} : Derives n .sum ts a → Derives n .primary (.opening :: (ts ++ [.closing])) a

/-- More levels derive no less. -/
theorem Derives.mono {n k : Nat} {p : Phrase} {ts : List Token} {a : Tree} (h : Derives n p ts a)
    (hk : n ≤ k) : Derives k p ts a := by
  induction h generalizing k with
  | ofTerm _ ih => exact .ofTerm (ih hk)
  | add _ _ iha ihb => exact .add (iha hk) (ihb hk)
  | sub _ _ iha ihb => exact .sub (iha hk) (ihb hk)
  | ofUnary _ ih => exact .ofUnary (ih hk)
  | mul _ _ iha ihb => exact .mul (iha hk) (ihb hk)
  | div _ _ iha ihb => exact .div (iha hk) (ihb hk)
  | plus _ ih =>
    obtain ⟨k, rfl⟩ := Nat.exists_eq_add_of_le' (Nat.one_le_of_lt hk)
    exact .plus (ih (by omega))
  | minus _ ih =>
    obtain ⟨k, rfl⟩ := Nat.exists_eq_add_of_le' (Nat.one_le_of_lt hk)
    exact .minus (ih (by omega))
  | ofPower _ ih =>
    obtain ⟨k, rfl⟩ := Nat.exists_eq_add_of_le' (Nat.one_le_of_lt hk)
    exact .ofPower (ih (by omega))
  | ofPrimary _ ih => exact .ofPrimary (ih hk)
  | pow _ _ iha ihb => exact .pow (iha hk) (ihb hk)
  | number v => exact .number v
  | symbol hs => exact .symbol hs
  | call args hf _ ha ih => exact .call args hf (fun arg harg => ih arg harg hk) ha
  | group _ ih => exact .group (ih hk)

/-! ### Names before parentheses -/

theorem Builtin.symbol_ofName?_eq_none {name : String} {f : Builtin}
    (hf : Builtin.ofName? name = some f) : Symbol.ofName? name = none := by
  have hall : ∀ entry ∈ Builtin.names, Symbol.ofName? entry.1 = none := by decide
  obtain ⟨l₁, l₂, hnames, -⟩ := List.lookup_eq_some_iff.mp hf
  exact hall (name, f) (by simp [hnames])

/-- No symbol stands directly before an opening parenthesis. -/
def MayPrecede (t u : Token) : Prop :=
  u = .opening → ∀ name, t = .identifier name → Symbol.ofName? name = none

theorem isChain_append_cons {ts us : List Token} {t : Token} (ho : t ≠ .opening)
    (hn : ∀ name, t ≠ .identifier name) (hts : ts.IsChain MayPrecede)
    (hus : us.IsChain MayPrecede) : (ts ++ t :: us).IsChain MayPrecede := by
  refine List.isChain_append.mpr ⟨hts, List.isChain_cons.mpr ⟨?_, hus⟩, ?_⟩
  · intro u _ _ name ht
    exact absurd ht (hn name)
  · rintro u _ _ ⟨⟩ ht
    exact absurd ht ho

theorem isChain_commaSeparated {parts : List (List Token)}
    (h : ∀ part ∈ parts, part.IsChain MayPrecede) : (commaSeparated parts).IsChain MayPrecede := by
  induction parts with
  | nil => exact .nil
  | cons ts parts ih =>
    rw [List.forall_mem_cons] at h
    cases parts with
    | nil => simpa using h.1
    | cons us parts =>
      rw [commaSeparated_cons_cons]
      exact isChain_append_cons (by simp) (by simp) h.1 (ih h.2)

/-- In what a phrase derives, every name before an opening parenthesis is that of a call. -/
theorem Derives.isChain {n : Nat} {p : Phrase} {ts : List Token} {a : Tree} (h : Derives n p ts a) :
    ts.IsChain MayPrecede := by
  induction h with
  | ofTerm _ ih | ofUnary _ ih | ofPower _ ih | ofPrimary _ ih => exact ih
  | add _ _ iha ihb | sub _ _ iha ihb | mul _ _ iha ihb | div _ _ iha ihb | pow _ _ iha ihb =>
    exact isChain_append_cons (by simp) (by simp) iha ihb
  | plus _ ih | minus _ ih => exact @isChain_append_cons [] _ _ (by simp) (by simp) .nil ih
  | number _ | symbol _ => exact .singleton _
  | call args hf _ _ ih =>
    have hargs : (commaSeparated (args.map Prod.fst)).IsChain MayPrecede :=
      isChain_commaSeparated (by simpa using fun ts a harg => ih (ts, a) harg)
    have hclosed := isChain_append_cons (t := .closing) (by simp) (by simp) hargs .nil
    refine List.isChain_cons.mpr ⟨?_, List.isChain_cons.mpr ⟨?_, hclosed⟩⟩
    · rintro _ _ _ name ⟨⟩
      exact Builtin.symbol_ofName?_eq_none hf
    · rintro _ _ _ name ⟨⟩
  | group _ ih =>
    have hclosed := isChain_append_cons (t := .closing) (by simp) (by simp) ih .nil
    refine List.isChain_cons.mpr ⟨?_, hclosed⟩
    rintro _ _ _ name ⟨⟩

theorem Derives.symbol_ofName?_eq_none {n : Nat} {p : Phrase} {xs ys : List Token} {name : String}
    {a : Tree} (h : Derives n p (xs ++ .identifier name :: .opening :: ys) a) :
    Symbol.ofName? name = none :=
  (List.isChain_append_cons_cons.mp h.isChain).2.1 rfl name rfl

end InitialValue.Expression
