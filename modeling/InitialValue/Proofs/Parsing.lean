import InitialValue.Proofs.Reading
import Mathlib.Control.Monad.Basic
import Mathlib.Data.Nat.Init

/-! The parser accepts exactly the sentences of the grammar. Soundness: the lexemes
that a parser takes are derived by its phrase. Completeness: a phrase at the front
of the lexemes is read back, if what follows could not carry on its last operand;
the loops of sums and terms come to the tree and may go on from there. A list of
tokens then has at most one tree, since the parser finds every one of them. -/

namespace InitialValue.Expression

variable {ts rest : List Lexeme} {nested : Parser Tree} {stop : Nat} {name : String} {a : Tree}

/-! ### Soundness -/

/-- The parser reads nothing but phrases. -/
def ReadsOnly (levels : Nat) (p : Phrase) (parse : Parser Tree) : Prop :=
  ∀ {ts a rest}, Yields (parse ts) a rest →
    ∃ us, ts = us ++ rest ∧ Derives levels p (us.map Lexeme.token) a

section Soundness

variable {levels : Nat} {p : Phrase}

/-- A chain of operands is what a left-recursive rule derives. -/
theorem chains_derives {operator? : Token → Option Operator} {operand : Parser Tree} {q : Phrase}
    (hq : ReadsOnly levels q operand)
    (hstep : ∀ {t op us vs a b}, operator? t = some op → Derives levels p us a →
      Derives levels q vs b → Derives levels p (us ++ t :: vs) (.binary op a b))
    {ts read rest : List Lexeme} {a b : Tree} (hc : Chains operator? operand a ts b rest)
    (ha : Derives levels p (read.map Lexeme.token) a) :
    ∃ us, read ++ ts = us ++ rest ∧ Derives levels p (us.map Lexeme.token) b := by
  induction hc generalizing read with
  | stop _ => exact ⟨read, rfl, ha⟩
  | @step a t ts op b mid c rest ho hb _ ih =>
    obtain ⟨vs, rfl, hd⟩ := hq hb
    obtain ⟨us, hus, hd⟩ := @ih (read ++ t :: vs) (by simpa using hstep ho ha hd)
    exact ⟨us, by simpa using hus, hd⟩

theorem additive?_eq_some {t : Token} {op : Operator} (h : additive? t = some op) :
    t = .plus ∧ op = .add ∨ t = .minus ∧ op = .sub := by
  cases t <;> simp_all [additive?]

theorem multiplicative?_eq_some {t : Token} {op : Operator} (h : multiplicative? t = some op) :
    t = .star ∧ op = .mul ∨ t = .slash ∧ op = .div := by
  cases t <;> simp_all [multiplicative?]

theorem readsOnly_term (h : ReadsOnly levels .unary nested) :
    ReadsOnly levels .term (term nested) := by
  intro ts a rest hy
  obtain ⟨b, mid, hb, hc⟩ := yields_term_iff.mp hy
  obtain ⟨us, rfl, hd⟩ := h hb
  refine chains_derives h ?_ hc (.ofUnary hd)
  intro t op us vs a b ho ha hb
  obtain ⟨rfl, rfl⟩ | ⟨rfl, rfl⟩ := multiplicative?_eq_some ho
  · exact .mul ha hb
  · exact .div ha hb

theorem readsOnly_sum (h : ReadsOnly levels .unary nested) :
    ReadsOnly levels .sum (sum nested) := by
  intro ts a rest hy
  obtain ⟨b, mid, hb, hc⟩ := yields_sum_iff.mp hy
  obtain ⟨us, rfl, hd⟩ := readsOnly_term h hb
  refine chains_derives (readsOnly_term h) ?_ hc (.ofTerm hd)
  intro t op us vs a b ho ha hb
  obtain ⟨rfl, rfl⟩ | ⟨rfl, rfl⟩ := additive?_eq_some ho
  · exact .add ha hb
  · exact .sub ha hb

/-- Arguments are sums with commas between them and the closing parenthesis behind. -/
theorem yields_arguments_derives {argument : Parser Tree} (h : ReadsOnly levels .sum argument)
    {ts : List Lexeme} {args : List Tree} (hy : Yields (arguments argument stop ts) args rest) :
    ∃ (us : List Lexeme) (parts : List (List Token × Tree)), ts = us ++ rest ∧ parts ≠ [] ∧
      us.map Lexeme.token = commaSeparated (parts.map Prod.fst) ++ [.closing] ∧
      (∀ part ∈ parts, Derives levels .sum part.1 part.2) ∧ args = parts.map Prod.snd := by
  induction hn : ts.length using Nat.strong_induction_on generalizing ts args with
  | _ n ih =>
    subst hn
    obtain ⟨a, t, mid, ha, h'⟩ := yields_arguments_iff.mp hy
    obtain ⟨us, rfl, hd⟩ := h ha
    obtain ⟨ht, rfl, rfl⟩ | ⟨ht, more, hmore, rfl⟩ := h'
    · exact ⟨us ++ [t], [(us.map Lexeme.token, a)], by simp, by simp, by simp [ht],
        by simpa using hd, rfl⟩
    · obtain ⟨vs, parts, rfl, hne, hvs, hparts, rfl⟩ := ih mid.length (by simp; omega) hmore rfl
      refine ⟨us ++ t :: vs, (us.map Lexeme.token, a) :: parts, by simp, by simp, ?_, ?_, rfl⟩
      · match parts with
        | [] => exact absurd rfl hne
        | part :: parts => simp [ht, hvs]
      · exact List.forall_mem_cons.mpr ⟨hd, hparts⟩

theorem readsOnly_call (h : ReadsOnly levels .unary nested) {position : Nat}
    (hy : Yields (call nested stop name position ts) a rest) :
    ∃ us, ts = us ++ rest ∧
      Derives levels .primary (.identifier name :: .opening :: us.map Lexeme.token) a := by
  obtain ⟨f, args, hf, hargs, ha, rfl⟩ := yields_call_iff.mp hy
  by_cases hc : Without .closing ts
  · rw [argumentList_of_without hc] at hargs
    obtain ⟨us, parts, rfl, -, hus, hparts, rfl⟩ := yields_arguments_derives (readsOnly_sum h) hargs
    refine ⟨us, rfl, ?_⟩
    rw [hus]
    exact .call parts hf hparts (by simpa using ha)
  · match ts with
    | [] => simp [Without] at hc
    | ⟨token, offset, text⟩ :: ts =>
      obtain rfl : token = .closing := by simpa [Without] using hc
      obtain ⟨rfl, rfl⟩ := argumentList_closing.mp hargs
      exact ⟨[_], rfl, .call [] hf (by simp) ha⟩

theorem readsOnly_primary (h : ReadsOnly levels .unary nested) :
    ReadsOnly levels .primary (primary nested stop) := by
  intro ts a rest hy
  match ts with
  | [] => simp [primary] at hy
  | ⟨token, offset, text⟩ :: ts =>
    cases token with
    | number v =>
      obtain ⟨rfl, rfl⟩ := yields_primary_number_iff.mp hy
      exact ⟨[_], rfl, .number v⟩
    | identifier name =>
      by_cases ho : Without .opening ts
      · obtain ⟨s, hs, rfl, rfl⟩ := (yields_primary_symbol_iff ho).mp hy
        exact ⟨[_], rfl, .symbol hs⟩
      · cases ts with
        | nil => simp [Without] at ho
        | cons t ts =>
          obtain ⟨token, offset', text'⟩ := t
          obtain rfl : token = .opening := by simpa [Without] using ho
          obtain ⟨us, rfl, hd⟩ := readsOnly_call h (yields_primary_call_iff.mp hy)
          exact ⟨_ :: _ :: us, rfl, hd⟩
    | opening =>
      obtain ⟨t, ht, hsum⟩ := yields_primary_group_iff.mp hy
      obtain ⟨us, rfl, hd⟩ := readsOnly_sum h hsum
      exact ⟨⟨.opening, offset, text⟩ :: (us ++ [t]), by simp, by simpa [ht] using Derives.group hd⟩
    | _ => simp [primary] at hy

theorem readsOnly_power (h : ReadsOnly levels .unary nested) :
    ReadsOnly levels .power (power nested stop) := by
  intro ts a rest hy
  obtain ⟨b, mid, hb, h'⟩ := yields_power_iff.mp hy
  obtain ⟨us, rfl, hd⟩ := readsOnly_primary h hb
  obtain ⟨_, rfl, rfl⟩ | ⟨t, vs, c, rfl, ht, hc, rfl⟩ := h'
  · exact ⟨us, rfl, .ofPrimary hd⟩
  · obtain ⟨vs, rfl, hd'⟩ := h hc
    exact ⟨us ++ t :: vs, by simp, by simpa [ht] using Derives.pow hd hd'⟩

theorem readsOnly_signed (h : ReadsOnly levels .unary nested) :
    ReadsOnly (levels + 1) .unary (signed nested stop) := by
  intro ts a rest hy
  by_cases hs : Without .plus ts ∧ Without .minus ts
  · rw [signed_of_without hs.1 hs.2] at hy
    obtain ⟨us, rfl, hd⟩ := readsOnly_power h hy
    exact ⟨us, rfl, .ofPower hd⟩
  · match ts with
    | [] => simp [Without] at hs
    | ⟨token, offset, text⟩ :: ts =>
      cases token with
      | plus =>
        obtain ⟨b, hb, rfl⟩ := yields_signed_plus_iff.mp hy
        obtain ⟨us, rfl, hd⟩ := h hb
        exact ⟨_ :: us, rfl, .plus hd⟩
      | minus =>
        obtain ⟨b, hb, rfl⟩ := yields_signed_minus_iff.mp hy
        obtain ⟨us, rfl, hd⟩ := h hb
        exact ⟨_ :: us, rfl, .minus hd⟩
      | _ => simp [Without] at hs

theorem readsOnly_unary (stop levels : Nat) : ReadsOnly levels .unary (unary stop levels) := by
  induction levels with
  | zero =>
    intro ts a rest hy
    exact absurd hy not_yields_error
  | succ levels ih => exact readsOnly_signed ih

end Soundness

/-! ### Completeness -/

/-- The tokens that would carry on the last operand of a phrase. -/
def Phrase.carryOn : Phrase → List Token
  | .sum => [.star, .slash, .caret, .opening]
  | .term | .unary | .power => [.caret, .opening]
  | .primary => [.opening]

/-- The last operand of a phrase ends before `rest`. -/
def Ends (p : Phrase) (rest : List Lexeme) : Prop := ∀ t ∈ rest.head?, t.token ∉ p.carryOn

theorem Ends.without {p : Phrase} {t : Token} (h : Ends p rest) (ht : t ∈ p.carryOn) :
    Without t rest := by
  rintro u hu rfl
  exact h u hu ht

theorem Ends.of_subset {p q : Phrase} (h : Ends p rest) (hq : q.carryOn ⊆ p.carryOn) :
    Ends q rest :=
  fun t ht hc => h t ht (hq hc)

section Reaches

variable {operator? : Token → Option Operator} {operand : Parser Tree} {b : Tree}

/-- The chain whose first operand is at the front of `ts` comes to `a` before `rest`, and goes on
from there. -/
def Reaches (operator? : Token → Option Operator) (operand : Parser Tree) (ts : List Lexeme)
    (a : Tree) (rest : List Lexeme) : Prop :=
  ∃ b mid, Yields (operand ts) b mid ∧ ∀ {c fin},
    Chains operator? operand a rest c fin → Chains operator? operand b mid c fin

theorem Reaches.start (h : Yields (operand ts) a rest) : Reaches operator? operand ts a rest :=
  ⟨a, rest, h, id⟩

theorem Reaches.step {t : Lexeme} {op : Operator} (h : Reaches operator? operand ts a (t :: us))
    (ho : operator? t.token = some op) (hb : Yields (operand us) b rest) :
    Reaches operator? operand ts (.binary op a b) rest := by
  obtain ⟨c, mid, hc, hgo⟩ := h
  exact ⟨c, mid, hc, fun hch => hgo (.step ho hb hch)⟩

theorem Reaches.ends (h : Reaches operator? operand ts a rest)
    (hr : ∀ t ∈ rest.head?, operator? t.token = none) :
    ∃ b mid, Yields (operand ts) b mid ∧ Chains operator? operand b mid a rest := by
  obtain ⟨b, mid, hb, hgo⟩ := h
  exact ⟨b, mid, hb, hgo (.stop hr)⟩

end Reaches

/-- What the parsers do where a phrase is at the front of `ts`; sums and terms may go on. -/
def Recovers (stop levels : Nat) : Phrase → List Lexeme → Tree → List Lexeme → Prop
  | .sum, ts, a, rest => Reaches additive? (term (unary stop levels)) ts a rest
  | .term, ts, a, rest => Reaches multiplicative? (unary stop levels) ts a rest
  | .unary, ts, a, rest => Yields (unary stop levels ts) a rest
  | .power, ts, a, rest => Yields (power (unary stop levels) stop ts) a rest
  | .primary, ts, a, rest => Yields (primary (unary stop levels) stop ts) a rest

theorem yields_term_of_reaches {levels : Nat} (h : Recovers stop levels .term ts a rest)
    (hr : Ends .sum rest) : Yields (term (unary stop levels) ts) a rest := by
  refine yields_term_iff.mpr (Reaches.ends h fun t ht => ?_)
  have := hr t ht
  cases ht' : t.token <;> simp_all [multiplicative?, Phrase.carryOn]

theorem yields_sum_of_reaches {levels : Nat} (h : Recovers stop levels .sum ts a rest)
    (hp : Without .plus rest) (hm : Without .minus rest) :
    Yields (sum (unary stop levels) ts) a rest := by
  refine yields_sum_iff.mpr (Reaches.ends h fun t ht => ?_)
  have := hp t ht
  have := hm t ht
  cases ht' : t.token <;> simp_all [additive?]

theorem map_token_eq_append_cons {us : List Lexeme} {xs ys : List Token} {t : Token}
    (h : us.map Lexeme.token = xs ++ t :: ys) : ∃ vs l ws, us = vs ++ l :: ws ∧
      vs.map Lexeme.token = xs ∧ l.token = t ∧ ws.map Lexeme.token = ys := by
  obtain ⟨vs, ws, rfl, hvs, hws⟩ := List.map_eq_append_iff.mp h
  obtain ⟨l, ws, rfl, hl, hws⟩ := List.map_eq_cons_iff.mp hws
  exact ⟨vs, l, ws, rfl, hvs, hl, hws⟩

/-- Arguments and what stands between and behind them are read back. -/
theorem yields_arguments_of_parts {argument : Parser Tree} (parts : List (List Token × Tree))
    (hne : parts ≠ [])
    (h : ∀ part ∈ parts, ∀ us t rest, us.map Lexeme.token = part.1 →
      t.token = .comma ∨ t.token = .closing →
        Yields (argument (us ++ t :: rest)) part.2 (t :: rest))
    {us : List Lexeme}
    (hus : us.map Lexeme.token = commaSeparated (parts.map Prod.fst) ++ [.closing]) :
    Yields (arguments argument stop (us ++ rest)) (parts.map Prod.snd) rest := by
  induction parts generalizing us with
  | nil => exact absurd rfl hne
  | cons part parts ih =>
    rw [List.forall_mem_cons] at h
    rw [yields_arguments_iff]
    match parts with
    | [] =>
      simp only [List.map_cons, List.map_nil, commaSeparated_singleton] at hus
      obtain ⟨vs, t, ws, rfl, hvs, ht, hws⟩ := map_token_eq_append_cons hus
      obtain rfl := List.map_eq_nil_iff.mp hws
      rw [List.append_assoc]
      exact ⟨part.2, t, rest, h.1 vs t rest hvs (.inr ht), .inl ⟨ht, rfl, rfl⟩⟩
    | next :: parts =>
      simp only [List.map_cons, commaSeparated_cons_cons, List.append_assoc,
        List.cons_append] at hus
      obtain ⟨vs, t, ws, rfl, hvs, ht, hws⟩ := map_token_eq_append_cons hus
      rw [List.append_assoc]
      refine ⟨part.2, t, ws ++ rest, h.1 vs t _ hvs (.inl ht), .inr ⟨ht, _, ?_, rfl⟩⟩
      exact ih (by simp) h.2 hws

/-- Whether a primary may start with the token. -/
def Token.startsPrimary : Token → Bool
  | .number _ | .identifier _ | .opening => true
  | _ => false

/-- A phrase starts with the start of a primary or, unless it is a power or a primary, with a
sign. -/
theorem Derives.head {n : Nat} {p : Phrase} {ts : List Token} {a : Tree} (h : Derives n p ts a) :
    ∃ t us, ts = t :: us ∧
      (t.startsPrimary = true ∨ (t = .plus ∨ t = .minus) ∧ p ≠ .power ∧ p ≠ .primary) := by
  induction h with
  | ofTerm _ ih | ofUnary _ ih =>
    obtain ⟨t, us, rfl, h⟩ := ih
    exact ⟨t, us, rfl, by simpa using h⟩
  | add _ _ ih _ | sub _ _ ih _ | mul _ _ ih _ | div _ _ ih _ =>
    obtain ⟨t, us, rfl, h⟩ := ih
    exact ⟨t, _, rfl, by simpa using h⟩
  | plus _ _ | minus _ _ => exact ⟨_, _, rfl, by simp⟩
  | ofPower _ ih | ofPrimary _ ih =>
    obtain ⟨t, us, rfl, h⟩ := ih
    exact ⟨t, us, rfl, .inl (by simpa using h)⟩
  | pow _ _ ih _ =>
    obtain ⟨t, us, rfl, h⟩ := ih
    exact ⟨t, _, rfl, .inl (by simpa using h)⟩
  | number _ | symbol _ | call _ _ _ _ _ | group _ _ => exact ⟨_, _, rfl, .inl rfl⟩

/-- Arguments do not start with the closing parenthesis. -/
theorem without_closing_of_arguments {n : Nat} {args : List (List Token × Tree)} (hne : args ≠ [])
    (h : ∀ arg ∈ args, Derives n .sum arg.1 arg.2) {us : List Lexeme} {tail : List Token}
    (hus : us.map Lexeme.token = commaSeparated (args.map Prod.fst) ++ tail) :
    Without .closing (us ++ rest) := by
  match args with
  | [] => exact absurd rfl hne
  | (xs, b) :: args =>
    obtain ⟨t, xs, rfl, ht⟩ := (h _ List.mem_cons_self).head
    have hus' : ∃ tail, us.map Lexeme.token = t :: tail := by cases args <;> simp [hus]
    obtain ⟨tail, hus'⟩ := hus'
    obtain ⟨l, us, rfl, rfl, -⟩ := List.map_eq_cons_iff.mp hus'
    rintro _ ⟨⟩ hl
    simp [hl, Token.startsPrimary] at ht

theorem Derives.recovers {levels : Nat} {p : Phrase} {tokens : List Token} {a : Tree}
    (h : Derives levels p tokens a) {us rest : List Lexeme} (hus : us.map Lexeme.token = tokens)
    (hr : Ends p rest) : Recovers stop levels p (us ++ rest) a rest := by
  induction h generalizing us rest with
  | ofTerm _ ih =>
    exact .start (yields_term_of_reaches (ih hus (hr.of_subset (by simp [Phrase.carryOn]))) hr)
  | add _ _ iha ihb | sub _ _ iha ihb =>
    obtain ⟨vs, t, ws, rfl, hvs, ht, hws⟩ := map_token_eq_append_cons hus
    have hb := yields_term_of_reaches (ihb hws (hr.of_subset (by simp [Phrase.carryOn]))) hr
    rw [List.append_assoc]
    -- the sum on the left is not read to its end: its loop goes on with this operator
    exact (iha hvs (by simp [Ends, ht, Phrase.carryOn])).step (by rw [ht]; rfl) hb
  | ofUnary _ ih => exact .start (ih hus hr)
  | mul _ _ iha ihb | div _ _ iha ihb =>
    obtain ⟨vs, t, ws, rfl, hvs, ht, hws⟩ := map_token_eq_append_cons hus
    rw [List.append_assoc]
    exact (iha hvs (by simp [Ends, ht, Phrase.carryOn])).step (by rw [ht]; rfl) (ihb hws hr)
  | plus _ ih =>
    obtain ⟨⟨_, offset, text⟩, vs, rfl, ⟨⟩, hvs⟩ := List.map_eq_cons_iff.mp hus
    exact yields_signed_plus_iff.mpr ⟨_, ih hvs hr, rfl⟩
  | minus _ ih =>
    obtain ⟨⟨_, offset, text⟩, vs, rfl, ⟨⟩, hvs⟩ := List.map_eq_cons_iff.mp hus
    exact yields_signed_minus_iff.mpr ⟨_, ih hvs hr, rfl⟩
  | ofPower hd ih =>
    obtain ⟨t, ts, rfl, ht⟩ := hd.head
    obtain ⟨l, vs, rfl, rfl, hvs⟩ := List.map_eq_cons_iff.mp hus
    have hs : l.token.startsPrimary = true := by simpa using ht
    change Yields (signed _ stop _) _ _
    rw [signed_of_without (by rintro _ ⟨⟩ hl; simp [hl, Token.startsPrimary] at hs)
      (by rintro _ ⟨⟩ hl; simp [hl, Token.startsPrimary] at hs)]
    exact ih hus hr
  | ofPrimary _ ih =>
    exact yields_power_iff.mpr ⟨_, rest, ih hus (hr.of_subset (by simp [Phrase.carryOn])),
      .inl ⟨hr.without (by simp [Phrase.carryOn]), rfl, rfl⟩⟩
  | pow _ _ iha ihb =>
    obtain ⟨vs, t, ws, rfl, hvs, ht, hws⟩ := map_token_eq_append_cons hus
    rw [List.append_assoc]
    exact yields_power_iff.mpr ⟨_, _, iha hvs (by simp [Ends, ht, Phrase.carryOn]),
      .inr ⟨t, _, _, rfl, ht, ihb hws hr, rfl⟩⟩
  | number v =>
    obtain ⟨⟨_, offset, text⟩, rfl, ⟨⟩⟩ := List.map_eq_singleton_iff.mp hus
    exact yields_primary_number_iff.mpr ⟨rfl, rfl⟩
  | symbol hs =>
    obtain ⟨⟨_, offset, text⟩, rfl, ⟨⟩⟩ := List.map_eq_singleton_iff.mp hus
    exact (yields_primary_symbol_iff (hr.without (by simp [Phrase.carryOn]))).mpr ⟨_, hs, rfl, rfl⟩
  | call args hf hargs ha ih =>
    obtain ⟨⟨_, offset, text⟩, vs, rfl, ⟨⟩, hvs⟩ := List.map_eq_cons_iff.mp hus
    obtain ⟨⟨_, offset', text'⟩, ws, rfl, ⟨⟩, hws⟩ := List.map_eq_cons_iff.mp hvs
    refine yields_primary_call_iff.mpr (yields_call_iff.mpr ⟨_, _, hf, ?_, by simpa using ha, rfl⟩)
    by_cases hne : args = []
    · subst hne
      obtain ⟨⟨_, _, _⟩, rfl, ⟨⟩⟩ := List.map_eq_singleton_iff.mp hws
      exact argumentList_closing.mpr ⟨rfl, rfl⟩
    · change Yields (argumentList _ stop (ws ++ rest)) _ _
      rw [argumentList_of_without (without_closing_of_arguments hne hargs hws)]
      refine yields_arguments_of_parts args hne ?_ hws
      intro arg harg xs t rest hxs ht
      have hends : Ends .sum (t :: rest) := by
        rcases ht with ht | ht <;> simp [Ends, ht, Phrase.carryOn]
      refine yields_sum_of_reaches (ih arg harg hxs hends) ?_ ?_ <;>
        rcases ht with ht | ht <;> simp [Without, ht]
  | group _ ih =>
    obtain ⟨⟨_, offset, text⟩, vs, rfl, ⟨⟩, hvs⟩ := List.map_eq_cons_iff.mp hus
    obtain ⟨ws, t, xs, rfl, hws, ht, hxs⟩ := map_token_eq_append_cons hvs
    obtain rfl := List.map_eq_nil_iff.mp hxs
    rw [List.cons_append, List.append_assoc]
    refine yields_primary_group_iff.mpr ⟨t, ht, yields_sum_of_reaches (ih hws ?_) ?_ ?_⟩
    · simp [Ends, ht, Phrase.carryOn]
    · simp [Without, ht]
    · simp [Without, ht]

/-! ### Whole texts -/

theorem treeOf_eq_ok_iff {a : Tree} :
    treeOf stop ts = .ok a ↔ Yields (sum (unary stop maxNesting) ts) a [] := by
  rw [treeOf]
  split
  · next he => simp [he]
  · next p hp =>
    obtain ⟨b, rest, hs⟩ := p
    rw [hp, yields_ok_iff]
    cases rest <;> simp [eq_comm]

theorem yields_sum_iff_derives (stop : Nat) {levels : Nat} :
    Yields (sum (unary stop levels) ts) a [] ↔ Derives levels .sum (ts.map Lexeme.token) a := by
  constructor
  · intro h
    obtain ⟨us, rfl, hd⟩ := readsOnly_sum (readsOnly_unary stop levels) h
    simpa using hd
  · intro h
    have hr : Recovers stop levels .sum (ts ++ []) a [] := h.recovers rfl (by simp [Ends])
    rw [List.append_nil] at hr
    exact yields_sum_of_reaches hr (by simp [Without]) (by simp [Without])

/-- A list of tokens has at most one tree, however many levels its derivations use. -/
theorem Derives.unique {n k : Nat} {tokens : List Token} {a b : Tree} (ha : Derives n .sum tokens a)
    (hb : Derives k .sum tokens b) : a = b := by
  let us : List Lexeme := tokens.map (⟨·, 0, []⟩)
  have hus : us.map Lexeme.token = tokens := by simp [us, Function.comp_def]
  rw [← hus] at ha hb
  have ha' := (yields_sum_iff_derives 0).mpr (ha.mono (Nat.le_max_left n k))
  have hb' := (yields_sum_iff_derives 0).mpr (hb.mono (Nat.le_max_right n k))
  exact (ha'.functional hb').1

/-- Reading accepts exactly the sentences of the grammar, and yields their trees. -/
theorem parse_eq_ok_iff {source : String} {e : Expression} :
    parse source = .ok e ↔
      e.source = source ∧ source.length ≤ maxLength ∧
        ∃ ts, lexemes source.toList = .ok ts ∧
          Derives maxNesting .sum (ts.map Lexeme.token) e.root := by
  obtain ⟨text, root⟩ := e
  unfold parse
  by_cases hl : maxLength < source.length
  · simp [hl, Nat.not_le.mpr hl]
  · rw [if_neg hl]
    cases hts : lexemes source.toList with
    | error e => simp [bind, Except.bind]
    | ok ts =>
      simp only [Except.ok.injEq, exists_eq_left', ← yields_sum_iff_derives source.length,
        ← treeOf_eq_ok_iff]
      cases htree : treeOf source.length ts with
      | error e => simp [bind, Except.bind, htree]
      | ok a =>
        simp [bind, Except.bind, pure, Except.pure, htree, eq_comm]
        omega

/-- A text is read as an expression exactly when it is short enough and its tokens are a sentence
whose unaries nest at most 64 deep, with the one tree of the sentence; every other text is refused.
No symbol stands before an opening parenthesis. -/
theorem parse_accepts_exactly_the_sentences (source : String) :
    (∀ e, parse source = .ok e ↔ e.source = source ∧ source.length ≤ 4096 ∧
      ∃ ts, lexemes source.toList = .ok ts ∧ Derives 64 .sum (ts.map Lexeme.token) e.root) ∧
    (∀ n k tokens a b, Derives n .sum tokens a → Derives k .sum tokens b → a = b) ∧
    (∀ n p xs name ys a, Derives n p (xs ++ .identifier name :: .opening :: ys) a →
      Symbol.ofName? name = none) ∧
    ((∃ err, parse source = .error err) ↔ ¬ ∃ ts a, source.length ≤ 4096 ∧
      lexemes source.toList = .ok ts ∧ Derives 64 .sum (ts.map Lexeme.token) a) := by
  refine ⟨fun e => parse_eq_ok_iff, fun n k tokens a b => Derives.unique,
    fun n p xs name ys a => Derives.symbol_ofName?_eq_none, ?_⟩
  constructor
  · rintro ⟨err, herr⟩ ⟨ts, a, hlen, hts, ha⟩
    have hok : parse source = .ok ⟨source, a⟩ := parse_eq_ok_iff.mpr ⟨rfl, hlen, ts, hts, ha⟩
    simp [herr] at hok
  · intro hno
    cases hp : parse source with
    | error err => exact ⟨err, rfl⟩
    | ok e =>
      obtain ⟨-, hlen, ts, hts, he⟩ := parse_eq_ok_iff.mp hp
      exact absurd ⟨ts, e.root, hlen, hts, he⟩ hno

/-- A sign binds less tightly than a power. -/
theorem parse_minus_x_pow_y :
    parse "-x^y" = .ok ⟨"-x^y", .signed .minus (.binary .pow (.symbol .x) (.symbol .y))⟩ := by
  have hts : lexemes "-x^y".toList = .ok [⟨.minus, 0, ['-']⟩, ⟨.identifier "x", 1, ['x']⟩,
      ⟨.caret, 2, ['^']⟩, ⟨.identifier "y", 3, ['y']⟩] := by
    decide +kernel
  have hx : Derives 62 .primary [.identifier "x"] (.symbol .x) := .symbol (by decide)
  have hy : Derives 61 .primary [.identifier "y"] (.symbol .y) := .symbol (by decide)
  have hpow := Derives.pow hx (.ofPower (.ofPrimary hy))
  refine ((parse_accepts_exactly_the_sentences "-x^y").1 _).mpr ⟨rfl, by decide, _, hts, ?_⟩
  exact .ofTerm (.ofUnary (.minus (.ofPower hpow)))

end InitialValue.Expression
