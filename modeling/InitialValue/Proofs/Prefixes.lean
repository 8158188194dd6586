import InitialValue.Proofs.Lexing
import InitialValue.Proofs.Outcome
import InitialValue.Proofs.Parsing
import InitialValue.Proofs.Phrases

/-! Where reading an expression fails for its grammar. The lexemes before the place of the
failure begin a sentence, and the one at that place ends every hope of one: it is the first
lexeme with which no sentence begins. Each parser shows both for its own phrase; how a
phrase can be completed is known from inside out, and that nothing else is awaited from
outside in, for whatever parentheses are open. -/

namespace InitialValue.Expression

variable {ts rest : List Lexeme} {nested : Parser Tree} {stop levels position : Nat}
  {fault : SyntaxFault}

/-! ### Places where reading is stuck -/

/-- The place of the first lexeme, or the end of the text when there is none. -/
def placeOf (stop : Nat) : List Lexeme → Nat
  | [] => stop
  | l :: _ => l.offset

/-- The lexemes up to the position begin something of the language, and what stands there is not
awaited after them, with whatever open parentheses the reading starts. -/
def Stuck (stop : Nat) (language : List Token → Prop) (start : List Bracket → Front)
    (ts : List Lexeme) (position : Nat) : Prop :=
  ∃ before after, ts = before ++ after ∧ position = placeOf stop after ∧
    (∃ us, us ≠ [] ∧ language (before.map Lexeme.token ++ us)) ∧
    ∀ brackets, ∃ s, Leads (start brackets) (before.map Lexeme.token) s ∧
      ∀ l ∈ after.head?, advance s l.token = none

section Stuck

variable {language language' : List Token → Prop} {start start' : List Bracket → Front}

theorem Stuck.mono (h : Stuck stop language start ts position)
    (hl : ∀ us, language us → language' us) : Stuck stop language' start ts position := by
  obtain ⟨before, after, hts, hp, ⟨us, hne, hus⟩, hleads⟩ := h
  exact ⟨before, after, hts, hp, ⟨us, hne, hl _ hus⟩, hleads⟩

/-- Reading is stuck where it is stuck after a beginning. -/
theorem Stuck.extend (read : List Lexeme) (h : Stuck stop language start ts position)
    (hl : ∀ us, language us → ∃ vs, language' (read.map Lexeme.token ++ us ++ vs))
    (hread : ∀ brackets, ∃ brackets', Leads (start' brackets) (read.map Lexeme.token)
      (start brackets')) :
    Stuck stop language' start' (read ++ ts) position := by
  obtain ⟨before, after, rfl, hp, ⟨us, hne, hus⟩, hleads⟩ := h
  refine ⟨read ++ before, after, (List.append_assoc _ _ _).symm, hp, ?_, fun brackets => ?_⟩
  · obtain ⟨vs, hvs⟩ := hl _ hus
    refine ⟨us ++ vs, by simp [hne], ?_⟩
    simpa using hvs
  · obtain ⟨brackets', hb⟩ := hread brackets
    obtain ⟨s, hs, hnone⟩ := hleads brackets'
    exact ⟨s, by simpa using hb.append hs, hnone⟩

end Stuck

/-- Reading starts where an operand is awaited. -/
abbrev atOperand (brackets : List Bracket) : Front := (.operand, brackets)

/-- Nothing but the start of an operand is awaited at first. -/
theorem stuck_at_start (p : Phrase)
    (h : ∀ l ∈ ts.head?, ∀ brackets, beginOperand brackets l.token = none) :
    Stuck stop (Forms anyNumber p) atOperand ts (placeOf stop ts) :=
  ⟨[], ts, rfl, rfl, ⟨[.number 1.0], by simp, forms_number p 1.0⟩,
    fun brackets => ⟨(.operand, brackets), by simp, fun l hl => h l hl brackets⟩⟩

/-! ### What follows a phrase -/

theorem Chains.rest_of {operator? : Token → Option Operator} {operand : Parser Tree}
    {Q : List Lexeme → Prop} (hoperand : ∀ {ts a rest}, Yields (operand ts) a rest → Q rest)
    {a b : Tree} (h : Chains operator? operand a ts b rest) (hts : Q ts) :
    Q rest ∧ ∀ l ∈ rest.head?, operator? l.token = none := by
  induction h with
  | stop hr => exact ⟨hts, hr⟩
  | step _ hb _ ih => exact ih (hoperand hb)

/-- What is known of the parser of nested unaries: it reads unaries, takes the exponent that
follows, and fails where no unary goes on. -/
structure Faithful (stop levels : Nat) (nested : Parser Tree) : Prop where
  only : ReadsOnly levels .unary nested
  ends : ∀ {ts a rest}, Yields (nested ts) a rest → Without .caret rest
  stuck : ∀ {ts fault position}, nested ts = .error (.malformed fault position) →
    Stuck stop (Forms anyNumber .unary) atOperand ts position

theorem Faithful.sum_ends (h : Faithful stop levels nested) {a : Tree}
    (hy : Yields (sum nested ts) a rest) : ∀ l ∈ rest.head?, l.token.isOperator = false := by
  have hterm : ∀ {ts a rest}, Yields (term nested ts) a rest →
      Without .caret rest ∧ ∀ l ∈ rest.head?, multiplicative? l.token = none := by
    intro ts a rest hy
    obtain ⟨b, mid, hb, hc⟩ := yields_term_iff.mp hy
    exact hc.rest_of h.ends (h.ends hb)
  obtain ⟨b, mid, hb, hc⟩ := yields_sum_iff.mp hy
  obtain ⟨⟨hcaret, hmul⟩, hadd⟩ := hc.rest_of hterm (hterm hb)
  intro l hl
  have h1 := hcaret l hl
  have h2 := hmul l hl
  have h3 := hadd l hl
  cases hl : l.token <;> simp_all [Token.isOperator, multiplicative?, additive?]

/-! ### Chains -/

theorem stuck_of_chain {operator? : Token → Option Operator} {operand : Parser Tree} {p q : Phrase}
    (hread : ReadsOnly levels q operand)
    (hstuck : ∀ {ts fault position}, operand ts = .error (.malformed fault position) →
      Stuck stop (Forms anyNumber q) atOperand ts position)
    (hstep : ∀ {t op us vs}, operator? t = some op → Forms anyNumber p us → Forms anyNumber q vs →
      Forms anyNumber p (us ++ t :: vs))
    (hoperator : ∀ {t op}, operator? t = some op → t.isOperator = true) {left : Parsed Tree ts}
    {read : List Lexeme} (hleft : ts = read ++ left.rest)
    (hform : Forms anyNumber p (read.map Lexeme.token))
    (h : chain operator? operand left = .error (.malformed fault position)) :
    Stuck stop (Forms anyNumber p) atOperand ts position := by
  induction left using chain.induct operator? operand generalizing read with
  | case1 left hr =>
    obtain ⟨a, us, hs⟩ := left
    cases hr
    rw [chain.eq_def] at h
    cases h
  | case2 left t us hr ho =>
    obtain ⟨a, us, hs⟩ := left
    cases hr
    rw [chain.eq_def] at h
    simp [ho] at h
  | case3 left t us hr op ho e he =>
    obtain ⟨a, us, hs⟩ := left
    cases hr
    rw [chain.eq_def] at h
    simp only [ho, he] at h
    cases h
    change ts = read ++ t :: us at hleft
    subst hleft
    rw [List.append_cons]
    refine (hstuck he).extend (read ++ [t]) (fun us hus => ⟨[], by simpa using hstep ho hform hus⟩)
      fun brackets => ?_
    have hleads := (hform.leads brackets).append (leads_singleton (advance_operator (hoperator ho)))
    exact ⟨brackets, by simpa using hleads⟩
  | case4 left t us hr op ho right hright this ih =>
    obtain ⟨a, us, hs⟩ := left
    cases hr
    rw [chain.eq_def] at h
    simp only [ho, hright] at h
    obtain ⟨b, mid, hmid⟩ := right
    obtain ⟨vs, rfl, hd⟩ := hread ⟨hmid, hright⟩
    refine @ih (read ++ t :: vs) ?_ ?_ h
    · simpa using hleft
    · simpa using hstep ho hform hd.forms

theorem Faithful.stuck_of_term (h : Faithful stop levels nested)
    (he : term nested ts = .error (.malformed fault position)) :
    Stuck stop (Forms anyNumber .term) atOperand ts position := by
  obtain he | ⟨left, hleft, he⟩ := bind_eq_error_iff.mp he
  · exact (h.stuck he).mono fun us => .ofUnary
  · obtain ⟨read, hread, hd⟩ := h.only ⟨left.shorter, hleft⟩
    refine stuck_of_chain h.only h.stuck ?_ ?_ hread (.ofUnary hd.forms) he
    · intro t op us vs ho hus hvs
      obtain ⟨rfl, -⟩ | ⟨rfl, -⟩ := multiplicative?_eq_some ho <;> exact .term (by simp) hus hvs
    · intro t op ho
      obtain ⟨rfl, -⟩ | ⟨rfl, -⟩ := multiplicative?_eq_some ho <;> rfl

theorem Faithful.stuck_of_sum (h : Faithful stop levels nested)
    (he : sum nested ts = .error (.malformed fault position)) :
    Stuck stop (Forms anyNumber .sum) atOperand ts position := by
  obtain he | ⟨left, hleft, he⟩ := bind_eq_error_iff.mp he
  · exact (h.stuck_of_term he).mono fun us => .ofTerm
  · obtain ⟨read, hread, hd⟩ := readsOnly_term h.only ⟨left.shorter, hleft⟩
    refine stuck_of_chain (readsOnly_term h.only) h.stuck_of_term ?_ ?_ hread (.ofTerm hd.forms) he
    · intro t op us vs ho hus hvs
      obtain ⟨rfl, -⟩ | ⟨rfl, -⟩ := additive?_eq_some ho <;> exact .sum (by simp) hus hvs
    · intro t op ho
      obtain ⟨rfl, -⟩ | ⟨rfl, -⟩ := additive?_eq_some ho <;> rfl

/-! ### Parentheses -/

/-- Between parentheses only an operator and what the parenthesis lets follow are awaited behind a
sum. -/
theorem advance_operator_eq_none {bracket : Bracket} {brackets : List Bracket} {t : Token}
    (ho : t.isOperator = false) (hc : t ≠ .closing) (hcomma : bracket = .call → t ≠ .comma) :
    advance (.operator, bracket :: brackets) t = none := by
  cases t <;> cases bracket <;> simp_all [advance, Token.isOperator]

/-- Sums with commas between them, and the closing parenthesis. -/
def IsArguments (us : List Token) : Prop :=
  ∃ args, args ≠ [] ∧ us = commaSeparated args ++ [.closing] ∧
    ∀ arg ∈ args, Forms anyNumber .sum arg

theorem isArguments_of_sum {us : List Token} (h : Forms anyNumber .sum us) :
    IsArguments (us ++ [.closing]) :=
  ⟨[us], by simp, by simp, by simpa using h⟩

theorem IsArguments.cons {us vs : List Token} (h : IsArguments vs) (hus : Forms anyNumber .sum us) :
    IsArguments (us ++ .comma :: vs) := by
  obtain ⟨args, hne, rfl, hargs⟩ := h
  refine ⟨us :: args, by simp, ?_, List.forall_mem_cons.mpr ⟨hus, hargs⟩⟩
  cases args with
  | nil => exact absurd rfl hne
  | cons arg args => simp

/-- A sum between parentheses which neither is closed nor goes on. -/
theorem Faithful.stuck_after_sum (h : Faithful stop levels nested) {bracket : Bracket}
    {language : List Token → Prop} {a : Tree} (hy : Yields (sum nested ts) a rest)
    (hr : ∀ l ∈ rest.head?, l.token ≠ .closing ∧ (bracket = .call → l.token ≠ .comma))
    (hl : ∀ us, Forms anyNumber .sum us → language (us ++ [.closing])) :
    Stuck stop language (fun brackets => (.operand, bracket :: brackets)) ts
      (placeOf stop rest) := by
  obtain ⟨read, rfl, hd⟩ := readsOnly_sum h.only hy
  refine ⟨read, rest, rfl, rfl, ⟨[.closing], by simp, hl _ hd.forms⟩, fun brackets => ?_⟩
  refine ⟨(.operator, bracket :: brackets), hd.forms.leads _, fun l hmem => ?_⟩
  exact advance_operator_eq_none (h.sum_ends hy l hmem) (hr l hmem).1 (hr l hmem).2

theorem Faithful.stuck_of_arguments (h : Faithful stop levels nested)
    (he : arguments (sum nested) stop ts = .error (.malformed fault position)) :
    Stuck stop IsArguments (fun brackets => (.operand, .call :: brackets)) ts position := by
  induction hn : ts.length using Nat.strong_induction_on generalizing ts with
  | _ n ih =>
    subst hn
    rw [arguments.eq_def] at he
    match hsum : sum nested ts with
    | .error e =>
      simp only [hsum] at he
      cases he
      exact (h.stuck_of_sum hsum).extend [] (fun us hus => ⟨[.closing], isArguments_of_sum hus⟩)
        fun brackets => ⟨.call :: brackets, by simp⟩
    | .ok ⟨a, [], hs⟩ =>
      simp only [hsum] at he
      cases he
      exact h.stuck_after_sum ⟨hs, hsum⟩ (by simp) fun us => isArguments_of_sum
    | .ok ⟨a, ⟨token, offset, text⟩ :: mid, hs⟩ =>
      simp only [hsum] at he
      have hy : Yields (sum nested ts) a (⟨token, offset, text⟩ :: mid) := ⟨hs, hsum⟩
      cases token with
      | closing => cases he
      | comma =>
        obtain ⟨read, rfl, hd⟩ := readsOnly_sum h.only hy
        have hmore : arguments (sum nested) stop mid = .error (.malformed fault position) := by
          cases hmore : arguments (sum nested) stop mid with
          | error e => simpa [hmore] using he
          | ok more => simp [hmore] at he
        have hstuck := ih mid.length (by simp; omega) hmore rfl
        rw [List.append_cons]
        refine hstuck.extend (read ++ [_]) (fun us hus => ⟨[], ?_⟩) fun brackets => ⟨brackets, ?_⟩
        · simpa using hus.cons hd.forms
        · simpa using (hd.forms.leads (.call :: brackets)).append (leads_singleton rfl)
      | _ =>
        cases he
        exact h.stuck_after_sum hy (by simp) fun us => isArguments_of_sum

/-- Arguments that do not start with the closing parenthesis start like operands. -/
theorem Stuck.argument {language : List Token → Prop}
    (h : Stuck stop language (fun brackets => (.operand, .call :: brackets)) ts position)
    (hc : Without .closing ts) :
    Stuck stop language (fun brackets => (.argument, .call :: brackets)) ts position := by
  obtain ⟨before, after, rfl, hp, hus, hleads⟩ := h
  refine ⟨before, after, rfl, hp, hus, fun brackets => ?_⟩
  obtain ⟨s, hs, hnone⟩ := hleads brackets
  cases before with
  | nil =>
    obtain rfl := leads_nil_iff.mp hs
    exact ⟨_, leads_nil_iff.mpr rfl, fun l hl => (advance_argument (hc l hl)).trans (hnone l hl)⟩
  | cons l before => exact ⟨s, hs.argument (by simp), hnone⟩

theorem Faithful.stuck_of_argumentList (h : Faithful stop levels nested)
    (he : argumentList (sum nested) stop ts = .error (.malformed fault position)) :
    Stuck stop IsArguments (fun brackets => (.argument, .call :: brackets)) ts position := by
  have hc : Without .closing ts := by
    rintro ⟨token, offset, text⟩ hl rfl
    obtain ⟨us, rfl⟩ := List.head?_eq_some_iff.mp hl
    cases he
  rw [argumentList_of_without hc] at he
  exact (h.stuck_of_arguments he).argument hc

theorem Faithful.stuck_of_call (h : Faithful stop levels nested) {name : String} {place : Nat}
    (he : call nested stop name place ts = .error (.malformed fault position)) :
    (∃ f, Builtin.ofName? name = some f) ∧
      Stuck stop IsArguments (fun brackets => (.argument, .call :: brackets)) ts position := by
  unfold call at he
  split at he
  · cases he
  · next f hf =>
    split at he
    · next e hargs =>
      cases he
      exact ⟨⟨f, hf⟩, h.stuck_of_argumentList hargs⟩
    · split at he <;> cases he

theorem closed_eq_error {inner : Parsed Tree ts}
    (he : closed stop inner = .error (.malformed fault position)) :
    position = placeOf stop inner.rest ∧ Without .closing inner.rest := by
  match inner with
  | ⟨b, [], hs⟩ =>
    cases he
    exact ⟨rfl, by simp [Without]⟩
  | ⟨b, ⟨token, offset, text⟩ :: mid, hs⟩ =>
    cases token with
    | closing => cases he
    | _ =>
      cases he
      exact ⟨rfl, by simp [Without]⟩

theorem Faithful.stuck_of_group (h : Faithful stop levels nested)
    (he : (sum nested ts >>= closed stop) = .error (.malformed fault position)) :
    Stuck stop (fun us => ∃ vs, us = vs ++ [.closing] ∧ Forms anyNumber .sum vs)
      (fun brackets => (.operand, .group :: brackets)) ts position := by
  obtain he | ⟨inner, hinner, he⟩ := bind_eq_error_iff.mp he
  · exact (h.stuck_of_sum he).extend [] (fun us hus => ⟨[.closing], us, rfl, hus⟩)
      fun brackets => ⟨.group :: brackets, by simp⟩
  · obtain ⟨rfl, hc⟩ := closed_eq_error he
    exact h.stuck_after_sum ⟨inner.shorter, hinner⟩ (fun l hl => ⟨hc l hl, by simp⟩)
      fun us hus => ⟨us, rfl, hus⟩

/-! ### Primaries, powers and signs -/

theorem Faithful.stuck_of_primary (h : Faithful stop levels nested) (hp : Without .plus ts)
    (hm : Without .minus ts) (he : primary nested stop ts = .error (.malformed fault position)) :
    Stuck stop (Forms anyNumber .primary) atOperand ts position := by
  match ts with
  | [] =>
    cases he
    exact stuck_at_start .primary (by simp)
  | ⟨token, offset, text⟩ :: ts =>
    cases token with
    | number v => cases he
    | plus => simp [Without] at hp
    | minus => simp [Without] at hm
    | opening =>
      have hgroup := h.stuck_of_group (map_eq_error_iff.mp he)
      refine hgroup.extend [⟨.opening, offset, text⟩] ?_
        fun brackets => ⟨brackets, leads_singleton rfl⟩
      rintro _ ⟨vs, rfl, hvs⟩
      exact ⟨[], by simpa using Forms.group hvs⟩
    | identifier name =>
      rcases ts with _ | ⟨⟨next, offset', text'⟩, inside⟩
      · cases hs : Symbol.ofName? name <;> simp [primary, hs] at he
      · cases next with
        | opening =>
          obtain ⟨⟨f, hf⟩, hargs⟩ := h.stuck_of_call (map_eq_error_iff.mp he)
          refine hargs.extend [⟨.identifier name, offset, text⟩, ⟨.opening, offset', text'⟩] ?_
            fun brackets => ⟨brackets, .cons (advance_function hf) (leads_singleton rfl)⟩
          rintro _ ⟨args, -, rfl, hforms⟩
          exact ⟨[], by simpa using Forms.call args hf hforms trivial⟩
        | _ => cases hs : Symbol.ofName? name <;> simp [primary, hs] at he
    | _ =>
      cases he
      exact stuck_at_start .primary (by simp [beginOperand])

theorem Faithful.stuck_of_power (h : Faithful stop levels nested) (hp : Without .plus ts)
    (hm : Without .minus ts) (he : power nested stop ts = .error (.malformed fault position)) :
    Stuck stop (Forms anyNumber .power) atOperand ts position := by
  obtain he | ⟨base, hbase, he⟩ := bind_eq_error_iff.mp he
  · exact (h.stuck_of_primary hp hm he).mono fun us => .ofPrimary
  · obtain ⟨b, mid, hs⟩ := base
    obtain ⟨read, rfl, hd⟩ := readsOnly_primary h.only ⟨hs, hbase⟩
    match mid with
    | [] => cases he
    | ⟨token, offset, text⟩ :: us =>
      cases token with
      | caret =>
        rw [List.append_cons]
        refine (h.stuck (map_eq_error_iff.mp he)).extend (read ++ [_]) (fun vs hvs => ⟨[], ?_⟩)
          fun brackets => ⟨brackets, ?_⟩
        · simpa using Forms.power hd.forms hvs
        · simpa using (hd.forms.leads brackets).append (leads_singleton rfl)
      | _ => cases he

theorem sign_cases (ts : List Lexeme) : Without .plus ts ∧ Without .minus ts ∨
    ∃ t offset text us, ts = ⟨t, offset, text⟩ :: us ∧ t ∈ [Token.plus, .minus] := by
  match ts with
  | [] => simp [Without]
  | ⟨token, offset, text⟩ :: us => cases token <;> simp [Without]

theorem signed_of_sign (nested : Parser Tree) (stop : Nat) (ts : List Lexeme) {t : Token}
    {offset : Nat} {text : List Char} (ht : t ∈ [.plus, .minus]) :
    ∃ sign hs, signed nested stop (⟨t, offset, text⟩ :: ts) =
      (nested ts).map fun p => (p.map (.signed sign)).widen hs := by
  obtain rfl | rfl : t = .plus ∨ t = .minus := by simpa using ht
  · exact ⟨.plus, by simp, rfl⟩
  · exact ⟨.minus, by simp, rfl⟩

theorem Faithful.signed (h : Faithful stop levels nested) :
    Faithful stop (levels + 1) (signed nested stop) where
  only := readsOnly_signed h.only
  ends := by
    intro ts a rest hy
    obtain ⟨hp, hm⟩ | ⟨t, offset, text, us, rfl, ht⟩ := sign_cases ts
    · rw [signed_of_without hp hm] at hy
      obtain ⟨b, mid, -, ⟨hc, -, rfl⟩ | ⟨l, us, c, -, -, hc, -⟩⟩ := yields_power_iff.mp hy
      · exact hc
      · exact h.ends hc
    · obtain ⟨sign, hs, heq⟩ := signed_of_sign nested stop us ht
      rw [heq, yields_map_iff] at hy
      obtain ⟨b, hb, -⟩ := hy
      exact h.ends hb
  stuck := by
    intro ts fault position he
    obtain ⟨hp, hm⟩ | ⟨t, offset, text, us, rfl, ht⟩ := sign_cases ts
    · rw [signed_of_without hp hm] at he
      exact (h.stuck_of_power hp hm he).mono fun us => .ofPower
    · obtain ⟨sign, hs, heq⟩ := signed_of_sign nested stop us ht
      rw [heq, map_eq_error_iff] at he
      refine (h.stuck he).extend [⟨t, offset, text⟩] (fun vs hvs => ⟨[], ?_⟩)
        fun brackets => ?_
      · simpa using Forms.signed ht hvs
      · exact ⟨brackets, leads_singleton (advance_sign ht)⟩

theorem faithful_unary (stop levels : Nat) : Faithful stop levels (unary stop levels) := by
  induction levels with
  | zero =>
    refine ⟨readsOnly_unary stop 0, fun hy => absurd hy not_yields_error, fun he => ?_⟩
    cases he
  | succ levels ih => exact ih.signed

/-! ### Whole texts -/

/-- The lexemes of a text fail to be a sentence at the first one with which no sentence begins. -/
theorem exists_prefix_of_treeOf (he : treeOf stop ts = .error (.malformed fault position)) :
    ∃ before after, ts = before ++ after ∧ position = placeOf stop after ∧
      (∃ us, us ≠ [] ∧ Forms anyNumber .sum (before.map Lexeme.token ++ us)) ∧
      ∀ l ∈ after.head?, ∀ us, ¬ Forms anyNumber .sum
        (before.map Lexeme.token ++ l.token :: us) := by
  have h := faithful_unary stop maxNesting
  unfold treeOf at he
  split at he
  · next e hsum =>
    cases he
    obtain ⟨before, after, hts, hp, hus, hleads⟩ := h.stuck_of_sum hsum
    obtain ⟨s, hs, hnone⟩ := hleads []
    exact ⟨before, after, hts, hp, hus, fun l hl us => not_forms_of_leads hs (hnone l hl)⟩
  · next p hsum =>
    obtain ⟨a, rest, hshorter⟩ := p
    have hy : Yields (sum (unary stop maxNesting) ts) a rest := ⟨hshorter, hsum⟩
    obtain ⟨before, hts, hd⟩ := readsOnly_sum h.only hy
    split at he
    · cases he
    · next l after hrest =>
      cases he
      cases hrest
      have ho := h.sum_ends hy l rfl
      have hnone : advance (.operator, []) l.token = none := by
        cases hl : l.token <;> simp_all [advance, Token.isOperator]
      refine ⟨before, l :: after, hts, rfl, ⟨[.plus, .number 1.0], by simp, ?_⟩, ?_⟩
      · exact .sum (by simp) hd.forms (forms_number .term 1.0)
      · rintro _ ⟨⟩ us
        exact not_forms_of_leads (hd.forms.leads []) hnone

theorem treeOf_eq_error {source : String} {ls : List Lexeme} {e : ParseError}
    (hls : lexemes source.toList = .ok ls) (h : parse source = .error e) (hlong : e ≠ .tooLong) :
    treeOf source.length ls = .error e := by
  unfold parse at h
  split at h
  · cases h
    exact absurd rfl hlong
  · rw [hls, ok_bind] at h
    obtain h | ⟨root, -, h⟩ := bind_eq_error_iff.mp h
    · exact h
    · cases h

/-- When a text is cut into lexemes but breaches the grammar, the fault is reported at the first
lexeme with which no sentence begins, or at the end of the text when there is no such lexeme. What
stands before is the beginning of a longer sentence. -/
theorem parse_fails_at_first_hopeless_lexeme {source : String} {ls : List Lexeme}
    (hls : lexemes source.toList = .ok ls) (h : parse source = .error (.malformed fault position)) :
    ∃ before after, ls = before ++ after ∧
      (∀ l ∈ before, l.offset < position) ∧ (∀ l ∈ after, position ≤ l.offset) ∧
      (∃ us, us ≠ [] ∧ Forms anyNumber .sum (before.map Lexeme.token ++ us)) ∧
      (after = [] ∧ position = source.length ∨
        ∃ l ∈ after.head?, position = l.offset ∧
          ∀ us, ¬ Forms anyNumber .sum (before.map Lexeme.token ++ l.token :: us)) := by
  have htree := treeOf_eq_error hls h (by simp)
  obtain ⟨before, after, rfl, rfl, hbegins, hends⟩ := exists_prefix_of_treeOf htree
  obtain ⟨hplaces, hpairs⟩ := (lexemes_eq_ok_iff.mp hls).places
  obtain ⟨-, hafter, hbefore⟩ := List.pairwise_append.mp hpairs
  cases after with
  | nil =>
    refine ⟨before, [], rfl, fun l hl => ?_, by simp, hbegins, .inl ⟨rfl, rfl⟩⟩
    simpa [placeOf, String.length_toList] using (hplaces l (by simpa using hl)).2
  | cons l after =>
    refine ⟨before, l :: after, rfl, fun l' hl' => hbefore l' hl' l (by simp), ?_, hbegins,
      .inr ⟨l, rfl, rfl, hends l rfl⟩⟩
    exact List.forall_mem_cons.mpr
      ⟨Nat.le_refl _, fun l' hl' => Nat.le_of_lt ((List.pairwise_cons.mp hafter).1 l' hl')⟩

/-- Behind the plus of a group only an operand is awaited. -/
theorem parse_fails_at_closing_behind_plus :
    parse "2*(x+)" = .error (.malformed (.unexpected (some .closing)) 5) ∧
    ∃ before after, lexemes "2*(x+)".toList = .ok (before ++ after) ∧ (∀ l ∈ before, l.offset < 5) ∧
      (∀ l ∈ after, 5 ≤ l.offset) ∧
        (∃ us, us ≠ [] ∧ Forms anyNumber .sum (before.map Lexeme.token ++ us)) ∧
      (after = [] ∧ 5 = "2*(x+)".length ∨ ∃ l ∈ after.head?, 5 = l.offset ∧
        ∀ us, ¬ Forms anyNumber .sum (before.map Lexeme.token ++ l.token :: us)) := by
  have hls : lexemes "2*(x+)".toList = .ok [⟨.number 2.0, 0, ['2']⟩, ⟨.star, 1, ['*']⟩,
      ⟨.opening, 2, ['(']⟩, ⟨.identifier "x", 3, ['x']⟩, ⟨.plus, 4, ['+']⟩,
      ⟨.closing, 5, [')']⟩] := by
    decide +kernel
  have hunit : (parse "2*(x+)").map (fun _ => ()) =
      .error (.malformed (.unexpected (some .closing)) 5) := by
    decide +kernel
  have herror := map_eq_error_iff.mp hunit
  obtain ⟨before, after, hsplit, hfails⟩ := parse_fails_at_first_hopeless_lexeme hls herror
  exact ⟨herror, before, after, hls.trans (congrArg _ hsplit), hfails⟩

end InitialValue.Expression
