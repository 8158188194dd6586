import InitialValue.Proofs.Grammar

/-! What each parser of expressions yields, rule by rule and without mention of its
result's proof that something was read. A parser yields a value and the lexemes it
leaves; the loops of chains are given as a relation that is read from the left. -/

namespace InitialValue.Expression

variable {α β : Type} {ts us rest : List Lexeme}

/-! ### Results of parsers -/

/-- The result is `a`, with `rest` left to be read. -/
def Yields (r : Except ParseError (Parsed α ts)) (a : α) (rest : List Lexeme) : Prop :=
  ∃ shorter, r = .ok ⟨a, rest, shorter⟩

theorem yields_ok_iff {p : Parsed α ts} {a : α} :
    Yields (.ok p) a rest ↔ a = p.value ∧ rest = p.rest := by
  constructor
  · rintro ⟨_, h⟩
    cases h
    exact ⟨rfl, rfl⟩
  · rintro ⟨rfl, rfl⟩
    exact ⟨p.shorter, rfl⟩

@[simp] theorem not_yields_error {e : ParseError} {a : α} :
    ¬ Yields (.error e : Except ParseError (Parsed α ts)) a rest := by
  rintro ⟨_, h⟩
  cases h

theorem Yields.functional {r : Except ParseError (Parsed α ts)} {a b : α} {rest' : List Lexeme}
    (h : Yields r a rest) (h' : Yields r b rest') : a = b ∧ rest = rest' := by
  obtain ⟨_, rfl⟩ := h
  obtain ⟨rfl, rfl⟩ := yields_ok_iff.mp h'
  exact ⟨rfl, rfl⟩

theorem yields_bind_iff {r : Except ParseError (Parsed α us)}
    {g : Parsed α us → Except ParseError (Parsed β ts)} {b : β} :
    Yields (r >>= g) b rest ↔ ∃ p, r = .ok p ∧ Yields (g p) b rest := by
  cases r with
  | error e => simp [bind, Except.bind]
  | ok p => simp [bind, Except.bind]

theorem yields_widen_iff {r : Except ParseError (Parsed α us)} {a : α} (h : us.length ≤ ts.length) :
    Yields (r.map (·.widen h) : Except ParseError (Parsed α ts)) a rest ↔ Yields r a rest := by
  cases r with
  | error e => simp [Except.map]
  | ok p => simp [Except.map, yields_ok_iff, Parsed.widen]

theorem yields_map_iff {r : Except ParseError (Parsed α us)} {b : β} (g : α → β)
    (h : us.length ≤ ts.length) :
    Yields (r.map fun p => (p.map g).widen h : Except ParseError (Parsed β ts)) b rest ↔
      ∃ a, Yields r a rest ∧ b = g a := by
  cases r with
  | error e => simp [Except.map]
  | ok p =>
    simp only [Except.map, yields_ok_iff, Parsed.widen, Parsed.map]
    constructor
    · rintro ⟨hb, hp⟩
      exact ⟨p.value, ⟨rfl, hp⟩, hb⟩
    · rintro ⟨_, ⟨rfl, hp⟩, hb⟩
      exact ⟨hb, hp⟩

/-- Going on after a result with a lexeme left. -/
theorem exists_yields_ok_cons {a : α} {u : Lexeme} {hs} {P : α → Lexeme → List Lexeme → Prop} :
    (∃ b t mid, Yields (.ok (⟨a, u :: us, hs⟩ : Parsed α ts)) b (t :: mid) ∧ P b t mid) ↔
      P a u us := by
  constructor
  · rintro ⟨b, t, mid, h, hp⟩
    obtain ⟨rfl, h⟩ := yields_ok_iff.mp h
    cases h
    exact hp
  · intro hp
    exact ⟨a, u, us, yields_ok_iff.mpr ⟨rfl, rfl⟩, hp⟩

/-- The lexeme at the front, if there is one, is not `token`. -/
def Without (token : Token) (ts : List Lexeme) : Prop := ∀ t ∈ ts.head?, t.token ≠ token

/-! ### Chains of operands -/

section Chain

variable {operator? : Token → Option Operator} {operand : Parser Tree}

theorem chain_nil {a : Tree} (hs : ([] : List Lexeme).length < ts.length) :
    chain operator? operand (⟨a, [], hs⟩ : Parsed Tree ts) = .ok ⟨a, [], hs⟩ := by
  rw [chain.eq_def]

theorem chain_stop {a : Tree} {l : Lexeme} {rest : List Lexeme}
    (hs : (l :: rest).length < ts.length) (ho : operator? l.token = none) :
    chain operator? operand (⟨a, l :: rest, hs⟩ : Parsed Tree ts) = .ok ⟨a, l :: rest, hs⟩ := by
  rw [chain.eq_def]
  simp only [ho]

theorem chain_step {a : Tree} {l : Lexeme} {rest : List Lexeme} {op : Operator}
    (hs : (l :: rest).length < ts.length) (ho : operator? l.token = some op) :
    chain operator? operand (⟨a, l :: rest, hs⟩ : Parsed Tree ts) =
      operand rest >>= fun right => chain operator? operand ⟨.binary op a right.value, right.rest,
        Nat.lt_trans right.shorter (Nat.lt_trans (Nat.lt_succ_self _) hs)⟩ := by
  rw [chain.eq_def]
  simp only [ho]
  cases operand rest <;> rfl

/-- The loop of a chain: with `a` read before `ts`, it ends with `b` read before `rest`. -/
inductive Chains (operator? : Token → Option Operator) (operand : Parser Tree) :
    Tree → List Lexeme → Tree → List Lexeme → Prop
  | stop {a rest} : (∀ t ∈ rest.head?, operator? t.token = none) →
      Chains operator? operand a rest a rest
  | step {a t ts op b mid c rest} : operator? t.token = some op → Yields (operand ts) b mid →
      Chains operator? operand (.binary op a b) mid c rest →
        Chains operator? operand a (t :: ts) c rest

theorem yields_chain_iff {left : Parsed Tree ts} {b : Tree} :
    Yields (chain operator? operand left) b rest ↔
      Chains operator? operand left.value left.rest b rest := by
  induction left using chain.induct operator? operand with
  | case1 left hr =>
    obtain ⟨a, us, hs⟩ := left
    cases hr
    rw [chain.eq_def, yields_ok_iff]
    constructor
    · rintro ⟨rfl, rfl⟩
      exact .stop (by simp)
    · intro h
      cases h
      exact ⟨rfl, rfl⟩
  | case2 left t us hr ho =>
    obtain ⟨a, us, hs⟩ := left
    cases hr
    rw [chain.eq_def]
    simp only [ho, yields_ok_iff]
    constructor
    · rintro ⟨rfl, rfl⟩
      exact .stop (by simpa using ho)
    · intro h
      cases h with
      | stop _ => exact ⟨rfl, rfl⟩
      | step ho' _ _ => simp [ho] at ho'
  | case3 left t us hr op ho e he =>
    obtain ⟨a, us, hs⟩ := left
    cases hr
    rw [chain.eq_def]
    simp only [ho, he, not_yields_error, false_iff]
    intro h
    cases h with
    | stop hn => simp [ho] at hn
    | step _ hb _ => simp [he] at hb
  | case4 left t us hr op ho right hright this ih =>
    obtain ⟨a, us, hs⟩ := left
    cases hr
    rw [chain.eq_def]
    simp only [ho, hright, ih]
    constructor
    · intro h
      exact .step ho ⟨right.shorter, hright⟩ h
    · intro h
      cases h with
      | stop hn => simp [ho] at hn
      | step ho' hb hc =>
        obtain rfl := Option.some.inj (ho.symm.trans ho')
        obtain ⟨rfl, rfl⟩ := hb.functional ⟨right.shorter, hright⟩
        exact hc

theorem yields_bind_chain_iff {r : Except ParseError (Parsed Tree ts)} {b : Tree} :
    Yields (r >>= chain operator? operand) b rest ↔
      ∃ a mid, Yields r a mid ∧ Chains operator? operand a mid b rest := by
  simp only [yields_bind_iff, yields_chain_iff]
  constructor
  · rintro ⟨p, hp, h⟩
    exact ⟨p.value, p.rest, ⟨p.shorter, hp⟩, h⟩
  · rintro ⟨a, mid, ⟨hs, hp⟩, h⟩
    exact ⟨⟨a, mid, hs⟩, hp, h⟩

end Chain

variable {nested : Parser Tree} {stop offset : Nat} {text : List Char} {name : String} {a : Tree}

theorem yields_term_iff : Yields (term nested ts) a rest ↔
    ∃ b mid, Yields (nested ts) b mid ∧ Chains multiplicative? nested b mid a rest :=
  yields_bind_chain_iff

theorem yields_sum_iff : Yields (sum nested ts) a rest ↔
    ∃ b mid, Yields (term nested ts) b mid ∧ Chains additive? (term nested) b mid a rest :=
  yields_bind_chain_iff

/-! ### Arguments and calls -/

theorem yields_arguments_iff {argument : Parser Tree} {args : List Tree} :
    Yields (arguments argument stop ts) args rest ↔
      ∃ a t mid, Yields (argument ts) a (t :: mid) ∧
        (t.token = .closing ∧ args = [a] ∧ rest = mid ∨
          t.token = .comma ∧ ∃ more, Yields (arguments argument stop mid) more rest ∧
            args = a :: more) := by
  rw [arguments.eq_def]
  match harg : argument ts with
  | .error e => simp
  | .ok ⟨a, [], hs⟩ => simp [yields_ok_iff]
  | .ok ⟨a, ⟨token, offset, text⟩ :: mid, hs⟩ =>
    rw [exists_yields_ok_cons]
    cases token with
    | closing => simp [yields_ok_iff]
    | comma =>
      simp only [reduceCtorEq, false_and, true_and, false_or]
      have hmid : mid.length ≤ ts.length := by simp at hs; omega
      rw [← yields_map_iff (a :: ·) hmid]
      cases arguments argument stop mid <;> rfl
    | _ => simp

theorem argumentList_closing {argument : Parser Tree} {args : List Tree} :
    Yields (argumentList argument stop (⟨.closing, offset, text⟩ :: ts)) args rest ↔
      args = [] ∧ rest = ts := yields_ok_iff

theorem argumentList_of_without {argument : Parser Tree} (h : Without .closing ts) :
    argumentList argument stop ts = arguments argument stop ts := by
  match ts with
  | [] => rfl
  | ⟨token, offset, text⟩ :: ts =>
    cases token with
    | closing => simp [Without] at h
    | _ => rfl

theorem yields_call_iff {position : Nat} :
    Yields (call nested stop name position ts) a rest ↔
      ∃ f args, Builtin.ofName? name = some f ∧
        Yields (argumentList (sum nested) stop ts) args rest ∧
        f.arity.accepts args.length = true ∧ a = .call f args := by
  rw [call]
  split
  · next hf => simp [hf]
  · next f hf =>
    split
    · next he => simp [he]
    · next args hargs =>
      simp only [hf, hargs, Option.some.injEq, yields_ok_iff]
      split
      · next ha =>
        rw [yields_ok_iff]
        constructor
        · rintro ⟨rfl, rfl⟩
          exact ⟨f, args.value, rfl, ⟨rfl, rfl⟩, ha, rfl⟩
        · rintro ⟨_, _, rfl, ⟨rfl, rfl⟩, _, rfl⟩
          exact ⟨rfl, rfl⟩
      · next ha =>
        simp only [not_yields_error, false_iff]
        rintro ⟨_, _, rfl, ⟨rfl, rfl⟩, ha', rfl⟩
        exact ha ha'

theorem yields_closed_iff {inner : Parsed Tree ts} :
    Yields (closed stop inner) a rest ↔
      ∃ t, t.token = .closing ∧ inner.rest = t :: rest ∧ a = inner.value := by
  match inner with
  | ⟨b, [], hs⟩ => simp [closed]
  | ⟨b, ⟨token, offset, text⟩ :: mid, hs⟩ =>
    cases token with
    | closing =>
      simp only [closed, yields_ok_iff]
      constructor
      · rintro ⟨rfl, rfl⟩
        exact ⟨_, rfl, rfl, rfl⟩
      · rintro ⟨t, _, hr, rfl⟩
        cases hr
        exact ⟨rfl, rfl⟩
    | _ =>
      simp only [closed, not_yields_error, false_iff]
      rintro ⟨t, ht, hr, _⟩
      cases hr
      cases ht

/-! ### Primaries, powers and signs -/

theorem yields_primary_number_iff {v : Float} :
    Yields (primary nested stop (⟨.number v, offset, text⟩ :: ts)) a rest ↔
      a = .literal v ∧ rest = ts := yields_ok_iff

theorem yields_primary_symbol_iff (h : Without .opening ts) :
    Yields (primary nested stop (⟨.identifier name, offset, text⟩ :: ts)) a rest ↔
      ∃ s, Symbol.ofName? name = some s ∧ a = .symbol s ∧ rest = ts := by
  cases hs : Symbol.ofName? name with
  | none =>
    match ts with
    | [] => simp [primary, hs]
    | ⟨token, _, _⟩ :: us =>
      cases token with
      | opening => simp [Without] at h
      | _ => simp [primary, hs]
  | some s =>
    match ts with
    | [] => simp [primary, hs, yields_ok_iff]
    | ⟨token, _, _⟩ :: us =>
      cases token with
      | opening => simp [Without] at h
      | _ => simp [primary, hs, yields_ok_iff]

theorem yields_primary_call_iff {offset' : Nat} {text' : List Char} :
    Yields
      (primary nested stop (⟨.identifier name, offset, text⟩ :: ⟨.opening, offset', text'⟩ :: ts)) a
      rest ↔ Yields (call nested stop name offset ts) a rest :=
  yields_widen_iff (r := call nested stop name offset ts) _

theorem yields_primary_group_iff :
    Yields (primary nested stop (⟨.opening, offset, text⟩ :: ts)) a rest ↔
      ∃ t, t.token = .closing ∧ Yields (sum nested ts) a (t :: rest) := by
  refine (yields_widen_iff (r := sum nested ts >>= closed stop) _).trans ?_
  simp only [yields_bind_iff, yields_closed_iff]
  constructor
  · rintro ⟨⟨b, _, hs⟩, hp, t, ht, rfl, rfl⟩
    exact ⟨t, ht, hs, hp⟩
  · rintro ⟨t, ht, hs, h⟩
    exact ⟨_, h, t, ht, rfl, rfl⟩

theorem yields_raised_iff {base : Parsed Tree ts} : Yields (raised nested base) a rest ↔
    Without .caret base.rest ∧ a = base.value ∧ rest = base.rest ∨
      ∃ t us c, base.rest = t :: us ∧ t.token = .caret ∧ Yields (nested us) c rest ∧
        a = .binary .pow base.value c := by
  match base with
  | ⟨b, [], hs⟩ => simp [raised, Without, yields_ok_iff]
  | ⟨b, ⟨token, offset, text⟩ :: mid, hs⟩ =>
    cases token with
    | caret =>
      have hmid : mid.length ≤ ts.length := by simp at hs; omega
      refine (yields_map_iff (Tree.binary .pow b) hmid).trans ?_
      constructor
      · rintro ⟨c, h, rfl⟩
        exact .inr ⟨_, mid, c, rfl, rfl, h, rfl⟩
      · rintro (⟨hn, _⟩ | ⟨t, us, c, hr, _, h, rfl⟩)
        · simp [Without] at hn
        · cases hr
          exact ⟨c, h, rfl⟩
    | _ => simp [raised, Without, yields_ok_iff]

/-- A power ends after its primary when no caret follows, and otherwise after the exponent. -/
theorem yields_power_iff : Yields (power nested stop ts) a rest ↔
    ∃ b mid, Yields (primary nested stop ts) b mid ∧
      (Without .caret mid ∧ a = b ∧ rest = mid ∨
        ∃ t us c, mid = t :: us ∧ t.token = .caret ∧ Yields (nested us) c rest ∧
          a = .binary .pow b c) := by
  rw [power, yields_bind_iff]
  constructor
  · rintro ⟨⟨b, mid, hs⟩, hp, h⟩
    exact ⟨b, mid, ⟨hs, hp⟩, yields_raised_iff.mp h⟩
  · rintro ⟨b, mid, ⟨hs, hp⟩, h⟩
    exact ⟨⟨b, mid, hs⟩, hp, yields_raised_iff.mpr h⟩

theorem yields_signed_minus_iff :
    Yields (signed nested stop (⟨.minus, offset, text⟩ :: ts)) a rest ↔
      ∃ b, Yields (nested ts) b rest ∧ a = .signed .minus b := yields_map_iff _ _

theorem yields_signed_plus_iff :
    Yields (signed nested stop (⟨.plus, offset, text⟩ :: ts)) a rest ↔
      ∃ b, Yields (nested ts) b rest ∧ a = .signed .plus b := yields_map_iff _ _

theorem signed_of_without (hp : Without .plus ts) (hm : Without .minus ts) :
    signed nested stop ts = power nested stop ts := by
  match ts with
  | [] => rfl
  | ⟨token, offset, text⟩ :: ts =>
    cases token with
    | plus => simp [Without] at hp
    | minus => simp [Without] at hm
    | _ => rfl

end InitialValue.Expression
