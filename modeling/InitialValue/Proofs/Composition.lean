import InitialValue.Proofs.Alike
import Mathlib.Order.Lattice.Nat
import Mathlib.Order.Bounds.Basic

/-! Texts put together from texts. What a text in parentheses means does not depend on what
surrounds it, and the number of levels that reading the whole needs is known from the
numbers that its parts need: a phrase is read from so many levels on, and with fewer of them
its parser does nothing but lack levels. The rules below give that number for each phrase
from those of its parts, as the grammar puts them together. -/

namespace InitialValue.Expression

variable {α β : Type} {ts us rest mid : List Lexeme} {n k stop : Nat}
  {tokens more : List Token} {a b : Tree}
  {text : List Char}

/-! ### Numbers of levels -/

/-- The results with each number of levels: from `need` levels on the value is `a`, with `rest`
left, and fewer levels are too few. -/
structure Needs (need : Nat) (results : Nat → Except ParseError (Parsed α ts)) (a : α)
    (rest : List Lexeme) :
    Prop where
  enough : ∀ levels, need ≤ levels → Yields (results levels) a rest
  tooFew : ∀ levels, levels < need → results levels = .error .tooDeep

section Needs

variable {r : Nat → Except ParseError (Parsed α ts)} {a : α} {b : β}

theorem Needs.bind {g : Nat → Parsed α ts → Except ParseError (Parsed β us)} (h : Needs n r a mid)
    (hg : ∀ hs, Needs k (fun levels => g levels ⟨a, mid, hs⟩) b rest) :
    Needs (max n k) (fun levels => r levels >>= g levels) b rest where
  enough levels hlevels := by
    obtain ⟨hs, hr⟩ := h.enough levels (Nat.le_trans (Nat.le_max_left n k) hlevels)
    exact yields_bind_iff.mpr ⟨_, hr,
      (hg hs).enough levels (Nat.le_trans (Nat.le_max_right n k) hlevels)⟩
  tooFew levels hlevels := by
    obtain hn | hn := Nat.lt_or_ge levels n
    · exact bind_eq_error_iff.mpr (.inl (h.tooFew levels hn))
    · obtain ⟨hs, hr⟩ := h.enough levels hn
      exact bind_eq_error_iff.mpr (.inr ⟨_, hr, (hg hs).tooFew levels (by omega)⟩)

/-- What comes behind may need no levels. -/
theorem Needs.bind_yields {g : Nat → Parsed α ts → Except ParseError (Parsed β us)}
    (h : Needs n r a mid) (hg : ∀ levels hs, Yields (g levels ⟨a, mid, hs⟩) b rest) :
    Needs n (fun levels => r levels >>= g levels) b rest := by
  rw [← Nat.max_zero n]
  exact h.bind fun hs => ⟨fun levels _ => hg levels hs,
    fun levels hl => absurd hl (Nat.not_lt_zero levels)⟩

theorem Needs.widen (h : Needs n r a rest) (hs : ts.length ≤ us.length) :
    Needs n
      (fun levels => ((r levels).map (·.widen hs) : Except ParseError (Parsed α us))) a rest where
  enough levels hlevels := (yields_widen_iff hs).mpr (h.enough levels hlevels)
  tooFew levels hlevels := map_eq_error_iff.mpr (h.tooFew levels hlevels)

theorem Needs.map (h : Needs n r a rest) (g : α → β) (hs : ts.length ≤ us.length) :
    Needs n
      (fun levels => ((r levels).map fun p => (p.map g).widen hs : Except ParseError (Parsed β us)))
      (g a) rest where
  enough levels hlevels := (yields_map_iff g hs).mpr ⟨a, h.enough levels hlevels, rfl⟩
  tooFew levels hlevels := map_eq_error_iff.mpr (h.tooFew levels hlevels)

end Needs

section Chain

variable {operator? : Token → Option Operator} {operand : Nat → Parser Tree}

theorem Needs.chain_stop (h : Needs n (fun levels => operand levels ts) a rest)
    (hr : ∀ l ∈ rest.head?, operator? l.token = none) :
    Needs n (fun levels => operand levels ts >>= chain operator? (operand levels)) a rest :=
  h.bind_yields fun _ _ => yields_chain_iff.mpr (.stop hr)

theorem Needs.chain_step {l : Lexeme} {op : Operator}
    (h : Needs n (fun levels => operand levels ts) a (l :: us)) (ho : operator? l.token = some op)
    (h' : Needs k (fun levels => operand levels us) b rest)
    (hr : ∀ l ∈ rest.head?, operator? l.token = none) :
    Needs (max n k) (fun levels => operand levels ts >>= chain operator? (operand levels))
      (.binary op a b)
      rest := by
  refine h.bind fun hs => ?_
  simp only [Expression.chain_step hs ho]
  exact h'.bind_yields fun _ _ => yields_chain_iff.mpr (.stop hr)

end Chain

/-! ### Phrases -/

/-- The tokens that go on with a phrase. -/
def Phrase.goesOn : Phrase → List Token
  | .sum => [.plus, .minus, .star, .slash, .caret, .opening]
  | .term => [.star, .slash, .caret, .opening]
  | .unary | .power => [.caret, .opening]
  | .primary => [.opening]

/-- The parser of a phrase. -/
def reader (stop levels : Nat) : Phrase → Parser Tree
  | .sum => sum (unary stop levels)
  | .term => term (unary stop levels)
  | .unary => unary stop levels
  | .power => power (unary stop levels) stop
  | .primary => primary (unary stop levels) stop

/-- With `need` levels or more, the phrase reads the tokens as this tree wherever nothing goes on
with it, and fewer levels are too few. -/
def Takes (stop need : Nat) (p : Phrase) (tokens : List Token) (a : Tree) : Prop :=
  ∀ us rest, us.map Lexeme.token = tokens → (∀ l ∈ rest.head?, l.token ∉ p.goesOn) →
    Needs need (fun levels => reader stop levels p (us ++ rest)) a rest

/-- With fewer levels a sum is read in the same way, or they are too few. -/
theorem yields_sum_or_tooDeep {levels : Nat} (hlevels : levels ≤ n)
    (h : Yields (sum (unary stop n) ts) a rest) :
    Yields (sum (unary stop levels) ts) a rest ∨ sum (unary stop levels) ts = .error .tooDeep := by
  let w : Abreast := ⟨ts, ts, stop, stop, List.forall₂_same.mpr fun l _ => .refl l.token⟩
  have hstart : w.At ts ts := ⟨0, rfl, rfl⟩
  have hagree : w.Agree (sum (unary stop levels) ts) (sum (unary stop n) ts) :=
    (Abreast.agrees_unary hlevels).sum hstart
  obtain ⟨hs, hok⟩ := h
  rw [hok] at hagree
  generalize sum (unary stop levels) ts = r at hagree
  cases hagree with
  | tooDeep => exact .inr rfl
  | ok hv hrest =>
    obtain ⟨i, hp, hq⟩ := hrest
    exact .inl (yields_ok_iff.mpr ⟨hv.symm, hq.trans hp.symm⟩)

/-- A sum that is derived with so many levels, and not with fewer, is read with so many. -/
theorem takes_of_isLeast (h : IsLeast {levels | Derives levels .sum tokens a} n) (stop : Nat) :
    Takes stop n .sum tokens a := by
  intro us rest hus hr
  have hyields : ∀ levels, n ≤ levels → Yields (sum (unary stop levels) (us ++ rest)) a rest := by
    intro levels hlevels
    have hends : Ends .sum rest :=
      fun l hl hc => hr l hl (by simp_all [Phrase.carryOn, Phrase.goesOn])
    refine yields_sum_of_reaches ((h.1.mono hlevels).recovers hus hends) ?_ ?_
    · exact fun l hl ht => hr l hl (by simp [ht, Phrase.goesOn])
    · exact fun l hl ht => hr l hl (by simp [ht, Phrase.goesOn])
  refine ⟨hyields, fun levels hlevels => ?_⟩
  refine (yields_sum_or_tooDeep (Nat.le_of_lt hlevels) (hyields n (Nat.le_refl n))).resolve_left
    fun hy => ?_
  -- what is read with fewer levels is derived with fewer
  obtain ⟨read, hread, hd⟩ := readsOnly_sum (readsOnly_unary stop levels) hy
  obtain rfl := List.append_cancel_right hread
  rw [hus] at hd
  exact absurd (h.2 hd) (Nat.not_le.mpr hlevels)

theorem Takes.group (h : Takes stop n .sum tokens a) :
    Takes stop n .primary (.opening :: (tokens ++ [.closing])) a := by
  intro us rest hus _
  obtain ⟨⟨_, offset, text⟩, vs, rfl, ⟨⟩, hvs⟩ := List.map_eq_cons_iff.mp hus
  obtain ⟨ws, t, xs, rfl, hws, ht, hxs⟩ := map_token_eq_append_cons hvs
  obtain rfl := List.map_eq_nil_iff.mp hxs
  rw [List.cons_append, List.append_assoc]
  have hsum := h ws (t :: rest) hws (by simp [ht, Phrase.goesOn])
  exact (hsum.bind_yields fun _ _ => yields_closed_iff.mpr ⟨t, ht, rfl, rfl⟩).widen _

theorem Takes.ofPrimary (h : Takes stop n .primary tokens a) : Takes stop n .power tokens a := by
  intro us rest hus hr
  have hprimary := h us rest hus fun l hl hc => hr l hl (by simp_all [Phrase.goesOn])
  refine hprimary.bind_yields fun _ _ => yields_raised_iff.mpr (.inl ⟨fun l hl ht => ?_, rfl, rfl⟩)
  exact hr l hl (by simp [ht, Phrase.goesOn])

theorem Takes.pow (h : Takes stop n .primary tokens a) (h' : Takes stop k .unary more b) :
    Takes stop (max n k) .power (tokens ++ .caret :: more) (.binary .pow a b) := by
  intro us rest hus hr
  obtain ⟨vs, ⟨_, offset, text⟩, ws, rfl, hvs, ⟨⟩, hws⟩ := map_token_eq_append_cons hus
  rw [List.append_assoc]
  have hprimary := h vs (⟨.caret, offset, text⟩ :: (ws ++ rest)) hvs (by simp [Phrase.goesOn])
  exact hprimary.bind fun _ => (h' ws rest hws hr).map _ _

/-- Every unary takes one level. -/
theorem needs_unary (h : Needs n (fun levels => signed (unary stop levels) stop ts) a rest) :
    Needs (n + 1) (fun levels => unary stop levels ts) a rest where
  enough levels hlevels := by
    obtain ⟨levels, rfl⟩ := Nat.exists_eq_add_of_le' (Nat.one_le_of_lt hlevels)
    exact h.enough levels (Nat.le_of_succ_le_succ hlevels)
  tooFew levels hlevels := by
    cases levels with
    | zero => rfl
    | succ levels => exact h.tooFew levels (Nat.lt_of_succ_lt_succ hlevels)

theorem Takes.ofPower {t : Token} (h : Takes stop n .power (t :: tokens) a)
    (ht : t.startsPrimary = true) : Takes stop (n + 1) .unary (t :: tokens) a := by
  intro us rest hus hr
  obtain ⟨l, vs, rfl, rfl, hvs⟩ := List.map_eq_cons_iff.mp hus
  have hp : Without .plus (l :: vs ++ rest) := by
    rintro _ ⟨⟩ hl
    simp [hl, Token.startsPrimary] at ht
  have hm : Without .minus (l :: vs ++ rest) := by
    rintro _ ⟨⟩ hl
    simp [hl, Token.startsPrimary] at ht
  refine needs_unary ?_
  simp only [signed_of_without hp hm]
  exact h (l :: vs) rest hus hr

theorem Takes.signed {t : Token} {sign : Sign} (h : Takes stop n .unary tokens a)
    (ht : t = .plus ∧ sign = .plus ∨ t = .minus ∧ sign = .minus) :
    Takes stop (n + 1) .unary (t :: tokens) (.signed sign a) := by
  intro us rest hus hr
  obtain ⟨⟨_, offset, text⟩, vs, rfl, rfl, hvs⟩ := List.map_eq_cons_iff.mp hus
  have hoperand := h vs rest hvs hr
  obtain ⟨rfl, rfl⟩ | ⟨rfl, rfl⟩ := ht
  · exact needs_unary (hoperand.map _ _)
  · exact needs_unary (hoperand.map _ _)

/-- No operator of the chain goes on with a term, or with a sum. -/
theorem operator?_eq_none_of_goesOn {l : Lexeme} :
    (l.token ∉ Phrase.goesOn .term → multiplicative? l.token = none) ∧
      (l.token ∉ Phrase.goesOn .sum →
        additive? l.token = none ∧ multiplicative? l.token = none) := by
  cases l.token <;> simp [Phrase.goesOn, additive?, multiplicative?]

/-- An operator of the chain does not go on with its left operand. -/
theorem notMem_goesOn_of_operator? {t : Token} {op : Operator} :
    (multiplicative? t = some op → t ∉ Phrase.goesOn .unary) ∧
      (additive? t = some op → t ∉ Phrase.goesOn .term) := by
  cases t <;> simp [Phrase.goesOn, additive?, multiplicative?]

theorem Takes.ofUnary (h : Takes stop n .unary tokens a) : Takes stop n .term tokens a := by
  intro us rest hus hr
  have hunary := h us rest hus fun l hl hc => hr l hl (by simp_all [Phrase.goesOn])
  exact hunary.chain_stop fun l hl => operator?_eq_none_of_goesOn.1 (hr l hl)

theorem Takes.product {t : Token} {op : Operator} (h : Takes stop n .unary tokens a)
    (ht : multiplicative? t = some op) (h' : Takes stop k .unary more b) :
    Takes stop (max n k) .term (tokens ++ t :: more) (.binary op a b) := by
  intro us rest hus hr
  obtain ⟨vs, l, ws, rfl, hvs, rfl, hws⟩ := map_token_eq_append_cons hus
  rw [List.append_assoc]
  have hleft := h vs (l :: (ws ++ rest)) hvs (by simpa using notMem_goesOn_of_operator?.1 ht)
  have hright := h' ws rest hws fun l hl hc => hr l hl (by simp_all [Phrase.goesOn])
  exact hleft.chain_step ht hright fun l hl => operator?_eq_none_of_goesOn.1 (hr l hl)

theorem Takes.ofTerm (h : Takes stop n .term tokens a) : Takes stop n .sum tokens a := by
  intro us rest hus hr
  have hterm := h us rest hus fun l hl hc => hr l hl (by simp_all [Phrase.goesOn])
  exact hterm.chain_stop fun l hl => (operator?_eq_none_of_goesOn.2 (hr l hl)).1

theorem Takes.total {t : Token} {op : Operator} (h : Takes stop n .term tokens a)
    (ht : additive? t = some op) (h' : Takes stop k .term more b) :
    Takes stop (max n k) .sum (tokens ++ t :: more) (.binary op a b) := by
  intro us rest hus hr
  obtain ⟨vs, l, ws, rfl, hvs, rfl, hws⟩ := map_token_eq_append_cons hus
  rw [List.append_assoc]
  have hleft := h vs (l :: (ws ++ rest)) hvs (by simpa using notMem_goesOn_of_operator?.2 ht)
  have hright := h' ws rest hws fun l hl hc => hr l hl (by simp_all [Phrase.goesOn])
  exact hleft.chain_step ht hright fun l hl => (operator?_eq_none_of_goesOn.2 (hr l hl)).1

/-! ### Calls -/

/-- The tokens are read as these arguments, with so many levels or more. -/
def TakesArguments (stop need : Nat) (tokens : List Token) (args : List Tree) : Prop :=
  ∀ us rest, us.map Lexeme.token = tokens →
    Needs need (fun levels => arguments (sum (unary stop levels)) stop (us ++ rest)) args rest

theorem arguments_eq_error {argument : Parser Tree} {e : ParseError} (h : argument ts = .error e) :
    arguments argument stop ts = .error e := by
  rw [arguments.eq_def, h]

theorem Takes.lastArgument (h : Takes stop n .sum tokens a) :
    TakesArguments stop n (tokens ++ [Token.closing]) [a] := by
  intro us rest hus
  obtain ⟨vs, t, ws, rfl, hvs, ht, hws⟩ := map_token_eq_append_cons hus
  obtain rfl := List.map_eq_nil_iff.mp hws
  rw [List.append_assoc]
  have hsum := h vs (t :: rest) hvs (by simp [ht, Phrase.goesOn])
  refine ⟨fun levels hlevels => ?_,
    fun levels hlevels => arguments_eq_error (hsum.tooFew levels hlevels)⟩
  exact yields_arguments_iff.mpr ⟨a, t, rest, hsum.enough levels hlevels, .inl ⟨ht, rfl, rfl⟩⟩

theorem Takes.argument {args : List Tree} (h : Takes stop n .sum tokens a)
    (h' : TakesArguments stop k more args) :
    TakesArguments stop (max n k) (tokens ++ .comma :: more) (a :: args) := by
  intro us rest hus
  obtain ⟨vs, ⟨_, offset, text⟩, ws, rfl, hvs, ⟨⟩, hws⟩ := map_token_eq_append_cons hus
  rw [List.append_assoc]
  have hsum := h vs (⟨.comma, offset, text⟩ :: (ws ++ rest)) hvs (by simp [Phrase.goesOn])
  have hmore := h' ws rest hws
  refine ⟨fun levels hlevels => ?_, fun levels hlevels => ?_⟩
  · have hfirst := hsum.enough levels (Nat.le_trans (Nat.le_max_left n k) hlevels)
    have hrest := hmore.enough levels (Nat.le_trans (Nat.le_max_right n k) hlevels)
    exact yields_arguments_iff.mpr ⟨a, _, _, hfirst, .inr ⟨rfl, args, hrest, rfl⟩⟩
  · obtain hn | hn := Nat.lt_or_ge levels n
    · exact arguments_eq_error (hsum.tooFew levels hn)
    · obtain ⟨hs, hok⟩ := hsum.enough levels hn
      have hfew := hmore.tooFew levels (by omega)
      rw [arguments.eq_def]
      simp only [reader] at hok
      simp [hok, hfew]

theorem call_eq_error {name : String} {f : Builtin} {nested : Parser Tree} {position : Nat}
    {e : ParseError} (hf : Builtin.ofName? name = some f)
    (h : argumentList (sum nested) stop ts = .error e) :
    call nested stop name position ts = .error e := by
  unfold call
  simp only [hf, h]

theorem without_closing_of_yields_arguments {args : List Tree}
    (h : Yields (arguments (sum (unary stop n)) stop ts) args rest) : Without .closing ts := by
  obtain ⟨a, t, mid, ha, -⟩ := yields_arguments_iff.mp h
  obtain ⟨read, rfl, hd⟩ := readsOnly_sum (readsOnly_unary stop n) ha
  obtain ⟨u, us, hu, hstart⟩ := hd.head
  obtain ⟨l, vs, rfl, rfl, -⟩ := List.map_eq_cons_iff.mp hu
  rintro _ ⟨⟩ hl
  simp [hl, Token.startsPrimary] at hstart

theorem TakesArguments.call {name : String} {f : Builtin} {args : List Tree}
    (h : TakesArguments stop n tokens args) (hf : Builtin.ofName? name = some f)
    (ha : f.arity.accepts args.length = true) :
    Takes stop n .primary (.identifier name :: .opening :: tokens) (.call f args) := by
  intro us rest hus _
  obtain ⟨⟨_, offset, text⟩, vs, rfl, ⟨⟩, hvs⟩ := List.map_eq_cons_iff.mp hus
  obtain ⟨⟨_, offset', text'⟩, ws, rfl, ⟨⟩, hws⟩ := List.map_eq_cons_iff.mp hvs
  have hargs := h ws rest hws
  have hc := without_closing_of_yields_arguments (hargs.enough n (Nat.le_refl n))
  simp only [← argumentList_of_without hc] at hargs
  refine ⟨fun levels hlevels => ?_, fun levels hlevels => ?_⟩
  · exact yields_primary_call_iff.mpr
      (yields_call_iff.mpr ⟨f, args, hf, hargs.enough levels hlevels, ha, rfl⟩)
  · exact map_eq_error_iff.mpr (call_eq_error hf (hargs.tooFew levels hlevels))

/-! ### Texts -/

/-- The text is cut into lexemes with these tokens, wherever it stands. -/
def Spelt (text : List Char) (tokens : List Token) : Prop :=
  ∀ offset, ∃ ls, Cut offset text ls ∧ ls.map Lexeme.token = tokens

theorem spelt_of_lexemes {ls : List Lexeme} (h : lexemes text = .ok ls) :
    Spelt text (ls.map Lexeme.token) := by
  intro offset
  have hcut := (lexemes_eq_ok_iff.mp h).shift offset
  rw [Nat.zero_add] at hcut
  exact ⟨_, hcut, by simp [Lexeme.shift, Function.comp_def]⟩

theorem Spelt.exists_lexemes (h : Spelt text tokens) :
    ∃ ls, lexemes text = .ok ls ∧ ls.map Lexeme.token = tokens := by
  obtain ⟨ls, hcut, hls⟩ := h 0
  exact ⟨ls, lexemes_eq_ok_iff.mpr hcut, hls⟩

theorem spelt_nil : Spelt [] [] := fun _ => ⟨[], .blanks (by simp), rfl⟩

theorem Spelt.append {c : Char} {behind : List Char} (h : Spelt text tokens) (hc : Parts c)
    (h' : Spelt (c :: behind) more) : Spelt (text ++ c :: behind) (tokens ++ more) := by
  intro offset
  obtain ⟨ls, hcut, rfl⟩ := h offset
  obtain ⟨ls', hcut', rfl⟩ := h' (offset + text.length)
  exact ⟨ls ++ ls', hcut.append hc hcut', List.map_append⟩

theorem Spelt.lexeme {t : Token} (lexeme : List Char)
    (hs : ∀ offset, Stands ⟨t, offset, lexeme⟩ text) (h : Spelt text tokens) :
    Spelt (lexeme ++ text) (t :: tokens) := by
  intro offset
  obtain ⟨ls, hcut, rfl⟩ := h (offset + lexeme.length)
  exact ⟨⟨t, offset, lexeme⟩ :: ls, .lexeme (List.forall_mem_nil _) rfl (hs offset) hcut, rfl⟩

/-- A mark that is the longest one at its place. -/
theorem Spelt.mark {t : Token} (c : Char) (tail : List Char)
    (hp : punctuation? c (tail ++ text).head? = some (t, tail)) (h : Spelt text tokens) :
    Spelt (c :: (tail ++ text)) (t :: tokens) := by
  obtain ⟨hm, hl⟩ := punctuation?_eq_some_iff.mp hp
  exact h.lexeme (c :: tail) fun _ => ⟨.mark hm, hl⟩

theorem isWord_of_ofName? {name : String} {f : Builtin} (hf : Builtin.ofName? name = some f) :
    IsWord name.toList := by
  have hall : ∀ entry ∈ Builtin.names, entry.1.toList.head?.any isWordStart = true ∧
      entry.1.toList.tail.all isWordPart = true := by
    decide +kernel
  obtain ⟨l₁, l₂, hnames, -⟩ := List.lookup_eq_some_iff.mp hf
  obtain ⟨hstart, hparts⟩ := hall (name, f) (by simp [hnames])
  generalize name.toList = cs at hstart hparts
  cases cs with
  | nil => simp at hstart
  | cons c tail => exact .intro (by simpa using hstart) (by simpa using hparts)

/-- The name of a function before its opening parenthesis. -/
theorem Spelt.name {name : String} {f : Builtin} {behind : List Char}
    (hf : Builtin.ofName? name = some f) (h : Spelt ('(' :: behind) tokens) :
    Spelt (name.toList ++ '(' :: behind) (.identifier name :: tokens) := by
  have hw := isWord_of_ofName? hf
  have hspells : Spells name.toList (.identifier name) := by
    have := Spells.identifier hw
    rwa [String.ofList_toList] at this
  exact h.lexeme _ fun offset =>
    stands_of_spells (l := ⟨.identifier name, offset, name.toList⟩) hspells
    (.inr (.inl hw)) parts_opening behind

/-- A text in parentheses. -/
theorem Spelt.bracketed {behind : List Char} (h : Spelt text tokens) (h' : Spelt behind more) :
    Spelt ('(' :: (text ++ ')' :: behind)) (.opening :: (tokens ++ .closing :: more)) := by
  have hclosing : Spelt (')' :: behind) (.closing :: more) := h'.mark ')' [] rfl
  exact (h.append parts_closing hclosing).mark '(' [] rfl

/-! ### Texts put together -/

/-- The least number of levels with which the text is read. -/
noncomputable def nesting (source : String) : Nat :=
  sInf {levels | ∃ ls a, lexemes source.toList = .ok ls ∧
    Derives levels .sum (ls.map Lexeme.token) a}

theorem isLeast_nesting {source : String} {ls : List Lexeme} (hls : lexemes source.toList = .ok ls)
    (hd : Derives n .sum (ls.map Lexeme.token) a) :
    IsLeast {levels | Derives levels .sum (ls.map Lexeme.token) a} (nesting source) := by
  refine ⟨?_, fun levels hlevels => Nat.sInf_le ⟨ls, a, hls, hlevels⟩⟩
  have hmem : nesting source ∈ {levels | ∃ ls a, lexemes source.toList = .ok ls ∧
      Derives levels .sum (ls.map Lexeme.token) a} := Nat.sInf_mem ⟨n, ls, a, hls, hd⟩
  obtain ⟨ls', b, hls', hleast⟩ := hmem
  obtain rfl := Except.ok.inj (hls.symm.trans hls')
  obtain rfl := hd.unique hleast
  exact hleast

theorem exists_takes_of_parse {source : String} {e : Expression} (h : parse source = .ok e) :
    ∃ tokens, Spelt source.toList tokens ∧
      ∀ stop, Takes stop (nesting source) .sum tokens e.root := by
  obtain ⟨-, -, ls, hls, hd⟩ := parse_eq_ok_iff.mp h
  exact ⟨ls.map Lexeme.token, spelt_of_lexemes hls, takes_of_isLeast (isLeast_nesting hls hd)⟩

theorem nesting_le {source : String} {ls : List Lexeme} (hls : lexemes source.toList = .ok ls)
    (hd : Derives n .sum (ls.map Lexeme.token) a) : nesting source ≤ n :=
  (isLeast_nesting hls hd).2 hd

/-- The text is read as this tree and needs so many levels, unless it is too long or they are too
many. -/
def ReadAs (source : String) (a : Tree) (levels : Nat) : Prop :=
  parse source =
    if 4096 < source.length then .error .tooLong
    else if 64 < levels then .error .tooDeep else .ok ⟨source, a⟩

theorem readAs_of_takes {source : String} (hs : Spelt source.toList tokens)
    (h : ∀ stop, Takes stop n .sum tokens a) : ReadAs source a n := by
  unfold ReadAs
  split
  · next hlong => exact if_pos hlong
  · next hlong =>
    obtain ⟨ls, hls, htokens⟩ := hs.exists_lexemes
    have hneeds := h source.length ls [] htokens (by simp)
    rw [List.append_nil] at hneeds
    rw [parse_of_lexemes (Nat.le_of_not_lt hlong) hls]
    split
    · next hdeep =>
      have hsum : sum (unary source.length maxNesting) ls = .error .tooDeep :=
        hneeds.tooFew maxNesting hdeep
      simp [treeOf, hsum, Except.map]
    · next hdeep =>
      rw [treeOf_eq_ok_iff.mpr (hneeds.enough maxNesting (Nat.le_of_not_lt hdeep))]
      rfl

/-- The operators as they are written. -/
def Operator.spellings : List (String × Operator) :=
  [("+", .add), ("-", .sub), ("*", .mul), ("/", .div), ("^", .pow), ("**", .pow)]

/-- The levels for two texts in parentheses with the operator between them, from those for each
text. An exponent is a unary within a unary. -/
def Operator.levels (op : Operator) (left right : Nat) : Nat :=
  match op with
  | .pow => max (left + 1) (right + 2)
  | _ => max (left + 1) (right + 1)

theorem readAs_operation {s t spelling : String} {o : Token} {ts us : List Token}
    (hs : Spelt s.toList ts) (ht : Spelt t.toList us) (c : Char) (tail : List Char)
    (hspelling : spelling.toList = c :: tail)
    (hp : ∀ behind, punctuation? c (tail ++ '(' :: behind).head? = some (o, tail))
    (h : ∀ stop, Takes stop n .sum
      (Token.opening :: (ts ++ [Token.closing]) ++ o :: Token.opening :: (us ++ [Token.closing]))
        a) :
    ReadAs ("(" ++ s ++ ")" ++ spelling ++ "(" ++ t ++ ")") a n := by
  have hright : Spelt ('(' :: (t.toList ++ [')'])) (.opening :: (us ++ [.closing])) :=
    ht.bracketed spelt_nil
  have hwhole := hs.bracketed (hright.mark c tail (hp _))
  refine readAs_of_takes ?_ h
  simpa [hspelling] using hwhole

/-- A text in parentheses is read as it is read alone, whatever operator, sign, function or other
argument is put to it, and the levels that the whole needs are those that its parts need alone and
the ones around them. -/
theorem parse_of_parts {s t : String} {e e' : Expression} (hs : parse s = .ok e)
    (ht : parse t = .ok e') :
    (∀ entry ∈ Operator.spellings, ReadAs ("(" ++ s ++ ")" ++ entry.1 ++ "(" ++ t ++ ")")
      (.binary entry.2 e.root e'.root) (entry.2.levels (nesting s) (nesting t))) ∧
    ReadAs ("(" ++ s ++ ")") e.root (nesting s + 1) ∧
    ReadAs ("-(" ++ s ++ ")") (.signed .minus e.root) (nesting s + 2) ∧
    ReadAs ("+(" ++ s ++ ")") (.signed .plus e.root) (nesting s + 2) ∧
    (∀ name f, Builtin.ofName? name = some f → f.arity.accepts 1 = true →
      ReadAs (name ++ "(" ++ s ++ ")") (.call f [e.root]) (nesting s + 1)) ∧
    ∀ name f, Builtin.ofName? name = some f → f.arity.accepts 2 = true →
      ReadAs (name ++ "(" ++ s ++ "," ++ t ++ ")") (.call f [e.root, e'.root])
        (max (nesting s + 1) (nesting t + 1)) := by
  obtain ⟨ts, hts, hleft⟩ := exists_takes_of_parse hs
  obtain ⟨us, hus, hright⟩ := exists_takes_of_parse ht
  have hgroup : Spelt ('(' :: (s.toList ++ [')'])) (.opening :: (ts ++ [.closing])) :=
    hts.bracketed spelt_nil
  have hleft' stop := (hleft stop).group.ofPrimary.ofPower rfl
  have hright' stop := (hright stop).group.ofPrimary.ofPower rfl
  refine ⟨?_, ?_, ?_, ?_, ?_, ?_⟩
  · have hproduct {o : Token} {op : Operator} (ho : multiplicative? o = some op) stop :=
      ((hleft' stop).product ho (hright' stop)).ofTerm
    have htotal {o : Token} {op : Operator} (ho : additive? o = some op) stop :=
      (hleft' stop).ofUnary.total ho (hright' stop).ofUnary
    have hpow stop := ((hleft stop).group.pow (hright' stop)).ofPower rfl |>.ofUnary.ofTerm
    rw [← Nat.add_max_add_right] at hpow
    intro entry hentry
    simp only [Operator.spellings, List.mem_cons, List.not_mem_nil, or_false] at hentry
    obtain rfl | rfl | rfl | rfl | rfl | rfl := hentry
    · exact readAs_operation hts hus '+' [] rfl (fun _ => rfl) (htotal rfl)
    · exact readAs_operation hts hus '-' [] rfl (fun _ => rfl) (htotal rfl)
    · exact readAs_operation hts hus '*' [] rfl (fun _ => rfl) (hproduct rfl)
    · exact readAs_operation hts hus '/' [] rfl (fun _ => rfl) (hproduct rfl)
    · exact readAs_operation hts hus '^' [] rfl (fun _ => rfl) hpow
    · exact readAs_operation hts hus '*' ['*'] rfl (fun _ => rfl) hpow
  · exact readAs_of_takes (by simpa using hgroup) fun stop => (hleft' stop).ofUnary.ofTerm
  · have hsign : Spelt ('-' :: '(' :: (s.toList ++ [')'])) _ := hgroup.mark '-' [] rfl
    exact readAs_of_takes (by simpa using hsign) fun stop =>
      ((hleft' stop).signed (.inr ⟨rfl, rfl⟩)).ofUnary.ofTerm
  · have hsign : Spelt ('+' :: '(' :: (s.toList ++ [')'])) _ := hgroup.mark '+' [] rfl
    exact readAs_of_takes (by simpa using hsign) fun stop =>
      ((hleft' stop).signed (.inl ⟨rfl, rfl⟩)).ofUnary.ofTerm
  · intro name f hf ha
    refine readAs_of_takes (by simpa using hgroup.name hf) fun stop => ?_
    exact (((hleft stop).lastArgument.call hf ha).ofPrimary.ofPower rfl).ofUnary.ofTerm
  · intro name f hf ha
    have hlast : Spelt (t.toList ++ [')']) (us ++ [.closing]) :=
      hus.append parts_closing (spelt_nil.mark ')' [] rfl)
    have hcomma : Spelt (',' :: (t.toList ++ [')'])) (.comma :: (us ++ [.closing])) :=
      hlast.mark ',' [] rfl
    have hargs : Spelt ('(' :: (s.toList ++ ',' :: (t.toList ++ [')']))) _ :=
      (hts.append parts_comma hcomma).mark '(' [] rfl
    rw [Nat.add_max_add_right]
    refine readAs_of_takes (by simpa using hargs.name hf) fun stop => ?_
    have hcall := ((hleft stop).argument (hright stop).lastArgument).call hf ha
    exact (hcall.ofPrimary.ofPower rfl).ofUnary.ofTerm

/-- The exponent and the second argument are the text of a negative number, which needs two levels
itself. -/
theorem parse_of_x_and_minus_y :
    parse "(x)^(-y)" = .ok ⟨"(x)^(-y)", .binary .pow (.symbol .x) (.signed .minus (.symbol .y))⟩ ∧
    parse "round(x,-y)" = .ok ⟨"round(x,-y)",
      .call .round [.symbol .x, .signed .minus (.symbol .y)]⟩ := by
  have hlx : lexemes "x".toList = .ok [⟨.identifier "x", 0, ['x']⟩] := by decide +kernel
  have hly : lexemes "-y".toList = .ok [⟨.minus, 0, ['-']⟩, ⟨.identifier "y", 1, ['y']⟩] := by
    decide +kernel
  have hdx : Derives 1 .sum [.identifier "x"] (.symbol .x) :=
    .ofTerm (.ofUnary (.ofPower (.ofPrimary (.symbol (by decide)))))
  have hdy : Derives 2 .sum [.minus, .identifier "y"] (.signed .minus (.symbol .y)) :=
    .ofTerm (.ofUnary (.minus (.ofPower (.ofPrimary (.symbol (by decide))))))
  have hx : parse "x" = .ok ⟨"x", .symbol .x⟩ :=
    parse_eq_ok_iff.mpr ⟨rfl, by decide, _, hlx, hdx.mono (by decide)⟩
  have hy : parse "-y" = .ok ⟨"-y", .signed .minus (.symbol .y)⟩ :=
    parse_eq_ok_iff.mpr ⟨rfl, by decide, _, hly, hdy.mono (by decide)⟩
  have hnx : nesting "x" ≤ 1 := nesting_le hlx hdx
  have hny : nesting "-y" ≤ 2 := nesting_le hly hdy
  obtain ⟨hoperators, -, -, -, -, hcalls⟩ := parse_of_parts hx hy
  have hpower : ReadAs "(x)^(-y)" _ _ := hoperators ("^", .pow) (by decide)
  have hround : ReadAs "round(x,-y)" _ _ := hcalls "round" .round (by decide) (by decide)
  simp only [Operator.levels] at hpower
  constructor
  · rw [hpower, if_neg (by decide), if_neg (by omega)]
  · rw [hround, if_neg (by decide), if_neg (by omega)]

end InitialValue.Expression
