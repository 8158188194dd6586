import InitialValue.Proofs.Prefixes
import InitialValue.Proofs.Seams
import Mathlib.Data.List.Forall2

/-! Two texts read side by side. Tokens are alike when no table of names tells them apart,
and lists of lexemes whose tokens are alike one by one are at the same place when as many
lexemes have been read of both. From the same place every parser of the one text does what
the parser of the other does: it takes the same tree and both end at the same place, or
both fail there for the same kind of reason. A parser with fewer levels of nesting than the
other may also fail for want of levels, and differs in nothing else. -/

namespace InitialValue.Expression

variable {α β : Type} {t u : Token} {ts us : List Lexeme}

/-- The tokens are equal, or names that mean the same wherever they stand. -/
inductive Token.Alike : Token → Token → Prop
  | refl (t : Token) : Alike t t
  | names {name name' : String} : Builtin.ofName? name = Builtin.ofName? name' →
    Symbol.ofName? name = Symbol.ofName? name' → Alike (.identifier name) (.identifier name')

theorem Token.Alike.symm (h : Alike t u) : Alike u t := by
  cases h with
  | refl => exact .refl _
  | names hf hs => exact .names hf.symm hs.symm

/-- Where an error says the text is at fault, if it does. -/
def ParseError.position? : ParseError → Option Nat
  | .malformed _ position | .unsupported _ position | .arity _ _ position => some position
  | .tooLong | .tooDeep => none

/-! ### Results from the same place -/

/-- Two lists of lexemes with alike tokens, and the lengths of the texts they come from. -/
structure Abreast where
  left : List Lexeme
  right : List Lexeme
  leftStop : Nat
  rightStop : Nat
  alike : List.Forall₂ (fun l r => l.token.Alike r.token) left right

namespace Abreast

variable (w : Abreast)

/-- As many lexemes have been read of one text as of the other. -/
def At (ts us : List Lexeme) : Prop := ∃ i, ts = w.left.drop i ∧ us = w.right.drop i

/-- What stands at the same place: the ends, lexemes of one token, or names that mean the same. -/
inductive Next : List Lexeme → List Lexeme → Prop
  | none : Next [] []
  | same {t : Token} {offset offset' : Nat} {text text' : List Char} {ts us : List Lexeme} :
    (∀ name, t ≠ .identifier name) → w.At ts us →
    Next (⟨t, offset, text⟩ :: ts) (⟨t, offset', text'⟩ :: us)
  | names {name name' : String} {offset offset' : Nat} {text text' : List Char}
    {ts us : List Lexeme} :
    Builtin.ofName? name = Builtin.ofName? name' →
      Symbol.ofName? name = Symbol.ofName? name' → w.At ts us →
    Next (⟨.identifier name, offset, text⟩ :: ts) (⟨.identifier name', offset', text'⟩ :: us)

/-- Errors of one kind at the same place, or at none. -/
structure SameFault (e e' : ParseError) : Prop where
  kind : e.kind = e'.kind
  place : e.position? = none ∧ e'.position? = none ∨ ∃ ts us, w.At ts us ∧
    e.position? = some (placeOf w.leftStop ts) ∧ e'.position? = some (placeOf w.rightStop us)

/-- Results that differ in nothing, but that the left one may lack levels of nesting. -/
inductive Agree : Except ParseError (Parsed α ts) → Except ParseError (Parsed α us) → Prop
  | ok {p : Parsed α ts} {q : Parsed α us} : p.value = q.value → w.At p.rest q.rest →
    Agree (.ok p) (.ok q)
  | error {e e' : ParseError} : w.SameFault e e' → Agree (.error e) (.error e')
  | tooDeep {r : Except ParseError (Parsed α us)} : Agree (.error .tooDeep) r

/-- Parsers that agree from the same place. -/
def Agrees (parser parser' : Parser α) : Prop :=
  ∀ ⦃ts us⦄, w.At ts us → w.Agree (parser ts) (parser' us)

variable {w}

theorem At.next (h : w.At ts us) : w.Next ts us := by
  obtain ⟨i, rfl, rfl⟩ := h
  have halike := List.forall₂_drop i w.alike
  generalize hts : w.left.drop i = ts at halike
  generalize hus : w.right.drop i = us at halike
  cases halike with
  | nil => exact .none
  | @cons l r ts us hlr hrest =>
    have hat : w.At ts us := by
      refine ⟨i + 1, ?_, ?_⟩
      · rw [← List.tail_drop, hts, List.tail_cons]
      · rw [← List.tail_drop, hus, List.tail_cons]
    obtain ⟨t, offset, text⟩ := l
    obtain ⟨u, offset', text'⟩ := r
    cases hlr with
    | refl =>
      cases t with
      | identifier name => exact .names rfl rfl hat
      | _ => exact .same (by simp) hat
    | names hf hs => exact .names hf hs hat

/-- Errors of one kind that point at what stands at the same place. -/
theorem At.sameFault (h : w.At ts us) {e e' : ParseError} (hk : e.kind = e'.kind)
    (he : e.position? = some (placeOf w.leftStop ts))
    (he' : e'.position? = some (placeOf w.rightStop us)) : w.SameFault e e' :=
  ⟨hk, .inr ⟨ts, us, h, he, he'⟩⟩

/-! ### Results -/

theorem Agree.bind {ts' us' : List Lexeme} {r : Except ParseError (Parsed α ts)}
    {r' : Except ParseError (Parsed α us)} {g : Parsed α ts → Except ParseError (Parsed β ts')}
    {g' : Parsed α us → Except ParseError (Parsed β us')} (h : w.Agree r r')
    (hg : ∀ {p q}, p.value = q.value → w.At p.rest q.rest → w.Agree (g p) (g' q)) :
    w.Agree (r >>= g) (r' >>= g') := by
  cases h with
  | ok hv hr => exact hg hv hr
  | error he => exact .error he
  | tooDeep => exact .tooDeep

theorem Agree.widen {ts' us' : List Lexeme} {r : Except ParseError (Parsed α ts)}
    {r' : Except ParseError (Parsed α us)} (h : w.Agree r r') (hs : ts.length ≤ ts'.length)
    (hs' : us.length ≤ us'.length) :
    w.Agree (r.map (·.widen hs) : Except ParseError (Parsed α ts'))
      (r'.map (·.widen hs') : Except ParseError (Parsed α us')) := by
  cases h with
  | ok hv hr => exact .ok hv hr
  | error he => exact .error he
  | tooDeep => exact .tooDeep

theorem Agree.map {ts' us' : List Lexeme} {r : Except ParseError (Parsed α ts)}
    {r' : Except ParseError (Parsed α us)} (h : w.Agree r r') (g : α → β)
    (hs : ts.length ≤ ts'.length) (hs' : us.length ≤ us'.length) :
    w.Agree (r.map fun p => (p.map g).widen hs : Except ParseError (Parsed β ts'))
      (r'.map fun p => (p.map g).widen hs' : Except ParseError (Parsed β us')) := by
  cases h with
  | ok hv hr => exact .ok (congrArg g hv) hr
  | error he => exact .error he
  | tooDeep => exact .tooDeep

/-! ### Chains -/

variable {nested nested' : Parser Tree}

section Chain

variable {operator? : Token → Option Operator} {operand operand' : Parser Tree}

theorem agree_chain (hname : ∀ name, operator? (.identifier name) = none)
    (h : w.Agrees operand operand') {left : Parsed Tree ts} {left' : Parsed Tree us}
    (hv : left.value = left'.value) (hr : w.At left.rest left'.rest) :
    w.Agree (chain operator? operand left) (chain operator? operand' left') := by
  induction hn : left.rest.length using Nat.strong_induction_on generalizing left left' with
  | _ n ih =>
    subst hn
    obtain ⟨a, rest, hs⟩ := left
    obtain ⟨a', rest', hs'⟩ := left'
    obtain rfl : a = a' := hv
    cases hr.next with
    | none =>
      rw [chain_nil, chain_nil]
      exact .ok rfl hr
    | names =>
      rw [chain_stop hs (hname _), chain_stop hs' (hname _)]
      exact .ok rfl hr
    | @same t _ _ _ _ _ _ _ hrest =>
      cases hop : operator? t with
      | none =>
        rw [chain_stop hs hop, chain_stop hs' hop]
        exact .ok rfl hr
      | some op =>
        rw [chain_step hs hop, chain_step hs' hop]
        refine (h hrest).bind fun {p q} hpq hmid => ih p.rest.length ?_ (congrArg _ hpq) hmid rfl
        exact Nat.lt_trans p.shorter (Nat.lt_succ_self _)

end Chain

theorem Agrees.term (h : w.Agrees nested nested') : w.Agrees (term nested) (term nested') :=
  fun _ _ hat => (h hat).bind fun hv hr => agree_chain (fun _ => rfl) h hv hr

theorem Agrees.sum (h : w.Agrees nested nested') : w.Agrees (sum nested) (sum nested') :=
  fun _ _ hat => (h.term hat).bind fun hv hr => agree_chain (fun _ => rfl) h.term hv hr

/-! ### Parentheses -/

theorem Agrees.arguments {argument argument' : Parser Tree} (h : w.Agrees argument argument') :
    w.Agrees (arguments argument w.leftStop) (arguments argument' w.rightStop) := by
  intro ts us hat
  induction hn : ts.length using Nat.strong_induction_on generalizing ts us with
  | _ n ih =>
    subst hn
    have hfirst := h hat
    rw [arguments.eq_def, arguments.eq_def]
    generalize argument ts = r at hfirst
    generalize argument' us = r' at hfirst
    cases hfirst with
    | tooDeep => exact .tooDeep
    | error he => exact .error he
    | @ok p q hv hr =>
      obtain ⟨a, rest, hs⟩ := p
      obtain ⟨a', rest', hs'⟩ := q
      obtain rfl : a = a' := hv
      cases hr.next with
      | none | names => exact .error (hr.sameFault rfl rfl rfl)
      | @same t _ _ _ _ rest rest' _ hrest =>
        cases t with
        | closing => exact .ok rfl hrest
        | comma =>
          have hmore := ih rest.length (Nat.lt_trans (Nat.lt_succ_self _) hs) hrest rfl
          dsimp only
          generalize Expression.arguments argument w.leftStop rest = more at hmore
          generalize Expression.arguments argument' w.rightStop rest' = more' at hmore
          cases hmore with
          | tooDeep => exact .tooDeep
          | error he => exact .error he
          | ok hv hr => exact .ok (congrArg _ hv) hr
        | _ => exact .error (hr.sameFault rfl rfl rfl)

theorem Agrees.argumentList {argument argument' : Parser Tree} (h : w.Agrees argument argument') :
    w.Agrees (argumentList argument w.leftStop) (argumentList argument' w.rightStop) := by
  intro ts us hat
  have hmore := h.arguments hat
  cases hat.next with
  | none | names => exact hmore
  | @same t _ _ _ _ _ _ _ hrest =>
    cases t with
    | closing => exact .ok rfl hrest
    | _ => exact hmore

theorem Agrees.call (h : w.Agrees nested nested') {name name' : String} {position position' : Nat}
    (hf : Builtin.ofName? name = Builtin.ofName? name')
    (hp : ∃ vs vs', w.At vs vs' ∧ position = placeOf w.leftStop vs ∧
      position' = placeOf w.rightStop vs') :
    w.Agrees (call nested w.leftStop name position) (call nested' w.rightStop name' position') := by
  intro ts us hat
  obtain ⟨vs, vs', hvs, rfl, rfl⟩ := hp
  have hargs := h.sum.argumentList hat
  unfold Expression.call
  rw [← hf]
  cases Builtin.ofName? name with
  | none => exact .error (hvs.sameFault rfl rfl rfl)
  | some f =>
    generalize Expression.argumentList (Expression.sum nested) w.leftStop ts = r at hargs
    generalize Expression.argumentList (Expression.sum nested') w.rightStop us = r' at hargs
    cases hargs with
    | tooDeep => exact .tooDeep
    | error he => exact .error he
    | @ok p q hv hr =>
      simp only [hv]
      split
      · exact .ok (congrArg (Tree.call f) hv) hr
      · exact .error (hvs.sameFault rfl rfl rfl)

theorem agree_closed {inner : Parsed Tree ts} {inner' : Parsed Tree us}
    (hv : inner.value = inner'.value) (hr : w.At inner.rest inner'.rest) :
    w.Agree (closed w.leftStop inner) (closed w.rightStop inner') := by
  obtain ⟨a, rest, hs⟩ := inner
  obtain ⟨a', rest', hs'⟩ := inner'
  cases hr.next with
  | none | names => exact .error (hr.sameFault rfl rfl rfl)
  | @same t _ _ _ _ _ _ _ hrest =>
    cases t with
    | closing => exact .ok hv hrest
    | _ => exact .error (hr.sameFault rfl rfl rfl)

/-! ### Primaries, powers and signs -/

/-- Names without parentheses behind them. -/
theorem agree_symbol {name name' : String} {position position' : Nat}
    (hs : Symbol.ofName? name = Symbol.ofName? name') (hat : w.At ts us)
    (hp : position = placeOf w.leftStop ts) (hp' : position' = placeOf w.rightStop us)
    {rest rest' : List Lexeme} (hrest : w.At rest rest') (shorter : rest.length < ts.length)
    (shorter' : rest'.length < us.length) :
    w.Agree
      (match Symbol.ofName? name with
        | some s => .ok (⟨.symbol s, rest, shorter⟩ : Parsed Tree ts)
        | none => .error (.unsupported (.identifier name) position))
      (match Symbol.ofName? name' with
        | some s => .ok (⟨.symbol s, rest', shorter'⟩ : Parsed Tree us)
        | none => .error (.unsupported (.identifier name') position')) := by
  subst hp hp'
  rw [← hs]
  cases Symbol.ofName? name with
  | none => exact .error (hat.sameFault rfl rfl rfl)
  | some s => exact .ok rfl hrest

theorem Agrees.primary (h : w.Agrees nested nested') :
    w.Agrees (primary nested w.leftStop) (primary nested' w.rightStop) := by
  intro ts us hat
  cases hat.next with
  | none => exact .error (hat.sameFault rfl rfl rfl)
  | @same t _ _ _ _ _ _ hno hrest =>
    cases t with
    | number v => exact .ok rfl hrest
    | identifier name => exact absurd rfl (hno name)
    | opening => exact ((h.sum hrest).bind agree_closed).widen _ _
    | _ => exact .error (hat.sameFault rfl rfl rfl)
  | names hf hs hrest =>
    have hsymbol := agree_symbol (w := w) hs hat rfl rfl hrest (Nat.lt_succ_self _)
      (Nat.lt_succ_self _)
    cases hrest.next with
    | none | names => exact hsymbol
    | @same t _ _ _ _ _ _ _ hinside =>
      cases t with
      | opening => exact (h.call hf ⟨_, _, hat, rfl, rfl⟩ hinside).widen _ _
      | _ => exact hsymbol

theorem agree_raised (h : w.Agrees nested nested') {base : Parsed Tree ts} {base' : Parsed Tree us}
    (hv : base.value = base'.value) (hr : w.At base.rest base'.rest) :
    w.Agree (raised nested base) (raised nested' base') := by
  obtain ⟨a, rest, hs⟩ := base
  obtain ⟨a', rest', hs'⟩ := base'
  obtain rfl : a = a' := hv
  cases hr.next with
  | none | names => exact .ok rfl hr
  | @same t _ _ _ _ _ _ _ hrest =>
    cases t with
    | caret => exact (h hrest).map _ _ _
    | _ => exact .ok rfl hr

theorem Agrees.power (h : w.Agrees nested nested') :
    w.Agrees (power nested w.leftStop) (power nested' w.rightStop) :=
  fun _ _ hat => (h.primary hat).bind (agree_raised h)

theorem Agrees.signed (h : w.Agrees nested nested') :
    w.Agrees (signed nested w.leftStop) (signed nested' w.rightStop) := by
  intro ts us hat
  have hpower := h.power hat
  cases hat.next with
  | none | names => exact hpower
  | @same t _ _ _ _ _ _ _ hrest =>
    cases t with
    | plus | minus => exact (h hrest).map _ _ _
    | _ => exact hpower

/-- With at most as many levels, unaries are read in the same way or not at all. -/
theorem agrees_unary {n k : Nat} (hn : n ≤ k) :
    w.Agrees (unary w.leftStop n) (unary w.rightStop k) := by
  induction n generalizing k with
  | zero => exact fun _ _ _ => .tooDeep
  | succ n ih =>
    obtain ⟨k, rfl⟩ := Nat.exists_eq_add_of_le' (Nat.one_le_of_lt hn)
    exact (ih (Nat.le_of_succ_le_succ hn)).signed

/-! ### Whole texts -/

variable (w)

/-- The two texts in the other order. -/
def flip : Abreast where
  left := w.right
  right := w.left
  leftStop := w.rightStop
  rightStop := w.leftStop
  alike := .flip (w.alike.imp fun _ _ h => h.symm)

/-- The same tree of both texts, or errors of one kind at the same place. -/
inductive SameOutcome : Except ParseError Tree → Except ParseError Tree → Prop
  | ok (a : Tree) : SameOutcome (.ok a) (.ok a)
  | error {e e' : ParseError} : w.SameFault e e' → SameOutcome (.error e) (.error e')

variable {w}

theorem SameFault.of_flip {e e' : ParseError} (h : w.flip.SameFault e' e) : w.SameFault e e' := by
  refine ⟨h.kind.symm, h.place.imp And.symm ?_⟩
  rintro ⟨us, ts, ⟨i, hus, hts⟩, he', he⟩
  exact ⟨ts, us, ⟨i, hts, hus⟩, he, he'⟩

theorem SameOutcome.of_flip {r r' : Except ParseError Tree} (h : w.flip.SameOutcome r' r) :
    w.SameOutcome r r' := by
  cases h with
  | ok a => exact .ok a
  | error he => exact .error he.of_flip

variable (w)

theorem treeOf_cases : treeOf w.leftStop w.left = .error .tooDeep ∨
    w.SameOutcome (treeOf w.leftStop w.left) (treeOf w.rightStop w.right) := by
  have hstart : w.At w.left w.right := ⟨0, rfl, rfl⟩
  have h := (agrees_unary (Nat.le_refl maxNesting)).sum hstart
  unfold treeOf
  generalize sum (unary w.leftStop maxNesting) w.left = r at h
  generalize sum (unary w.rightStop maxNesting) w.right = r' at h
  cases h with
  | tooDeep => exact .inl rfl
  | error he => exact .inr (.error he)
  | @ok p q hv hr =>
    obtain ⟨a, rest, hs⟩ := p
    obtain ⟨a', rest', hs'⟩ := q
    obtain rfl : a = a' := hv
    cases hr.next with
    | none => exact .inr (.ok a)
    | same | names => exact .inr (.error (hr.sameFault rfl rfl rfl))

/-- Neither of the two texts can lack levels alone. -/
theorem treeOf_same : w.SameOutcome (treeOf w.leftStop w.left) (treeOf w.rightStop w.right) := by
  obtain hdeep | h := w.treeOf_cases
  · obtain hdeep' | h := w.flip.treeOf_cases
    · change treeOf w.rightStop w.right = _ at hdeep'
      rw [hdeep, hdeep']
      exact .error ⟨rfl, .inl ⟨rfl, rfl⟩⟩
    · exact h.of_flip
  · exact h

/-- What stands at the same place of both texts is their end, or lexemes with the same index. -/
theorem At.places (h : w.At ts us) :
    placeOf w.leftStop ts = w.leftStop ∧ placeOf w.rightStop us = w.rightStop ∨
      ∃ (i : Nat) (l l' : Lexeme), w.left[i]? = some l ∧ w.right[i]? = some l' ∧
        placeOf w.leftStop ts = l.offset ∧ placeOf w.rightStop us = l'.offset := by
  have hnext := h.next
  obtain ⟨i, hts, hus⟩ := h
  cases hnext with
  | none => exact .inl ⟨rfl, rfl⟩
  | same | names =>
    refine .inr ⟨i, _, _, ?_, ?_, rfl, rfl⟩
    · rw [← List.head?_drop, ← hts, List.head?_cons]
    · rw [← List.head?_drop, ← hus, List.head?_cons]

end Abreast

/-! ### Texts that differ in blanks and in the choice of names -/

/-- Names of the same function or constant. -/
def aliases : List (String × String) :=
  [("asin", "arcsin"), ("acos", "arccos"), ("atan", "arctan"), ("asinh", "arcsinh"),
    ("acosh", "arccosh"), ("atanh", "arctanh"), ("ln", "log"), ("fabs", "abs"), ("e", "euler")]

theorem alike_of_mem_aliases {names : String × String} (h : names ∈ aliases) :
    (Token.identifier names.1).Alike (.identifier names.2) := by
  have hall : ∀ names ∈ aliases, Builtin.ofName? names.1 = Builtin.ofName? names.2 ∧
      Symbol.ofName? names.1 = Symbol.ofName? names.2 := by decide
  exact .names (hall names h).1 (hall names h).2

theorem parse_of_lexemes {source : String} {ls : List Lexeme} (hlen : source.length ≤ maxLength)
    (h : lexemes source.toList = .ok ls) :
    parse source = (treeOf source.length ls).map (⟨source, ·⟩) := by
  rw [parse, if_neg (Nat.not_lt.mpr hlen), h]
  cases htree : treeOf source.length ls <;>
    simp [bind, Except.bind, htree, pure, Except.pure, Except.map]

/-- Texts of alike tokens are read as the same tree, or refused for the same kind of reason at the
tokens of one index, or both at their ends, or both without a place. Other names of the same
function or constant are alike, both spellings of powers are one token, and blanks at a place within
no lexeme change no token. -/
theorem parse_same_of_alike :
    (∀ (source source' : String) (ls ls' : List Lexeme), source.length ≤ 4096 →
      source'.length ≤ 4096 →
      lexemes source.toList = .ok ls → lexemes source'.toList = .ok ls' →
      List.Forall₂ (fun l l' => l.token.Alike l'.token) ls ls' →
      (∃ a, parse source = .ok ⟨source, a⟩ ∧ parse source' = .ok ⟨source', a⟩) ∨
      ∃ err err', parse source = .error err ∧ parse source' = .error err' ∧ err.kind = err'.kind ∧
        (err.position? = none ∧ err'.position? = none ∨
          err.position? = some source.length ∧ err'.position? = some source'.length ∨
          ∃ (i : Nat) (l l' : Lexeme), ls[i]? = some l ∧ ls'[i]? = some l' ∧
            err.position? = some l.offset ∧
            err'.position? = some l'.offset)) ∧
    (∀ names ∈ aliases, (Token.identifier names.1).Alike (.identifier names.2) ∧
      (Token.identifier names.2).Alike (.identifier names.1)) ∧
    (Spells ['*', '*'] .caret ∧ Spells ['^'] .caret) ∧
    ∀ (before after gap : List Char) (ls : List Lexeme), lexemes (before ++ after) = .ok ls →
      (∀ l ∈ ls, l.offset + l.text.length ≤ before.length ∨ before.length ≤ l.offset) →
      (∀ c ∈ gap, Text.isBlank c = true) →
      ∃ ls', lexemes (before ++ (gap ++ after)) = .ok ls' ∧
        ls'.map Lexeme.token = ls.map Lexeme.token := by
  refine ⟨?_, fun names h => ⟨alike_of_mem_aliases h, (alike_of_mem_aliases h).symm⟩,
    ⟨.mark (by decide), .mark (by decide)⟩, ?_⟩
  · intro source source' ls ls' hlen hlen' hls hls' halike
    let w : Abreast := ⟨ls, ls', source.length, source'.length, halike⟩
    have hsame : w.SameOutcome (treeOf source.length ls) (treeOf source'.length ls') :=
      w.treeOf_same
    rw [parse_of_lexemes hlen hls, parse_of_lexemes hlen' hls']
    generalize treeOf source.length ls = r at hsame
    generalize treeOf source'.length ls' = r' at hsame
    cases hsame with
    | ok a => exact .inl ⟨a, rfl, rfl⟩
    | @error err err' he =>
      refine .inr ⟨err, err', rfl, rfl, he.kind, he.place.imp id ?_⟩
      rintro ⟨ts, us, hat, hp, hp'⟩
      rw [hp, hp']
      obtain ⟨hstop, hstop'⟩ | ⟨i, l, l', hl, hl', hplace, hplace'⟩ := hat.places
      · exact .inl ⟨congrArg some hstop, congrArg some hstop'⟩
      · exact .inr ⟨i, l, l', hl, hl', congrArg some hplace, congrArg some hplace'⟩
  · intro before after gap ls hls hseam hgap
    obtain ⟨ls', hcut, htokens⟩ := (lexemes_eq_ok_iff.mp hls).insert_gap hgap (by simpa using hseam)
    exact ⟨ls', lexemes_eq_ok_iff.mpr hcut, htokens⟩

/-- Two texts of one power, two calls that fail for the number of their arguments, and blanks before
a sign. -/
theorem parse_same_power_and_calls :
    (∃ a, parse "asin(x)**e" = .ok ⟨"asin(x)**e", a⟩ ∧
      parse "arcsin( x )^euler" = .ok ⟨"arcsin( x )^euler", a⟩) ∧
    (∃ err err', parse "x + ln(x,y)" = .error err ∧ parse "x+log(x,y)" = .error err' ∧
      err.kind = err'.kind) ∧
    ∃ ls', lexemes (['x'] ++ (['\t', '\u00a0'] ++ ['+', 'y'])) = .ok ls' ∧
      ls'.map Lexeme.token = [.identifier "x", .plus, .identifier "y"] := by
  obtain ⟨hparse, -, -, hblanks⟩ := parse_same_of_alike
  refine ⟨?_, ?_, ?_⟩
  · have h := hparse "asin(x)**e" "arcsin( x )^euler"
      [⟨.identifier "asin", 0, ['a', 's', 'i', 'n']⟩, ⟨.opening, 4, ['(']⟩,
        ⟨.identifier "x", 5, ['x']⟩, ⟨.closing, 6, [')']⟩, ⟨.caret, 7, ['*', '*']⟩,
        ⟨.identifier "e", 9, ['e']⟩]
      [⟨.identifier "arcsin", 0, ['a', 'r', 'c', 's', 'i', 'n']⟩, ⟨.opening, 6, ['(']⟩,
        ⟨.identifier "x", 8, ['x']⟩, ⟨.closing, 10, [')']⟩, ⟨.caret, 11, ['^']⟩,
        ⟨.identifier "euler", 12, ['e', 'u', 'l', 'e', 'r']⟩]
      (by decide) (by decide) (by decide +kernel) (by decide +kernel)
      (.cons (.names (by decide) (by decide)) (.cons (.refl _) (.cons (.refl _) (.cons (.refl _)
        (.cons (.refl _) (.cons (.names (by decide) (by decide)) .nil))))))
    have hok : (parse "asin(x)**e").isOk = true := by decide +kernel
    refine h.resolve_right ?_
    rintro ⟨err, -, herr, -⟩
    simp [herr, Except.isOk, Except.toBool] at hok
  · have h := hparse "x + ln(x,y)" "x+log(x,y)"
      [⟨.identifier "x", 0, ['x']⟩, ⟨.plus, 2, ['+']⟩, ⟨.identifier "ln", 4, ['l', 'n']⟩,
        ⟨.opening, 6, ['(']⟩, ⟨.identifier "x", 7, ['x']⟩, ⟨.comma, 8, [',']⟩,
        ⟨.identifier "y", 9, ['y']⟩, ⟨.closing, 10, [')']⟩]
      [⟨.identifier "x", 0, ['x']⟩, ⟨.plus, 1, ['+']⟩, ⟨.identifier "log", 2, ['l', 'o', 'g']⟩,
        ⟨.opening, 5, ['(']⟩, ⟨.identifier "x", 6, ['x']⟩, ⟨.comma, 7, [',']⟩,
        ⟨.identifier "y", 8, ['y']⟩, ⟨.closing, 9, [')']⟩]
      (by decide) (by decide) (by decide +kernel) (by decide +kernel)
      (.cons (.refl _) (.cons (.refl _) (.cons (.names (by decide) (by decide)) (.cons (.refl _)
        (.cons (.refl _) (.cons (.refl _) (.cons (.refl _) (.cons (.refl _) .nil))))))))
    have hok : (parse "x + ln(x,y)").isOk = false := by decide +kernel
    obtain ⟨a, ha, -⟩ | ⟨err, err', herr, herr', hkind, -⟩ := h
    · simp [ha, Except.isOk, Except.toBool] at hok
    · exact ⟨err, err', herr, herr', hkind⟩
  · exact hblanks ['x'] ['+', 'y'] ['\t', '\u00a0']
      [⟨.identifier "x", 0, ['x']⟩, ⟨.plus, 1, ['+']⟩, ⟨.identifier "y", 2, ['y']⟩]
      (by decide +kernel) (by decide) (by simp [Text.isBlank, Text.blankRanges])

end InitialValue.Expression
