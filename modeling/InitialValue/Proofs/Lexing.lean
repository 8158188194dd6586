import InitialValue.Expression.Parser
import InitialValue.Proofs.Spelling

/-! Cutting a text into lexemes. In a cut each lexeme is the longest one at its place, seen
with all the characters that follow it, and blanks are all that is left over. A text has
one cut at most and the lexer finds it; where there is none, the text before the first
place without a token has one. -/

namespace InitialValue.Expression

variable {c : Char} {cs tail rest text : List Char} {t : Token} {l : Lexeme} {ls : List Lexeme}
  {offset : Nat}

/-! ### Cuts -/

/-- The lexeme stands before `rest`. -/
structure Stands (l : Lexeme) (rest : List Char) : Prop where
  spells : Spells l.text l.token
  longest : Longest l.text (l.text ++ rest)

/-- A text that `offset` characters precede consists of these lexemes, with blanks around them. -/
inductive Cut : Nat → List Char → List Lexeme → Prop
  | blanks {offset : Nat} {gap : List Char} : (∀ c ∈ gap, Text.isBlank c = true) → Cut offset gap []
  | lexeme {offset : Nat} {gap rest : List Char} {l : Lexeme} {ls : List Lexeme} :
    (∀ c ∈ gap, Text.isBlank c = true) → l.offset = offset + gap.length → Stands l rest →
    Cut (l.offset + l.text.length) rest ls → Cut offset (gap ++ (l.text ++ rest)) (l :: ls)

theorem Stands.exists_cons (h : Stands l rest) :
    ∃ c tail, l.text = c :: tail ∧ Text.isBlank c = false :=
  h.longest.isLexeme.exists_cons

/-- A lexeme stands before any part of what it stands before. -/
theorem Stands.shorten {rest' : List Char} (h : Stands l rest) (hr : rest' <+: rest) :
    Stands l rest' :=
  ⟨h.spells, h.longest.shorten (List.prefix_append _ _) ((List.prefix_append_right_inj _).mpr hr)⟩

theorem Cut.cons_blank (hc : Text.isBlank c = true) (h : Cut (offset + 1) text ls) :
    Cut offset (c :: text) ls := by
  cases h with
  | blanks hgap => exact .blanks (List.forall_mem_cons.mpr ⟨hc, hgap⟩)
  | @lexeme _ gap _ _ _ hgap hl hs hrest =>
    rw [← List.cons_append]
    exact .lexeme (List.forall_mem_cons.mpr ⟨hc, hgap⟩)
      (by rw [hl, List.length_cons]; omega) hs hrest

/-- The lexemes of a cut begin in the text, one behind another. -/
theorem Cut.places (h : Cut offset text ls) :
    (∀ l ∈ ls, offset ≤ l.offset ∧ l.offset < offset + text.length) ∧
      ls.Pairwise fun l l' => l.offset < l'.offset := by
  induction h with
  | blanks _ => simp
  | @lexeme offset gap rest l ls _ hl hs _ ih =>
    obtain ⟨c, tail, htext, -⟩ := hs.exists_cons
    have hlength : l.text.length = tail.length + 1 := by rw [htext, List.length_cons]
    obtain ⟨hplaces, hpairs⟩ := ih
    have hbehind : ∀ l' ∈ ls, l.offset < l'.offset := fun l' hl' => by
      have := (hplaces l' hl').1
      omega
    refine ⟨List.forall_mem_cons.mpr ⟨?_, fun l' hl' => ?_⟩,
      List.pairwise_cons.mpr ⟨hbehind, hpairs⟩⟩
    · simp only [List.length_append]
      omega
    · have := hplaces l' hl'
      simp only [List.length_append]
      omega

/-! ### What a lexeme takes -/

/-- How far a lexeme reaches before `rest`, by its sort: a numeral takes all digits and points, and
with them an exponent with all its digits if there is one, a word takes all letters, digits and
underscores, and no star is left behind a star. -/
structure TakesAll (l : Lexeme) (rest : List Char) : Prop where
  numeral : ∀ v, l.token = .number v → ∃ exponent,
    l.text = (l.text ++ rest).takeWhile isNumeralPart ++ exponent ∧
      (exponent = [] ∧ (∀ e, IsExponent e → ¬ e <+: rest) ∨
        IsExponent exponent ∧ ∀ d ∈ rest.head?, d.isDigit = false)
  word : ∀ name, l.token = .identifier name → l.text = (l.text ++ rest).takeWhile isWordPart
  star : l.token = .star → rest.head? ≠ some '*'

theorem Stands.takesAll (h : Stands l rest) : TakesAll l rest := by
  obtain ⟨token, offset, text⟩ := l
  obtain ⟨c, tail, rfl, -⟩ := h.exists_cons
  have hspells : Spells (c :: tail) token := h.spells
  have hlongest : Longest (c :: tail) (c :: (tail ++ rest)) := h.longest
  refine ⟨?_, ?_, ?_⟩
  · rintro v rfl
    have hn := hspells.isNumeral
    obtain ⟨-, htail⟩ := hlongest.numeralTail_eq hn
    have hsplit : tail ++ rest = numeralTail (tail ++ rest) ++ rest := by rw [htail]
    obtain ⟨exponent, hexponent, hstop⟩ := exists_numeralTail_eq hsplit
    refine ⟨exponent, ?_, hstop⟩
    rw [htail] at hexponent
    simpa [hn.start] using hexponent
  · rintro name rfl
    have hw := hspells.isWord
    have htail := hlongest.takeWhile_eq hw
    simpa [isWordPart_of_isWordStart hw.start] using htail.symm
  · rintro rfl
    obtain ⟨rfl, rfl⟩ : c = '*' ∧ tail = [] := by
      cases hspells with
      | mark hm => simpa [marks] using hm
    exact hlongest.head?_ne (o := some .caret) (by simp [marks])

/-! ### Constructs of other notations -/

/-- Single characters that mean something elsewhere, wherever they stand. -/
def foreignMarks : List (Char × Construct) :=
  [('<', .comparison), ('>', .comparison), ('!', .comparison), ('[', .indexing), (']', .indexing),
    ('\x7b', .braces), ('\x7d', .braces), ('\x27', .quotation), ('\x22', .quotation),
    ('%', .modulo), ('&', .bitwise), ('|', .bitwise), ('~', .bitwise), (':', .colon),
    (';', .separator)]

/-- A construct that no expression has stands at the front of a text. -/
inductive Forbidden : Construct → List Char → Prop
  | floorDivision {rest : List Char} : Forbidden .floorDivision ('/' :: '/' :: rest)
  | equality {rest : List Char} : Forbidden .comparison ('=' :: '=' :: rest)
  | assignment {rest : List Char} : rest.head? ≠ some '=' → Forbidden .assignment ('=' :: rest)
  | attribute {rest : List Char} : (∀ d ∈ rest.head?, d.isDigit = false) →
    Forbidden .attribute ('.' :: rest)
  | foreign {c : Char} {k : Construct} {rest : List Char} : (c, k) ∈ foreignMarks →
    Forbidden k (c :: rest)
  | character {c : Char} {rest : List Char} : c ≠ '=' → c ∉ foreignMarks.map Prod.fst →
    c ∉ marks.flatMap Prod.fst → Text.isBlank c = false → isNumeralPart c = false →
    isWordStart c = false → Forbidden (.character c) (c :: rest)

/-- No token stands at the position, where the text goes on with these characters; the error says
why. -/
inductive NoToken : ParseError → Nat → List Char → Prop
  | unsupported {k : Construct} {position : Nat} {rest : List Char} : Forbidden k rest →
    NoToken (.unsupported k position) position rest
  | numeral {cs rest : List Char} {position : Nat} : IsNumeral cs → Longest cs rest →
    2 ≤ cs.count '.' → NoToken (.malformed (.numeral cs) position) position rest

theorem forbidden_refused (hs : startsNumeral c cs = false) (hw : isWordStart c = false)
    (hb : Text.isBlank c = false) (hp : punctuation? c cs.head? = none) :
    Forbidden (refused c cs.head?) (c :: cs) := by
  unfold refused
  split
  case h_1 =>
    obtain ⟨rest, rfl⟩ : ∃ rest, cs = '/' :: rest := by
      simpa [punctuation?, List.head?_eq_some_iff] using hp
    exact .floorDivision
  case h_5 =>
    split
    · next hnext =>
      obtain ⟨rest, rfl⟩ := List.head?_eq_some_iff.mp hnext
      exact .equality
    · next hnext => exact .assignment hnext
  case h_6 =>
    refine .attribute fun d hnext => ?_
    obtain ⟨rest, rfl⟩ := List.head?_eq_some_iff.mp hnext
    simpa [startsNumeral] using hs
  case h_19 =>
    refine .character (by assumption) ?_ (fun hmem => ?_) hb ?_ hw
    · simp_all [foreignMarks]
    · have hmark : c = '+' ∨ c = '-' ∨ c = '*' ∨ c = '/' ∨ c = '^' ∨ c = '(' ∨ c = ')' ∨
          c = ',' := by
        simpa [marks] using hmem
      rcases hmark with rfl | rfl | rfl | rfl | rfl | rfl | rfl | rfl <;> simp_all [punctuation?]
    · simp_all [startsNumeral, isNumeralPart]
  all_goals exact .foreign (by simp [foreignMarks])

/-! ### The lexer -/

/-- The first token is the one that the longest lexeme spells. -/
theorem firstToken_eq_ok_iff : firstToken offset c cs = .ok (t, tail) ↔
    Spells (c :: tail) t ∧ Longest (c :: tail) (c :: cs) := by
  constructor
  · intro h
    unfold firstToken at h
    split at h
    · next hs =>
      have hl := longest_numeral hs
      split at h
      · next v hv =>
        cases h
        exact ⟨.number (hl.isLexeme.isNumeral (isNumeralPart_of_startsNumeral hs)) hv, hl⟩
      · cases h
    · split at h
      · next hw =>
        cases h
        have hl := longest_word hw cs
        exact ⟨.identifier (hl.isLexeme.isWord hw), hl⟩
      · split at h
        · next hp =>
          cases h
          obtain ⟨hm, hl⟩ := punctuation?_eq_some_iff.mp hp
          exact ⟨.mark hm, hl⟩
        · cases h
  · rintro ⟨hspells, hl⟩
    generalize hcs : c :: tail = lexeme at hspells
    cases hspells with
    | number hn hv =>
      subst hcs
      obtain ⟨hs, htail⟩ := hl.numeralTail_eq hn
      simp [firstToken, hs, htail, hv]
    | identifier hw =>
      subst hcs
      have hs : startsNumeral c cs = false :=
        startsNumeral_eq_false (isNumeralPart_of_isWordStart hw.start)
      simp [firstToken, hs, hw.start, hl.takeWhile_eq hw]
    | mark hm =>
      subst hcs
      obtain ⟨hn, hw⟩ := start_of_mem_marks hm
      have hs : startsNumeral c cs = false := startsNumeral_eq_false hn
      simp [firstToken, hs, hw, punctuation?_eq_some_iff.mpr ⟨hm, hl⟩]

theorem firstToken_eq_error {e : ParseError} (hb : Text.isBlank c = false)
    (h : firstToken offset c cs = .error e) : NoToken e offset (c :: cs) := by
  unfold firstToken at h
  split at h
  · next hs =>
    split at h
    · cases h
    · next hv =>
      cases h
      have hl := longest_numeral hs
      have hn := hl.isLexeme.isNumeral (isNumeralPart_of_startsNumeral hs)
      exact .numeral hn hl (hn.read?_eq_none_iff.mp hv)
  · next hs =>
    split at h
    · cases h
    · next hw =>
      split at h
      · cases h
      · next hp =>
        cases h
        exact .unsupported
          (forbidden_refused (Bool.eq_false_iff.mpr hs) (Bool.eq_false_iff.mpr hw) hb hp)

theorem Stands.firstToken_eq (h : Stands l rest) (htext : l.text = c :: tail) (offset : Nat) :
    firstToken offset c (tail ++ rest) = .ok (l.token, tail) := by
  refine firstToken_eq_ok_iff.mpr ⟨?_, ?_⟩
  · simpa [htext] using h.spells
  · simpa [htext] using h.longest

theorem lexemesFrom_blank (hb : Text.isBlank c = true) :
    lexemesFrom offset (c :: cs) = lexemesFrom (offset + 1) cs := by
  rw [lexemesFrom, if_pos hb]

theorem lexemesFrom_token (hb : Text.isBlank c = false)
    (h : firstToken offset c cs = .ok (t, tail)) :
    lexemesFrom offset (c :: cs) =
      (lexemesFrom (offset + 1 + tail.length) (cs.drop tail.length)).map
        (⟨t, offset, c :: tail⟩ :: ·) := by
  rw [lexemesFrom, hb, if_neg Bool.false_ne_true, h]
  rfl

theorem lexemesFrom_gap {gap : List Char} (hgap : ∀ c ∈ gap, Text.isBlank c = true) :
    lexemesFrom offset (gap ++ cs) = lexemesFrom (offset + gap.length) cs := by
  induction gap generalizing offset with
  | nil => rfl
  | cons c gap ih =>
    rw [List.forall_mem_cons] at hgap
    rw [List.cons_append, lexemesFrom_blank hgap.1, ih hgap.2, List.length_cons, Nat.add_assoc,
      Nat.add_comm 1]

/-- The lexer finds every cut. -/
theorem Cut.lexemesFrom_eq (h : Cut offset text ls) : lexemesFrom offset text = .ok ls := by
  induction h with
  | @blanks offset gap hgap =>
    rw [← List.append_nil gap, lexemesFrom_gap hgap]
    rw [lexemesFrom]
  | @lexeme offset gap rest l ls hgap hl hs _ ih =>
    obtain ⟨c, tail, htext, hb⟩ := hs.exists_cons
    rw [lexemesFrom_gap hgap, ← hl]
    rw [htext] at ih ⊢
    rw [List.cons_append, lexemesFrom_token hb (hs.firstToken_eq htext l.offset), List.drop_left,
      Nat.add_right_comm, Nat.add_assoc, ← List.length_cons (a := c), ih, ← htext]
    rfl

/-- The lexer goes on to the first place without a token, and what stands before is cut. -/
theorem exists_cut (offset : Nat) (text : List Char) : ∃ before rest ls, text = before ++ rest ∧
    Cut offset before ls ∧ (rest = [] ∧ lexemesFrom offset text = .ok ls ∨
      ∃ e, lexemesFrom offset text = .error e ∧ NoToken e (offset + before.length) rest) := by
  induction offset, text using lexemesFrom.induct with
  | case1 offset => exact ⟨[], [], [], rfl, .blanks (by simp), .inl ⟨rfl, by rw [lexemesFrom]⟩⟩
  | case2 offset c cs hb ih =>
    obtain ⟨before, rest, ls, rfl, hcut, hend⟩ := ih
    rw [lexemesFrom_blank hb]
    exact ⟨c :: before, rest, ls, rfl, hcut.cons_blank hb, by rwa [Nat.add_right_comm] at hend⟩
  | case3 offset c cs hb ih =>
    have hb : Text.isBlank c = false := Bool.eq_false_iff.mpr hb
    cases hfirst : firstToken offset c cs with
    | error e =>
      refine ⟨[], c :: cs, [], rfl, .blanks (by simp), .inr ⟨e, ?_, firstToken_eq_error hb hfirst⟩⟩
      rw [lexemesFrom, hb, if_neg Bool.false_ne_true, hfirst]
      rfl
    | ok first =>
      obtain ⟨t, tail⟩ := first
      obtain ⟨hspells, hlongest⟩ := firstToken_eq_ok_iff.mp hfirst
      obtain ⟨-, behind, rfl⟩ := List.cons_prefix_cons.mp hlongest.atFront
      have hstands : Stands ⟨t, offset, c :: tail⟩ behind := ⟨hspells, hlongest⟩
      have hplace : offset + 1 + tail.length = offset + (c :: tail).length := by
        rw [List.length_cons]
        omega
      have ih := ih tail
      rw [List.drop_left, hplace] at ih
      obtain ⟨before, rest, ls, rfl, hcut, hend⟩ := ih
      refine ⟨c :: (tail ++ before), rest, ⟨t, offset, c :: tail⟩ :: ls, by simp, ?_, ?_⟩
      · exact .lexeme (List.forall_mem_nil _) rfl (hstands.shorten (List.prefix_append _ _)) hcut
      · rw [lexemesFrom_token hb hfirst, List.drop_left, hplace]
        refine hend.imp (fun h => ⟨h.1, by rw [h.2]; rfl⟩) ?_
        rintro ⟨e, he, hno⟩
        refine ⟨e, by rw [he]; rfl, ?_⟩
        rwa [Nat.add_assoc, ← List.length_append] at hno

/-! ### Whole texts -/

theorem lexemes_eq_ok_iff : lexemes text = .ok ls ↔ Cut 0 text ls := by
  constructor
  · intro h
    obtain ⟨before, rest, ls', rfl, hcut, ⟨rfl, hok⟩ | ⟨e, he, -⟩⟩ := exists_cut 0 text
    · cases hok.symm.trans h
      rwa [List.append_nil]
    · cases he.symm.trans h
  · exact Cut.lexemesFrom_eq

theorem lexemes_eq_error {e : ParseError} (h : lexemes text = .error e) :
    ∃ before rest ls, text = before ++ rest ∧ lexemes before = .ok ls ∧
      NoToken e before.length rest := by
  obtain ⟨before, rest, ls, rfl, hcut, ⟨-, hok⟩ | ⟨e', he, hno⟩⟩ := exists_cut 0 text
  · cases hok.symm.trans h
  · cases he.symm.trans h
    rw [Nat.zero_add] at hno
    exact ⟨before, rest, ls, rfl, lexemes_eq_ok_iff.mpr hcut, hno⟩

/-- The lexer goes over the whole text before anything is read. -/
theorem parse_eq_error_of_lexemes {source : String} {e : ParseError}
    (hlen : source.length ≤ maxLength) (h : lexemes source.toList = .error e) :
    parse source = .error e := by
  rw [parse, if_neg (Nat.not_lt.mpr hlen), h]
  rfl

/-- The lexemes of a text are its one cut into longest lexemes and blanks, in the order of their
offsets. A text without a cut has one up to a place where a construct of another notation or a
numeral with a second point stands, and reading the text fails for that, whatever stands before. -/
theorem lexemes_cut_texts (source : String) :
    (∀ ls, lexemes source.toList = .ok ls ↔ Cut 0 source.toList ls) ∧
    (∀ ls, lexemes source.toList = .ok ls → ls.Pairwise fun l l' => l.offset < l'.offset) ∧
    (∀ l rest, Stands l rest → TakesAll l rest) ∧
    (∀ e, lexemes source.toList = .error e → ∃ before rest ls, source.toList = before ++ rest ∧
      lexemes before = .ok ls ∧ NoToken e before.length rest) ∧
    ∀ e, source.length ≤ 4096 → lexemes source.toList = .error e → parse source = .error e :=
  ⟨fun _ => lexemes_eq_ok_iff, fun _ h => (lexemes_eq_ok_iff.mp h).places.2,
    fun _ _ h => h.takesAll, fun _ h => lexemes_eq_error h,
    fun _ hlen h => parse_eq_error_of_lexemes hlen h⟩

/-- The mark of an exponent without a digit starts a word, and two stars are one mark. The second
point of a numeral is noticed before parentheses that do not match. -/
theorem cut_of_product_and_of_second_point :
    Cut 0 "2e-x**y".toList [⟨.number 2.0, 0, ['2']⟩, ⟨.identifier "e", 1, ['e']⟩,
      ⟨.minus, 2, ['-']⟩,
      ⟨.identifier "x", 3, ['x']⟩, ⟨.caret, 4, ['*', '*']⟩, ⟨.identifier "y", 6, ['y']⟩] ∧
    parse ")(1.2e3.4.5" = .error (.malformed (.numeral ".4.5".toList) 7) ∧
    ∃ before rest ls, ")(1.2e3.4.5".toList = before ++ rest ∧ lexemes before = .ok ls ∧
      NoToken (.malformed (.numeral ".4.5".toList) 7) before.length rest := by
  have herror : lexemes ")(1.2e3.4.5".toList = .error (.malformed (.numeral ".4.5".toList) 7) := by
    decide +kernel
  obtain ⟨-, -, -, hfails, hparse⟩ := lexemes_cut_texts ")(1.2e3.4.5"
  refine ⟨((lexemes_cut_texts "2e-x**y").1 _).mp ?_, hparse _ (by decide) herror, hfails _ herror⟩
  decide +kernel

end InitialValue.Expression
