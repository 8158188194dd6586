import InitialValue.Expression.Lexer
import Mathlib.Data.List.TakeWhile

/-! How lexemes are spelled. There are three sorts:

    numeral ::= digits and points, a digit first or a point before a digit, then
                possibly `e` or `E`, a sign and at least one digit
    word    ::= a letter or `_`, then letters, digits and `_`
    mark    ::= one of + - * ** / // ^ ( ) ,

A numeral with more than one point is a lexeme that spells no token, and so is `//`. No
two sorts start with the same character and a lexeme spells one token at most, so the
longest lexeme at a place is all there is to know of it. -/

namespace InitialValue.Expression

/-! ### Lexemes -/

/-- An exponent, with at least one digit. -/
inductive IsExponent : List Char → Prop
  | intro {mark : Char} {sign digits : List Char} : Decimal.isExponentMark mark = true →
    sign ∈ [[], ['+'], ['-']] → digits ≠ [] → (∀ d ∈ digits, d.isDigit = true) →
    IsExponent (mark :: (sign ++ digits))

/-- A numeral; its points are not counted. -/
inductive IsNumeral : List Char → Prop
  | intro {c : Char} {tail exponent : List Char} : startsNumeral c tail = true →
    (∀ d ∈ c :: tail, isNumeralPart d = true) → exponent = [] ∨ IsExponent exponent →
    IsNumeral (c :: (tail ++ exponent))

inductive IsWord : List Char → Prop
  | intro {c : Char} {tail : List Char} : isWordStart c = true → (∀ d ∈ tail, isWordPart d = true) →
    IsWord (c :: tail)

/-- The marks and what they spell. -/
def marks : List (List Char × Option Token) :=
  [(['+'], some .plus), (['-'], some .minus), (['*'], some .star), (['*', '*'], some .caret),
    (['/'], some .slash), (['/', '/'], none), (['^'], some .caret), (['('], some .opening),
    ([')'], some .closing), ([','], some .comma)]

/-- The characters are a lexeme of one of the three sorts. -/
def IsLexeme (cs : List Char) : Prop := IsNumeral cs ∨ IsWord cs ∨ ∃ t, (cs, t) ∈ marks

/-- The characters spell the token. -/
inductive Spells : List Char → Token → Prop
  | number {cs : List Char} {v : Float} : IsNumeral cs → Decimal.read? cs = some v →
    Spells cs (.number v)
  | identifier {cs : List Char} : IsWord cs → Spells cs (.identifier (String.ofList cs))
  | mark {cs : List Char} {t : Token} : (cs, some t) ∈ marks → Spells cs t

/-- The longest lexeme at the front of a text. -/
structure Longest (cs text : List Char) : Prop where
  isLexeme : IsLexeme cs
  atFront : cs <+: text
  longest : ∀ ds, IsLexeme ds → ds <+: text → ds.length ≤ cs.length

variable {c : Char} {cs ds text : List Char} {t : Token}

theorem Spells.isNumeral {v : Float} (h : Spells cs (.number v)) : IsNumeral cs := by
  cases h with
  | number hn _ => exact hn
  | mark hm => simp [marks] at hm

theorem Spells.isWord {name : String} (h : Spells cs (.identifier name)) : IsWord cs := by
  cases h with
  | identifier hw => exact hw
  | mark hm => simp [marks] at hm

theorem Longest.unique (h : Longest cs text) (h' : Longest ds text) : cs = ds :=
  have hlen : cs.length = ds.length := Nat.le_antisymm (h'.longest cs h.isLexeme h.atFront)
    (h.longest ds h'.isLexeme h'.atFront)
  (List.prefix_of_prefix_length_le h.atFront h'.atFront (Nat.le_of_eq hlen)).eq_of_length hlen

/-- What is not there cannot make a lexeme longer. -/
theorem Longest.shorten {text' : List Char} (h : Longest cs text) (hcs : cs <+: text')
    (ht : text' <+: text) : Longest cs text' :=
  ⟨h.isLexeme, hcs, fun ds hds hd => h.longest ds hds (hd.trans ht)⟩

/-! ### How lexemes start -/

theorem code_of_isDigit (h : c.isDigit = true) : 48 ≤ c.toNat ∧ c.toNat ≤ 57 := by
  simpa [Char.isDigit, UInt32.le_iff_toNat_le] using h

theorem code_of_isAlpha (h : c.isAlpha = true) :
    65 ≤ c.toNat ∧ c.toNat ≤ 90 ∨ 97 ≤ c.toNat ∧ c.toNat ≤ 122 := by
  obtain h | h : c.isUpper = true ∨ c.isLower = true := Bool.or_eq_true_iff.mp h
  · have h : 65 ≤ c.val ∧ c.val ≤ 90 := of_decide_eq_true h
    exact .inl (by simpa [UInt32.le_iff_toNat_le] using h)
  · have h : (decide (97 ≤ c.val) && decide (c.val ≤ 122)) = true := h
    exact .inr (by simpa [UInt32.le_iff_toNat_le] using h)

theorem isBlank_eq_false (h : 33 ≤ c.toNat) (h' : c.toNat ≤ 126) : Text.isBlank c = false := by
  simp only [Text.isBlank, Text.blankRanges, List.any_cons, List.any_nil, Bool.or_eq_false_iff,
    Bool.and_eq_false_iff, decide_eq_false_iff_not, and_true]
  omega

theorem isNumeralPart_of_startsNumeral (h : startsNumeral c cs = true) :
    isNumeralPart c = true := by
  simp only [startsNumeral, isNumeralPart, Bool.or_eq_true, Bool.and_eq_true] at h ⊢
  exact h.imp_right And.left

theorem isWordStart_of_isNumeralPart (h : isNumeralPart c = true) : isWordStart c = false := by
  obtain h | rfl : c.isDigit = true ∨ c = '.' := by simpa [isNumeralPart] using h
  · obtain ⟨hlow, hhigh⟩ := code_of_isDigit h
    refine Bool.or_eq_false_iff.mpr ⟨Bool.eq_false_iff.mpr fun ha => ?_, beq_false_of_ne ?_⟩
    · have := code_of_isAlpha ha
      omega
    · rintro rfl
      simp at hhigh
  · decide

theorem startsNumeral_eq_false (h : isNumeralPart c = false) : startsNumeral c cs = false :=
  Bool.eq_false_iff.mpr fun hs => by simp [isNumeralPart_of_startsNumeral hs] at h

theorem isNumeralPart_of_isWordStart (h : isWordStart c = true) : isNumeralPart c = false :=
  Bool.eq_false_iff.mpr fun hn => by simp [isWordStart_of_isNumeralPart hn] at h

theorem isWordPart_of_isWordStart (h : isWordStart c = true) : isWordPart c = true := by
  simp only [isWordStart, isWordPart, Char.isAlphanum, Bool.or_eq_true] at h ⊢
  exact h.imp_left .inl

theorem isNumeralPart_of_isExponentMark (h : Decimal.isExponentMark c = true) :
    isNumeralPart c = false := by
  obtain rfl | rfl : c = 'e' ∨ c = 'E' := by simpa [Decimal.isExponentMark] using h
  · decide
  · decide

theorem start_of_mem_marks {o : Option Token} (h : (c :: cs, o) ∈ marks) :
    isNumeralPart c = false ∧ isWordStart c = false := by
  have hall : ∀ mark ∈ marks, (mark.1.all fun c => !isNumeralPart c && !isWordStart c) = true := by
    decide
  simpa using List.all_eq_true.mp (hall _ h) c List.mem_cons_self

theorem IsNumeral.start (h : IsNumeral (c :: cs)) : isNumeralPart c = true := by
  cases h with
  | intro hs _ _ => exact isNumeralPart_of_startsNumeral hs

theorem IsWord.start (h : IsWord (c :: cs)) : isWordStart c = true := by
  cases h with
  | intro hs _ => exact hs

theorem IsLexeme.isNumeral (h : IsLexeme (c :: cs)) (hc : isNumeralPart c = true) :
    IsNumeral (c :: cs) := by
  obtain h | h | ⟨o, h⟩ := h
  · exact h
  · exact absurd h.start (by simp [isWordStart_of_isNumeralPart hc])
  · exact absurd hc (by simp [(start_of_mem_marks h).1])

theorem IsLexeme.isWord (h : IsLexeme (c :: cs)) (hc : isWordStart c = true) :
    IsWord (c :: cs) := by
  obtain h | h | ⟨o, h⟩ := h
  · exact absurd h.start (by simp [isNumeralPart_of_isWordStart hc])
  · exact h
  · exact absurd hc (by simp [(start_of_mem_marks h).2])

theorem IsLexeme.isMark (h : IsLexeme (c :: cs)) (hn : isNumeralPart c = false)
    (hw : isWordStart c = false) : ∃ o, (c :: cs, o) ∈ marks := by
  obtain h | h | h := h
  · exact absurd h.start (by simp [hn])
  · exact absurd h.start (by simp [hw])
  · exact h

/-- A lexeme has a first character, which is no blank. -/
theorem IsLexeme.exists_cons (h : IsLexeme cs) :
    ∃ c tail, cs = c :: tail ∧ Text.isBlank c = false := by
  obtain ⟨hs, -, -⟩ | ⟨hs, -⟩ | ⟨o, h⟩ := h
  · refine ⟨_, _, rfl, ?_⟩
    obtain hd | rfl : Char.isDigit _ = true ∨ _ = '.' := by
      simpa [isNumeralPart] using isNumeralPart_of_startsNumeral hs
    · have := code_of_isDigit hd
      exact isBlank_eq_false (by omega) (by omega)
    · decide
  · refine ⟨_, _, rfl, ?_⟩
    obtain ha | rfl : Char.isAlpha _ = true ∨ _ = '_' := by simpa [isWordStart] using hs
    · have := code_of_isAlpha ha
      exact isBlank_eq_false (by omega) (by omega)
    · decide
  · have hall : ∀ mark ∈ marks, mark.1 ≠ [] ∧ (mark.1.all fun c => !Text.isBlank c) = true := by
      decide
    obtain ⟨hne, hblank⟩ := hall _ h
    obtain ⟨c, tail, rfl⟩ := List.exists_cons_of_ne_nil hne
    exact ⟨c, tail, rfl, by simpa using List.all_eq_true.mp hblank c List.mem_cons_self⟩

/-! ### Numerals -/

/-- A sign and digits may follow the mark of an exponent. -/
theorem exists_exponentPart_eq (mark : Char) (cs : List Char) :
    ∃ sign ∈ [[], ['+'], ['-']], ∃ rest, cs = sign ++ rest ∧ exponentPart (mark :: cs) =
      if Decimal.isExponentMark mark && !(rest.takeWhile Char.isDigit).isEmpty then
        mark :: (sign ++ rest.takeWhile Char.isDigit) else [] := by
  by_cases hs : startsWithSign cs = true
  · unfold startsWithSign at hs
    split at hs
    · exact ⟨['+'], by simp, _, rfl, rfl⟩
    · exact ⟨['-'], by simp, _, rfl, rfl⟩
    · simp at hs
  · exact ⟨[], by simp, cs, rfl, by simp [exponentPart, hs]⟩

/-- An exponent is taken only with a digit. -/
theorem exponentPart_spec (cs : List Char) :
    exponentPart cs = [] ∨ IsExponent (exponentPart cs) ∧ exponentPart cs <+: cs := by
  cases cs with
  | nil => exact .inl rfl
  | cons mark cs =>
    obtain ⟨sign, hsign, rest, rfl, heq⟩ := exists_exponentPart_eq mark cs
    rw [heq]
    split
    · next h =>
      simp only [Bool.and_eq_true, Bool.not_eq_true', List.isEmpty_eq_false_iff] at h
      refine .inr ⟨.intro h.1 hsign h.2 fun d hd => List.mem_takeWhile_imp hd, ?_⟩
      simpa using List.takeWhile_prefix _
    · exact .inl rfl

/-- An exponent that is there is taken, with all digits behind it. -/
theorem IsExponent.exponentPart_append (h : IsExponent cs) (rest : List Char) :
    exponentPart (cs ++ rest) = cs ++ rest.takeWhile Char.isDigit := by
  obtain @⟨mark, sign, digits, hmark, hsign, hne, hdigits⟩ := h
  have htake : (digits ++ rest).takeWhile Char.isDigit = digits ++ rest.takeWhile Char.isDigit :=
    List.takeWhile_append_of_pos hdigits
  simp only [List.mem_cons, List.not_mem_nil, or_false] at hsign
  obtain rfl | rfl | rfl := hsign
  · match digits with
    | d :: digits =>
      have hd : startsWithSign (d :: (digits ++ rest)) = false := by
        have := hdigits d List.mem_cons_self
        unfold startsWithSign
        split <;> simp_all [Char.isDigit]
      simp only [List.nil_append, List.cons_append] at htake ⊢
      simp [exponentPart, hd, hmark, htake]
  · simp [exponentPart, startsWithSign, hmark, htake, hne]
  · simp [exponentPart, startsWithSign, hmark, htake, hne]

theorem numeralTail_append {body : List Char} (h : ∀ d ∈ body, isNumeralPart d = true)
    (rest : List Char) : numeralTail (body ++ rest) = body ++ numeralTail rest := by
  simp only [numeralTail, List.takeWhile_append_of_pos h, List.length_append,
    List.drop_length_add_append, List.append_assoc]

theorem IsExponent.numeralTail_append (h : IsExponent cs) (rest : List Char) :
    numeralTail (cs ++ rest) = cs ++ rest.takeWhile Char.isDigit := by
  have hbody : (cs ++ rest).takeWhile isNumeralPart = [] := by
    obtain ⟨hmark, -, -, -⟩ := h
    simp [isNumeralPart_of_isExponentMark hmark]
  rw [numeralTail, hbody]
  exact h.exponentPart_append rest

theorem numeralTail_atFront (cs : List Char) : numeralTail cs <+: cs := by
  have hbody : cs.takeWhile isNumeralPart <+: cs := List.takeWhile_prefix _
  have hsplit := List.prefix_iff_eq_append.mp hbody
  have hexponent : exponentPart (cs.drop (cs.takeWhile isNumeralPart).length) <+:
      cs.drop (cs.takeWhile isNumeralPart).length := by
    obtain h | h := exponentPart_spec (cs.drop (cs.takeWhile isNumeralPart).length)
    · simp [h]
    · exact h.2
  have h := (List.prefix_append_right_inj (cs.takeWhile isNumeralPart)).mpr hexponent
  rwa [hsplit] at h

/-- What follows the first character decides a numeral only as far as its digits and points go. -/
theorem startsNumeral_takeWhile (h : startsNumeral c cs = true) :
    startsNumeral c (cs.takeWhile isNumeralPart) = true := by
  match cs with
  | [] => exact h
  | d :: cs =>
    by_cases hd : d.isDigit = true
    · simpa [startsNumeral, isNumeralPart, hd] using h
    · simp_all [startsNumeral]

/-- A numeral takes all that it can. -/
theorem longest_numeral (h : startsNumeral c cs = true) :
    Longest (c :: numeralTail cs) (c :: cs) := by
  have hc := isNumeralPart_of_startsNumeral h
  refine ⟨.inl ?_, (List.prefix_cons_inj c).mpr (numeralTail_atFront cs), fun ds hds hpre => ?_⟩
  · refine IsNumeral.intro (startsNumeral_takeWhile h) ?_ ((exponentPart_spec _).imp_right And.left)
    exact List.forall_mem_cons.mpr ⟨hc, fun d hd => List.mem_takeWhile_imp hd⟩
  · obtain ⟨d, tail, rfl, -⟩ := hds.exists_cons
    obtain ⟨rfl, rest, rfl⟩ := List.cons_prefix_cons.mp hpre
    obtain @⟨_, body, exponent, -, hparts, hexponent⟩ := hds.isNumeral hc
    rw [List.append_assoc, numeralTail_append (List.forall_mem_cons.mp hparts).2]
    obtain rfl | hexponent := hexponent
    · simp
    · rw [hexponent.numeralTail_append]
      simp

theorem IsNumeral.startsNumeral_append (h : IsNumeral (c :: cs)) (rest : List Char) :
    startsNumeral c (cs ++ rest) = true := by
  obtain @⟨_, tail, exponent, hs, -, -⟩ := h
  cases tail with
  | nil =>
    have hd : c.isDigit = true := by simpa [startsNumeral] using hs
    simp [startsNumeral, hd]
  | cons d tail => simpa [startsNumeral] using hs

/-- The longest numeral at a place is what the lexer takes there. -/
theorem Longest.numeralTail_eq (h : Longest (c :: cs) (c :: text)) (hn : IsNumeral (c :: cs)) :
    startsNumeral c text = true ∧ numeralTail text = cs := by
  obtain ⟨-, rest, rfl⟩ := List.cons_prefix_cons.mp h.atFront
  have hs := hn.startsNumeral_append rest
  exact ⟨hs, List.cons_inj_right c |>.mp ((longest_numeral hs).unique h)⟩

/-- Behind a numeral there is no exponent or, if it took one, no digit. -/
theorem exists_numeralTail_eq (h : text = numeralTail text ++ cs) :
    ∃ exponent, numeralTail text = text.takeWhile isNumeralPart ++ exponent ∧
      (exponent = [] ∧ (∀ e, IsExponent e → ¬ e <+: cs) ∨
        IsExponent exponent ∧ ∀ d ∈ cs.head?, d.isDigit = false) := by
  have hbody : text.takeWhile isNumeralPart <+: text := List.takeWhile_prefix _
  have hsplit := List.prefix_iff_eq_append.mp hbody
  refine ⟨exponentPart (text.drop (text.takeWhile isNumeralPart).length), rfl, ?_⟩
  have hrest : text.drop (text.takeWhile isNumeralPart).length =
      exponentPart (text.drop (text.takeWhile isNumeralPart).length) ++ cs := by
    rw [← List.append_cancel_left_eq (text.takeWhile isNumeralPart), hsplit, ← List.append_assoc]
    exact h
  generalize text.drop (text.takeWhile isNumeralPart).length = behind at hrest
  obtain hnil | ⟨hexponent, -⟩ := exponentPart_spec behind
  · refine .inl ⟨hnil, fun e he hpre => ?_⟩
    rw [hnil, List.nil_append] at hrest
    obtain ⟨more, rfl⟩ := hpre
    rw [hrest, he.exponentPart_append] at hnil
    cases he
    cases hnil
  · refine .inr ⟨hexponent, fun d hd => ?_⟩
    have hdigits := hexponent.exponentPart_append cs
    rw [← hrest, List.self_eq_append_right] at hdigits
    obtain ⟨more, rfl⟩ := List.head?_eq_some_iff.mp hd
    simpa using hdigits

theorem contains_point_iff (cs : List Char) :
    (cs.drop ((cs.takeWhile (· != '.')).length + 1)).contains '.' = true ↔ 2 ≤ cs.count '.' := by
  induction cs with
  | nil => simp
  | cons d cs ih =>
    by_cases hd : d = '.'
    · subst hd
      simp [List.one_le_count_iff]
    · simpa [hd] using ih

theorem IsExponent.count_point (h : IsExponent cs) : cs.count '.' = 0 := by
  obtain ⟨hmark, hsign, -, hdigits⟩ := h
  refine List.count_eq_zero.mpr fun hmem => ?_
  obtain rfl | hmem | hmem : '.' = _ ∨ '.' ∈ _ ∨ '.' ∈ _ := by simpa using hmem
  · simp [Decimal.isExponentMark] at hmark
  · simp only [List.mem_cons, List.not_mem_nil, or_false] at hsign
    obtain rfl | rfl | rfl := hsign <;> simp at hmem
  · exact absurd (hdigits _ hmem) (by decide)

/-- A numeral is read unless it has a second point. -/
theorem IsNumeral.read?_eq_none_iff (h : IsNumeral cs) :
    Decimal.read? cs = none ↔ 2 ≤ cs.count '.' := by
  obtain @⟨d, tail, exponent, -, hparts, hexponent⟩ := h
  have hbody : (d :: tail ++ exponent).takeWhile (!Decimal.isExponentMark ·) = d :: tail := by
    rw [List.takeWhile_append_of_pos]
    · obtain rfl | ⟨hmark, -, -, -⟩ := hexponent
      · simp
      · simp [hmark]
    · intro e he
      refine (Bool.not_eq_true' _).mpr (Bool.eq_false_iff.mpr fun hmark => ?_)
      exact absurd (hparts e he) (by simp [isNumeralPart_of_isExponentMark hmark])
  have hcount : exponent.count '.' = 0 := by
    obtain rfl | h := hexponent
    · rfl
    · exact h.count_point
  rw [← List.cons_append]
  simp only [Decimal.read?, Option.map_eq_none_iff, Decimal.numeral?, hbody,
    List.count_append, hcount, Nat.add_zero, ← contains_point_iff]
  split <;> simp_all

/-! ### Words and marks -/

theorem longest_word (h : isWordStart c = true) (cs : List Char) :
    Longest (c :: cs.takeWhile isWordPart) (c :: cs) := by
  have htail : cs.takeWhile isWordPart <+: cs := List.takeWhile_prefix _
  refine ⟨.inr (.inl (.intro h fun d hd => List.mem_takeWhile_imp hd)),
    (List.prefix_cons_inj c).mpr htail, fun ds hds hpre => ?_⟩
  obtain ⟨d, tail, rfl, -⟩ := hds.exists_cons
  obtain ⟨rfl, rest, rfl⟩ := List.cons_prefix_cons.mp hpre
  obtain ⟨-, htail⟩ := hds.isWord h
  simp [List.takeWhile_append_of_pos htail]

theorem Longest.takeWhile_eq (h : Longest (c :: cs) (c :: text)) (hw : IsWord (c :: cs)) :
    text.takeWhile isWordPart = cs :=
  List.cons_inj_right c |>.mp ((longest_word hw.start text).unique h)

/-- A mark is as long as it can be if no other mark is longer. -/
theorem longest_mark {tail : List Char} {o : Option Token} (h : (c :: tail, o) ∈ marks)
    (hpre : tail <+: cs)
    (hmax : ∀ mark ∈ marks, mark.1 <+: c :: cs → mark.1.length ≤ tail.length + 1) :
    Longest (c :: tail) (c :: cs) := by
  refine ⟨.inr (.inr ⟨o, h⟩), (List.prefix_cons_inj c).mpr hpre, fun ds hds hds' => ?_⟩
  obtain ⟨d, ds, rfl, -⟩ := hds.exists_cons
  obtain ⟨rfl, -⟩ := List.cons_prefix_cons.mp hds'
  obtain ⟨o', hmem⟩ := hds.isMark (start_of_mem_marks h).1 (start_of_mem_marks h).2
  exact hmax _ hmem hds'

/-- The longest mark at the front is taken, by a look at the next character. -/
theorem mem_marks_of_punctuation? {tail : List Char}
    (h : punctuation? c cs.head? = some (t, tail)) :
    (c :: tail, some t) ∈ marks ∧ tail <+: cs ∧
      ∀ mark ∈ marks, mark.1 <+: c :: cs → mark.1.length ≤ tail.length + 1 := by
  unfold punctuation? at h
  split at h
  case h_3 =>
    split at h
    · next hnext =>
      cases h
      obtain ⟨rest, rfl⟩ := List.head?_eq_some_iff.mp hnext
      simp [marks, List.cons_prefix_cons]
    · next hnext =>
      cases h
      cases cs <;> simp_all [marks, List.cons_prefix_cons, eq_comm]
  case h_4 =>
    split at h
    · cases h
    · next hnext =>
      cases h
      cases cs <;> simp_all [marks, List.cons_prefix_cons, eq_comm]
  case h_9 => cases h
  all_goals
    cases h
    simp [marks, List.cons_prefix_cons]

/-- The longest mark is no beginning of another one. -/
theorem Longest.head?_ne {d : Char} {o : Option Token} (h : Longest [c] (c :: cs))
    (hm : ([c, d], o) ∈ marks) : cs.head? ≠ some d := by
  intro hnext
  obtain ⟨rest, rfl⟩ := List.head?_eq_some_iff.mp hnext
  have hlen := h.longest [c, d] (.inr (.inr ⟨o, hm⟩)) ⟨rest, rfl⟩
  simp at hlen

theorem punctuation?_eq_some_iff {tail : List Char} : punctuation? c cs.head? = some (t, tail) ↔
    (c :: tail, some t) ∈ marks ∧ Longest (c :: tail) (c :: cs) := by
  constructor
  · intro h
    obtain ⟨hm, hpre, hmax⟩ := mem_marks_of_punctuation? h
    exact ⟨hm, longest_mark hm hpre hmax⟩
  · rintro ⟨hm, hl⟩
    have hpre := (List.cons_prefix_cons.mp hl.atFront).2
    simp only [marks, List.mem_cons, List.not_mem_nil, or_false, Prod.mk.injEq, List.cons.injEq,
      Option.some.injEq, reduceCtorEq, and_false, false_or] at hm
    rcases hm with h | h | h | h | h | h | h | h | h <;> obtain ⟨⟨rfl, rfl⟩, rfl⟩ := h
    · rfl
    · rfl
    · have hnext : cs.head? ≠ some '*' := hl.head?_ne (o := some .caret) (by simp [marks])
      simp [punctuation?, hnext]
    · obtain ⟨rest, rfl⟩ := hpre
      rfl
    · have hnext : cs.head? ≠ some '/' := hl.head?_ne (o := none) (by simp [marks])
      simp [punctuation?, hnext]
    · rfl
    · rfl
    · rfl
    · rfl

end InitialValue.Expression
