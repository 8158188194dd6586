import InitialValue.Proofs.Lexing

/-! Where cuts of texts can be taken apart and put together. A lexeme goes on with few
characters: digits, points, letters and underscores, the sign of an exponent, a second star
or slash. Before a parenthesis, a comma or a blank every lexeme ends, so a cut text may be
followed by any cut text that starts with one of these. A cut comes apart at every place
that lies within no lexeme, and blanks may be put in there. -/

namespace InitialValue.Expression

variable {c d : Char} {cs tail rest text : List Char} {l : Lexeme} {ls : List Lexeme} {offset : Nat}

/-! ### Characters that end lexemes -/

/-- No lexeme goes on with the character. -/
def Parts (c : Char) : Prop := ∀ d tail, IsLexeme (d :: tail) → c ∉ tail

theorem IsExponent.tail_cases (h : IsExponent cs) (hc : c ∈ cs) :
    isNumeralPart c = true ∨ isWordPart c = true ∨ c ∈ ['+', '-', '*', '/'] := by
  obtain ⟨hmark, hsign, -, hdigits⟩ := h
  rw [List.mem_cons, List.mem_append] at hc
  obtain rfl | hc | hc := hc
  · obtain rfl | rfl : c = 'e' ∨ c = 'E' := by simpa [Decimal.isExponentMark] using hmark
    · exact .inr (.inl (by decide))
    · exact .inr (.inl (by decide))
  · simp only [List.mem_cons, List.not_mem_nil, or_false] at hsign
    obtain rfl | rfl | rfl := hsign <;> simp_all
  · exact .inl (by simp [isNumeralPart, hdigits c hc])

/-- What a lexeme goes on with. -/
theorem IsLexeme.tail_cases (h : IsLexeme (d :: tail)) (hc : c ∈ tail) :
    isNumeralPart c = true ∨ isWordPart c = true ∨ c ∈ ['+', '-', '*', '/'] := by
  obtain h | h | ⟨o, h⟩ := h
  · obtain ⟨-, hparts, hexponent⟩ := h
    obtain hc | hc := List.mem_append.mp hc
    · exact .inl (hparts c (List.mem_cons_of_mem _ hc))
    · obtain rfl | hexponent := hexponent
      · cases hc
      · exact hexponent.tail_cases hc
  · obtain ⟨-, hparts⟩ := h
    exact .inr (.inl (hparts c hc))
  · have hall : ∀ mark ∈ marks, ∀ c ∈ mark.1.tail, c ∈ ['+', '-', '*', '/'] := by
      simp [marks]
    exact .inr (.inr (hall _ h c hc))

theorem parts_of_notMem (hn : isNumeralPart c = false) (hw : isWordPart c = false)
    (hm : c ∉ ['+', '-', '*', '/']) : Parts c := by
  intro d tail h hc
  obtain h | h | h := h.tail_cases hc
  · simp [hn] at h
  · simp [hw] at h
  · exact hm h

theorem parts_opening : Parts '(' := parts_of_notMem (by decide) (by decide) (by decide)

theorem parts_closing : Parts ')' := parts_of_notMem (by decide) (by decide) (by decide)

theorem parts_comma : Parts ',' := parts_of_notMem (by decide) (by decide) (by decide)

theorem parts_of_isBlank (hc : Text.isBlank c = true) : Parts c := by
  have hcode : c.toNat < 33 ∨ 126 < c.toNat := by
    by_contra hno
    rw [isBlank_eq_false (by omega) (by omega)] at hc
    cases hc
  intro d tail h hmem
  obtain h | h | h := h.tail_cases hmem
  · obtain h | rfl : c.isDigit = true ∨ c = '.' := by simpa [isNumeralPart] using h
    · have := code_of_isDigit h
      omega
    · simp at hcode
  · obtain (h | h) | rfl : (c.isAlpha = true ∨ c.isDigit = true) ∨ c = '_' := by
      simpa [isWordPart, Char.isAlphanum] using h
    · have := code_of_isAlpha h
      omega
    · have := code_of_isDigit h
      omega
    · simp at hcode
  · simp only [List.mem_cons, List.not_mem_nil, or_false] at h
    obtain rfl | rfl | rfl | rfl := h <;> simp at hcode

/-- What comes behind a character that parts lexemes cannot make a lexeme longer. -/
theorem Stands.before (h : Stands l rest) (hc : Parts c) (more : List Char) :
    Stands l (rest ++ c :: more) := by
  refine ⟨h.spells, h.longest.isLexeme, List.prefix_append _ _, fun ds hds hpre => ?_⟩
  rw [← List.append_assoc] at hpre
  have hfront : l.text ++ rest <+: (l.text ++ rest) ++ c :: more := List.prefix_append _ _
  by_cases hlen : ds.length ≤ (l.text ++ rest).length
  · exact h.longest.longest ds hds (List.prefix_of_prefix_length_le hpre hfront hlen)
  · obtain ⟨behind, rfl⟩ := List.prefix_of_prefix_length_le hfront hpre (Nat.le_of_not_le hlen)
    rw [List.prefix_append_right_inj] at hpre
    obtain ⟨d, tail, htext, -⟩ := h.exists_cons
    cases behind with
    | nil => simp at hlen
    | cons d' behind =>
      obtain ⟨rfl, -⟩ := List.cons_prefix_cons.mp hpre
      rw [htext, List.cons_append, List.cons_append] at hds
      exact absurd (by simp) (hc _ _ hds)

/-- A whole lexeme stands before a character that parts lexemes. -/
theorem stands_of_spells (h : Spells l.text l.token) (hlex : IsLexeme l.text) (hc : Parts c)
    (more : List Char) : Stands l (c :: more) := by
  have hwhole : Stands l [] :=
    ⟨h, hlex, List.prefix_append _ _, fun ds _ hpre => by simpa using hpre.length_le⟩
  exact hwhole.before hc more

/-! ### Cuts -/

theorem Cut.gap {gap : List Char} (hgap : ∀ c ∈ gap, Text.isBlank c = true)
    (h : Cut (offset + gap.length) text ls) : Cut offset (gap ++ text) ls := by
  induction gap generalizing offset with
  | nil => exact h
  | cons c gap ih =>
    rw [List.forall_mem_cons] at hgap
    refine (ih hgap.2 ?_).cons_blank hgap.1
    rwa [List.length_cons, Nat.add_comm gap.length, ← Nat.add_assoc] at h

/-- Moves a lexeme by the length of what is put in before it. -/
def Lexeme.shift (n : Nat) (l : Lexeme) : Lexeme := { l with offset := l.offset + n }

theorem Cut.shift (h : Cut offset text ls) (n : Nat) :
    Cut (offset + n) text (ls.map (Lexeme.shift n)) := by
  induction h with
  | blanks hgap => exact .blanks hgap
  | @lexeme offset gap rest l ls hgap hl hs _ ih =>
    refine .lexeme (l := l.shift n) hgap ?_ ⟨hs.spells, hs.longest⟩ ?_
    · rw [Lexeme.shift, hl, Nat.add_right_comm]
    · rwa [Nat.add_right_comm] at ih

/-- A cut may go on with another one that starts with a character that parts lexemes. -/
theorem Cut.append {ls' : List Lexeme} (h : Cut offset text ls) (hc : Parts c)
    (h' : Cut (offset + text.length) (c :: rest) ls') :
    Cut offset (text ++ c :: rest) (ls ++ ls') := by
  induction h with
  | blanks hgap => exact h'.gap hgap
  | @lexeme offset gap behind l ls hgap hl hs _ ih =>
    rw [List.append_assoc, List.append_assoc]
    refine .lexeme hgap hl (hs.before hc rest) (ih ?_)
    rwa [hl, Nat.add_assoc, Nat.add_assoc, ← List.length_append, ← List.length_append]

/-- A cut comes apart at a place within no lexeme. -/
theorem Cut.split {before after : List Char} (h : Cut offset (before ++ after) ls)
    (hseam : ∀ l ∈ ls, l.offset + l.text.length ≤ offset + before.length ∨
      offset + before.length ≤ l.offset) :
    ∃ ls₁ ls₂, ls = ls₁ ++ ls₂ ∧ Cut offset before ls₁ ∧
      Cut (offset + before.length) after ls₂ := by
  generalize htext : before ++ after = text at h
  induction h generalizing before with
  | blanks hgap =>
    subst htext
    rw [List.forall_mem_append] at hgap
    exact ⟨[], [], rfl, .blanks hgap.1, .blanks hgap.2⟩
  | @lexeme offset gap rest l ls hgap hl hs hcut ih =>
    rw [List.forall_mem_cons] at hseam
    by_cases hlen : before.length ≤ gap.length
    · obtain ⟨gap', rfl⟩ := List.prefix_of_prefix_length_le ⟨after, htext⟩
        (List.prefix_append gap _) hlen
      rw [List.append_assoc, List.append_cancel_left_eq] at htext
      rw [List.forall_mem_append] at hgap
      rw [List.length_append, ← Nat.add_assoc] at hl
      exact ⟨[], l :: ls, rfl, .blanks hgap.1, htext ▸ .lexeme hgap.2 hl hs hcut⟩
    · obtain ⟨read, rfl⟩ := List.prefix_of_prefix_length_le (List.prefix_append gap _)
        ⟨after, htext⟩ (by omega)
      rw [List.append_assoc, List.append_cancel_left_eq] at htext
      rw [List.length_append] at hseam hlen
      have hle : l.text.length ≤ read.length := by omega
      obtain ⟨read, rfl⟩ := List.prefix_of_prefix_length_le (List.prefix_append _ _)
        ⟨after, htext⟩ hle
      rw [List.append_assoc, List.append_cancel_left_eq] at htext
      have hplace : offset + (gap.length + (l.text ++ read).length) =
          l.offset + l.text.length + read.length := by
        rw [hl, List.length_append, Nat.add_assoc, Nat.add_assoc]
      rw [hplace] at hseam
      rw [List.length_append, hplace]
      obtain ⟨ls₁, ls₂, rfl, h₁, h₂⟩ := ih hseam.2 htext
      exact ⟨l :: ls₁, ls₂, rfl, .lexeme hgap hl (hs.shorten ⟨after, htext⟩) h₁, h₂⟩

/-- Blanks between lexemes change nothing but the offsets behind them. -/
theorem Cut.insert_gap {before gap after : List Char} (hgap : ∀ c ∈ gap, Text.isBlank c = true)
    (h : Cut offset (before ++ after) ls)
    (hseam : ∀ l ∈ ls, l.offset + l.text.length ≤ offset + before.length ∨
      offset + before.length ≤ l.offset) :
    ∃ ls', Cut offset (before ++ (gap ++ after)) ls' ∧
      ls'.map Lexeme.token = ls.map Lexeme.token := by
  cases gap with
  | nil => exact ⟨ls, h, rfl⟩
  | cons c gap =>
    obtain ⟨ls₁, ls₂, rfl, h₁, h₂⟩ := h.split hseam
    have hc := parts_of_isBlank (hgap c List.mem_cons_self)
    refine ⟨ls₁ ++ ls₂.map (Lexeme.shift (c :: gap).length),
      h₁.append hc ((h₂.shift _).gap hgap), ?_⟩
    simp [Lexeme.shift, Function.comp_def]

end InitialValue.Expression
