import InitialValue.Proofs.Evaluation
import InitialValue.Proofs.Parsing
import InitialValue.Proofs.Sentences

/-! Where an infinity can enter an evaluation at a finite point. Without the constant
`inf` there is one way left: a number in the text that is too large to be read as a
finite one. Its literal is a value like any other, and a quotient by it is finite. -/

namespace InitialValue.Expression

open InitialValue.Expression.Tree (Within)

theorem Symbol.eq_inf_of_ofName? {name : String} (h : ofName? name = some (.constant .inf)) :
    name = "inf" := by
  have hcoordinates : ∀ entry ∈ coordinates, entry.2 ≠ .constant .inf := by decide
  have hnames : ∀ entry ∈ Constant.names, entry.2 = .inf → entry.1 = "inf" := by decide
  obtain hl | ⟨-, hc⟩ := Option.or_eq_some_iff.mp h
  · obtain ⟨l₁, l₂, hl, -⟩ := List.lookup_eq_some_iff.mp hl
    exact absurd rfl (hcoordinates (name, .constant .inf) (by simp [hl]))
  · obtain ⟨c, hc, hinf⟩ := Option.map_eq_some_iff.mp hc
    cases hinf
    obtain ⟨l₁, l₂, hl, -⟩ := List.lookup_eq_some_iff.mp hc
    exact hnames (name, .inf) (by simp [hl]) rfl

/-- A text without the constant `inf` has finite values in all its parts, at every finite point,
exactly when the numbers in it are finite. -/
theorem finite_parts_iff_finite_numbers {source : String} {e : Expression} {ts : List Lexeme}
    (he : parse source = .ok e) (hts : lexemes source.toList = .ok ts)
    (hinf : .identifier "inf" ∉ ts.map Lexeme.token) :
    (∀ x y, x.isFinite = true → y.isFinite = true → ∀ s, Within s e.root →
      ∀ v, s.evaluate x y = .ok v → v.isFinite = true) ↔
    ∀ v, .number v ∈ ts.map Lexeme.token → v.isFinite = true := by
  obtain ⟨-, -, ts', hts', hd⟩ := parse_eq_ok_iff.mp he
  cases hts.symm.trans hts'
  constructor
  · intro hall v hv
    exact hall 0.0 0.0 rfl rfl (.literal v) (hd.within_literal_iff.mpr hv) v rfl
  · intro hnum x y hx hy s hs v hv
    refine Tree.kept_isFinite.evaluate (fun w hw => hnum w (hd.within_literal_iff.mp (hw.trans hs)))
      (fun c hc => Symbol.isFinite_value ?_ hx hy) hv
    rintro rfl
    obtain ⟨name, hname, hmem⟩ := hd.exists_identifier (hc.trans hs)
    rw [Symbol.eq_inf_of_ofName? hname] at hmem
    exact hinf hmem

/-- The tangent that is nearest to the pole at a half of `pi` is finite, like every number in the
text. -/
theorem finite_parts_of_tangent :
    ∃ e, parse "tan(pi/2) * x" = .ok e ∧ ∀ x y, x.isFinite = true → y.isFinite = true →
      ∀ s, Within s e.root → ∀ v, s.evaluate x y = .ok v → v.isFinite = true := by
  obtain ⟨e, he⟩ := exists_eq_ok_of_isOk
    (show (parse "tan(pi/2) * x").isOk = true by decide +kernel)
  have hts : lexemes "tan(pi/2) * x".toList = .ok [⟨.identifier "tan", 0, "tan".toList⟩,
      ⟨.opening, 3, ['(']⟩, ⟨.identifier "pi", 4, "pi".toList⟩, ⟨.slash, 6, ['/']⟩,
      ⟨.number 2.0, 7, ['2']⟩, ⟨.closing, 8, [')']⟩, ⟨.star, 10, ['*']⟩,
      ⟨.identifier "x", 12, ['x']⟩] := by
    decide +kernel
  refine ⟨e, he, (finite_parts_iff_finite_numbers he hts (by decide)).mpr fun v hv => ?_⟩
  simp only [List.map_cons, List.map_nil, List.mem_cons, reduceCtorEq, false_or, Token.number.injEq,
    List.not_mem_nil, or_false] at hv
  rw [hv]
  rfl

/-- A number that is too large is an infinite part of a finite value. -/
theorem infinite_part_of_large_number :
    ∃ e ts, parse "1/1e999" = .ok e ∧ lexemes "1/1e999".toList = .ok ts ∧
      .identifier "inf" ∉ ts.map Lexeme.token ∧ e.evaluate 1.0 1.0 = .ok 0.0 ∧
      ∃ s v, Within s e.root ∧ s.evaluate 1.0 1.0 = .ok v ∧ v.isFinite = false := by
  let root : Tree := .binary .div (.literal 1.0) (.literal Binary64.infinity)
  have hts : lexemes "1/1e999".toList = .ok [⟨.number 1.0, 0, ['1']⟩, ⟨.slash, 1, ['/']⟩,
      ⟨.number Binary64.infinity, 2, "1e999".toList⟩] := by
    decide +kernel
  have hd : Derives maxNesting .sum [.number 1.0, .slash, .number Binary64.infinity] root :=
    .ofTerm
      (.div (.ofUnary (.ofPower (.ofPrimary (.number _)))) (.ofPower (.ofPrimary (.number _))))
  refine ⟨⟨"1/1e999", root⟩, _, parse_eq_ok_iff.mpr ⟨rfl, by decide, _, hts, hd⟩, hts, by decide,
    by decide +kernel, .literal Binary64.infinity, Binary64.infinity, ?_, rfl, rfl⟩
  simp [root]

end InitialValue.Expression
