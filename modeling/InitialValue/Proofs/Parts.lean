import InitialValue.Expression.Tree

/-! The parts of an expression tree. The arguments of a call are a list of trees, so
induction over trees has a hypothesis for every argument in the list. A tree is a
part of itself, and the parts of its children are parts of it. -/

namespace InitialValue.Expression.Tree

@[elab_as_elim, induction_eliminator]
theorem induction_parts {motive : Tree → Prop} (literal : ∀ v, motive (.literal v))
    (symbol : ∀ s, motive (.symbol s))
    (binary : ∀ op left right, motive left → motive right → motive (.binary op left right))
    (signed : ∀ sign operand, motive operand → motive (.signed sign operand))
    (call : ∀ f args, (∀ a ∈ args, motive a) → motive (.call f args)) : ∀ t, motive t
  | .literal v => literal v
  | .symbol s => symbol s
  | .binary op left right =>
    binary op left right (induction_parts literal symbol binary signed call left)
      (induction_parts literal symbol binary signed call right)
  | .signed sign operand =>
    signed sign operand (induction_parts literal symbol binary signed call operand)
  | .call f args => call f args fun a _ => induction_parts literal symbol binary signed call a

/-- The operands or the arguments, from left to right. -/
def children : Tree → List Tree
  | .literal _ | .symbol _ => []
  | .binary _ left right => [left, right]
  | .signed _ operand => [operand]
  | .call _ args => args

/-- `Within s t`: the tree `s` is a part of `t`, at any depth. -/
inductive Within : Tree → Tree → Prop
  | refl {t} : Within t t
  | child {s c t} : c ∈ t.children → Within s c → Within s t

variable {s t u : Tree}

theorem Within.trans (hs : Within s t) (ht : Within t u) : Within s u := by
  induction ht with
  | refl => exact hs
  | child hc _ ih => exact .child hc ih

theorem within_iff : Within s t ↔ s = t ∨ ∃ c ∈ t.children, Within s c := by
  constructor
  · intro h
    cases h with
    | refl => exact .inl rfl
    | child hc h => exact .inr ⟨_, hc, h⟩
  · rintro (rfl | ⟨c, hc, h⟩)
    · exact .refl
    · exact .child hc h

@[simp] theorem within_literal_iff {v : Float} : Within s (.literal v) ↔ s = .literal v := by
  rw [within_iff]
  simp [children]

@[simp] theorem within_symbol_iff {c : Symbol} : Within s (.symbol c) ↔ s = .symbol c := by
  rw [within_iff]
  simp [children]

@[simp] theorem within_binary_iff {op : Operator} {left right : Tree} :
    Within s (.binary op left right) ↔
      s = .binary op left right ∨ Within s left ∨ Within s right := by
  rw [within_iff]
  simp [children]

@[simp] theorem within_signed_iff {sign : Sign} {operand : Tree} :
    Within s (.signed sign operand) ↔ s = .signed sign operand ∨ Within s operand := by
  rw [within_iff]
  simp [children]

@[simp] theorem within_call_iff {f : Builtin} {args : List Tree} :
    Within s (.call f args) ↔ s = .call f args ∨ ∃ a ∈ args, Within s a := within_iff

end InitialValue.Expression.Tree
