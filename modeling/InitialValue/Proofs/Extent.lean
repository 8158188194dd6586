import InitialValue.Expression.Value
import InitialValue.Proofs.Lexing
import InitialValue.Proofs.Parsing
import InitialValue.Proofs.Parts

/-! How far the tree of a text extends. Every node takes a token of its own and every token
a character, so the bound on the length of a text bounds its nodes, and with them the parts
that an evaluation enters. Parentheses use up levels without leaving a node; an operand of a
sign, an exponent and an argument each stand one level deeper, which leaves at most 63 of
them on the way from the root to any part. -/

namespace InitialValue.Expression

namespace Tree

/-! ### Nodes -/

mutual

/-- The number of nodes. -/
def size : Tree → Nat
  | .literal _ | .symbol _ => 1
  | .binary _ left right => 1 + (left.size + right.size)
  | .signed _ operand => 1 + operand.size
  | .call _ args => 1 + sizeAll args

def sizeAll : List Tree → Nat
  | [] => 0
  | t :: ts => t.size + sizeAll ts

end

/-! ### Parts that are entered -/

/-- The outcome of a computation on trees, with the number of parts that it entered. -/
structure Counted (α : Type) where
  outcome : Except EvalError α
  entered : Nat

namespace Counted

variable {α β : Type}

instance : Monad Counted where
  pure a := ⟨.ok a, 0⟩
  bind c g :=
    match c.outcome with
    | .ok a => ⟨(g a).outcome, c.entered + (g a).entered⟩
    | .error e => ⟨.error e, c.entered⟩

/-- Enters a part. -/
def enter : Counted Unit := ⟨.ok (), 1⟩

/-- Enters nothing. -/
def lift (r : Except EvalError α) : Counted α := ⟨r, 0⟩

/-- The computation ends as `r` does and enters at most `most` parts, all of them if it does not
fail. -/
structure Follows (c : Counted α) (r : Except EvalError α) (most : Nat) : Prop where
  outcome_eq : c.outcome = r
  entered_le : c.entered ≤ most
  entered_eq : ∀ a, r = .ok a → c.entered = most

theorem follows_pure (a : α) : (pure a : Counted α).Follows (.ok a) 0 :=
  ⟨rfl, le_rfl, fun _ _ => rfl⟩

theorem follows_lift (r : Except EvalError α) : (lift r).Follows r 0 :=
  ⟨rfl, le_rfl, fun _ _ => rfl⟩

theorem Follows.bind {c : Counted α} {g : α → Counted β} {r : Except EvalError α}
    {s : α → Except EvalError β} {m n : Nat} (hc : c.Follows r m)
    (hg : ∀ a, (g a).Follows (s a) n) : (c >>= g).Follows (r >>= s) (m + n) := by
  obtain ⟨outcome, entered⟩ := c
  obtain ⟨rfl, hle, heq⟩ := hc
  cases outcome with
  | error e => exact ⟨rfl, Nat.le_add_right_of_le hle, fun _ h => by cases h⟩
  | ok a =>
    have hm : entered = m := heq a rfl
    refine ⟨(hg a).outcome_eq, ?_, fun b hb => ?_⟩
    · exact Nat.add_le_add hle (hg a).entered_le
    · exact congrArg₂ (· + ·) hm ((hg a).entered_eq b hb)

theorem Follows.entering {c : Counted α} {r : Except EvalError α} {n : Nat} (hc : c.Follows r n) :
    (enter >>= fun _ => c).Follows r (1 + n) where
  outcome_eq := hc.outcome_eq
  entered_le := Nat.add_le_add_left hc.entered_le 1
  entered_eq a ha := congrArg (1 + ·) (hc.entered_eq a ha)

end Counted

open Counted

variable {x y : Float}

mutual

/-- Evaluation that counts the parts it enters. -/
def evaluateCounting (x y : Float) : Tree → Counted Float
  | .literal v => do
    enter
    return v
  | .symbol s => do
    enter
    return s.value x y
  | .binary op left right => do
    enter
    let a ← evaluateCounting x y left
    let b ← evaluateCounting x y right
    lift (op.apply a b)
  | .signed sign operand => do
    enter
    let a ← evaluateCounting x y operand
    return sign.apply a
  | .call f args => do
    enter
    if Builtin.greatestArity < args.length then lift (.error (.arity f args.length))
    else do
      let values ← evaluateAllCounting x y args
      lift (f.apply values)

def evaluateAllCounting (x y : Float) : List Tree → Counted (List Float)
  | [] => return []
  | t :: ts => do
    let a ← evaluateCounting x y t
    let rest ← evaluateAllCounting x y ts
    return a :: rest

end

theorem follows_evaluateAllCounting {ts : List Tree}
    (h : ∀ t ∈ ts, (t.evaluateCounting x y).Follows (t.evaluate x y) t.size) :
    (evaluateAllCounting x y ts).Follows (evaluateAll x y ts) (sizeAll ts) := by
  induction ts with
  | nil => exact follows_pure []
  | cons t ts ih =>
    rw [List.forall_mem_cons] at h
    rw [evaluateAllCounting, evaluateAll]
    exact h.1.bind fun a => (ih h.2).bind fun rest => follows_pure (a :: rest)

/-- Counting does not change the outcome, and each node is entered once, unless a failure comes
first. -/
theorem follows_evaluateCounting (t : Tree) (x y : Float) :
    (t.evaluateCounting x y).Follows (t.evaluate x y) t.size := by
  induction t with
  | literal v =>
    rw [evaluateCounting]
    exact (follows_pure v).entering
  | symbol s =>
    rw [evaluateCounting]
    exact (follows_pure (s.value x y)).entering
  | binary op left right ihl ihr =>
    rw [evaluateCounting, evaluate]
    exact (ihl.bind fun a => ihr.bind fun b => follows_lift (op.apply a b)).entering
  | signed sign operand ih =>
    rw [evaluateCounting, evaluate]
    exact (ih.bind fun a => follows_pure (sign.apply a)).entering
  | call f args ih =>
    rw [evaluateCounting, evaluate]
    split_ifs with hmost
    · exact ⟨rfl, Nat.le_add_right 1 _, fun _ h => by cases h⟩
    · exact ((follows_evaluateAllCounting ih).bind fun values =>
        follows_lift (f.apply values)).entering

/-! ### Levels on the way to a part -/

/-- `Descends t k s`: on the way from the root of `t` to its part `s` there are `k` steps into the
operand of a sign, into an exponent or into an argument. -/
inductive Descends : Tree → Nat → Tree → Prop
  | here {t} : Descends t 0 t
  | left {op left right k s} : Descends left k s → Descends (.binary op left right) k s
  | right {op left right k s} : op ≠ .pow → Descends right k s →
    Descends (.binary op left right) k s
  | exponent {left right k s} : Descends right k s → Descends (.binary .pow left right) (k + 1) s
  | operand {sign operand k s} : Descends operand k s → Descends (.signed sign operand) (k + 1) s
  | argument {f args a k s} : a ∈ args → Descends a k s → Descends (.call f args) (k + 1) s

end Tree

open InitialValue.Expression.Tree (sizeAll Descends)

/-! ### What a derivation bounds -/

theorem sizeAll_le_commaSeparated {args : List (List Token × Tree)}
    (h : ∀ arg ∈ args, arg.2.size ≤ arg.1.length) :
    sizeAll (args.map Prod.snd) ≤ (commaSeparated (args.map Prod.fst)).length := by
  induction args with
  | nil => simp [sizeAll]
  | cons arg args ih =>
    obtain ⟨harg, hargs⟩ := List.forall_mem_cons.mp h
    have hrest := ih hargs
    cases args with
    | nil => simpa [sizeAll] using harg
    | cons next args =>
      simp only [List.map_cons, commaSeparated_cons_cons, List.length_append, List.length_cons,
        sizeAll] at hrest ⊢
      omega

/-- Every node has a token that no other node has. -/
theorem Derives.size_le {n : Nat} {p : Phrase} {ts : List Token} {a : Tree} (h : Derives n p ts a) :
    a.size ≤ ts.length := by
  induction h with
  | ofTerm _ ih | ofUnary _ ih | ofPower _ ih | ofPrimary _ ih => exact ih
  | add _ _ iha ihb | sub _ _ iha ihb | mul _ _ iha ihb | div _ _ iha ihb | pow _ _ iha ihb =>
    simp only [Tree.size, List.length_append, List.length_cons]
    omega
  | plus _ ih | minus _ ih =>
    simp only [Tree.size, List.length_cons]
    omega
  | number v => exact le_rfl
  | symbol hs => exact le_rfl
  | call args _ _ _ ih =>
    have hargs := sizeAll_le_commaSeparated ih
    simp only [Tree.size, List.length_cons, List.length_append]
    omega
  | group _ ih =>
    simp only [List.length_cons, List.length_append]
    omega

/-- The level that a phrase takes itself. -/
def Phrase.level : Phrase → Nat
  | .sum | .term | .unary => 1
  | .power | .primary => 0

/-- Each step into an operand of a sign, an exponent or an argument takes one of the levels. -/
theorem Derives.descends_le {n : Nat} {p : Phrase} {ts : List Token} {a : Tree}
    (h : Derives n p ts a) {k : Nat} {s : Tree} (hs : Descends a k s) : k + p.level ≤ n := by
  induction h generalizing k s with
  | ofTerm _ ih | ofUnary _ ih | ofPrimary _ ih => exact ih hs
  | ofPower _ ih => exact Nat.succ_le_succ (ih hs)
  | group _ ih => exact Nat.le_of_succ_le (ih hs)
  | number _ | symbol _ =>
    cases hs
    exact Nat.zero_le _
  | add _ _ iha ihb | sub _ _ iha ihb | mul _ _ iha ihb | div _ _ iha ihb =>
    cases hs with
    | here => exact iha .here
    | left hs => exact iha hs
    | right _ hs => exact ihb hs
  -- The exponent is a unary at the levels of its power, so its own level pays for the step into it.
  | pow _ _ iha ihb =>
    cases hs with
    | here => exact Nat.zero_le _
    | left hs => exact iha hs
    | right hop hs => exact absurd rfl hop
    | exponent hs => exact ihb hs
  | plus _ ih | minus _ ih =>
    cases hs with
    | here => exact Nat.le_add_left 1 _
    | operand hs => exact Nat.succ_le_succ (ih hs)
  | call args _ _ _ ih =>
    cases hs with
    | here => exact Nat.zero_le _
    | argument ha hs =>
      obtain ⟨arg, harg, rfl⟩ := List.mem_map.mp ha
      exact ih arg harg hs

/-- No lexeme is empty. -/
theorem Cut.length_le {offset : Nat} {text : List Char} {ls : List Lexeme}
    (h : Cut offset text ls) : ls.length ≤ text.length := by
  induction h with
  | blanks _ => exact Nat.zero_le _
  | lexeme _ _ hs _ ih =>
    obtain ⟨c, tail, htext, -⟩ := hs.exists_cons
    simp only [htext, List.length_cons, List.length_append]
    omega

/-- A text that is read has no more nodes than tokens and no more than 4096 tokens. So an evaluation
of its tree enters at most 4096 parts; it enters every node once when it ends with a value. From the
root to any part at most 63 steps go into an operand of a sign, an exponent or an argument. -/
theorem extent_of_parse {source : String} {e : Expression} (h : parse source = .ok e) :
    (∃ ts, lexemes source.toList = .ok ts ∧ e.root.size ≤ ts.length ∧ ts.length ≤ 4096) ∧
    (∀ x y, (e.root.evaluateCounting x y).outcome = e.root.evaluate x y ∧
      (e.root.evaluateCounting x y).entered ≤ 4096 ∧
      ∀ v, e.root.evaluate x y = .ok v → (e.root.evaluateCounting x y).entered = e.root.size) ∧
    ∀ k s, Descends e.root k s → k ≤ 63 := by
  obtain ⟨-, hlength, ts, hts, hderives⟩ := parse_eq_ok_iff.mp h
  have hsize : e.root.size ≤ ts.length := by simpa using hderives.size_le
  have htokens : ts.length ≤ 4096 := by
    have hcut := (lexemes_eq_ok_iff.mp hts).length_le
    rw [String.length_toList] at hcut
    exact hcut.trans hlength
  refine ⟨⟨ts, hts, hsize, htokens⟩, fun x y => ?_,
    fun k s hs => Nat.le_of_succ_le_succ (hderives.descends_le hs)⟩
  obtain ⟨houtcome, hle, heq⟩ := e.root.follows_evaluateCounting x y
  exact ⟨houtcome, hle.trans (hsize.trans htokens), heq⟩

/-- Ten tokens, six nodes, and four levels on the way to the second variable: below the outer sign,
in the argument, in the exponent and below its sign. -/
theorem extent_of_minus_sine_of_power :
    let text := "-sin((x)^-y)"
    let root : Tree := .signed .minus
      (.call .sin [.binary .pow (.symbol .x) (.signed .minus (.symbol .y))])
    parse text = .ok ⟨text, root⟩ ∧
      (∃ ts, lexemes text.toList = .ok ts ∧ root.size ≤ ts.length ∧ ts.length ≤ 4096) ∧
      Descends root 4 (.symbol .y) ∧ ∀ s, ¬ Descends root 64 s := by
  intro text root
  have hts : lexemes text.toList = .ok [⟨.minus, 0, ['-']⟩, ⟨.identifier "sin", 1, ['s', 'i', 'n']⟩,
      ⟨.opening, 4, ['(']⟩, ⟨.opening, 5, ['(']⟩, ⟨.identifier "x", 6, ['x']⟩, ⟨.closing, 7, [')']⟩,
      ⟨.caret, 8, ['^']⟩, ⟨.minus, 9, ['-']⟩, ⟨.identifier "y", 10, ['y']⟩,
      ⟨.closing, 11, [')']⟩] := by
    decide +kernel
  have hx : Derives 60 .primary [.identifier "x"] (.symbol .x) := .symbol (by decide)
  have hy : Derives 59 .primary [.identifier "y"] (.symbol .y) := .symbol (by decide)
  have hbase : Derives 61 .primary [.opening, .identifier "x", .closing] (.symbol .x) :=
    .group (.ofTerm (.ofUnary (.ofPower (.ofPrimary hx))))
  have hpow := Derives.pow hbase (.minus (.ofPower (.ofPrimary hy)))
  have hsine := Derives.call [(_, _)] (show Builtin.ofName? "sin" = some .sin by decide)
    (List.forall_mem_singleton.mpr (.ofTerm (.ofUnary (.ofPower hpow)))) (by decide)
  have hparse : parse text = .ok ⟨text, root⟩ := parse_eq_ok_iff.mpr
    ⟨rfl, by decide, _, hts, .ofTerm (.ofUnary (.minus (.ofPower (.ofPrimary hsine))))⟩
  obtain ⟨htokens, -, hlevels⟩ := extent_of_parse hparse
  refine ⟨hparse, htokens, ?_, fun s hs => absurd (hlevels 64 s hs) (by decide)⟩
  exact .operand (.argument (List.mem_singleton.mpr rfl) (.exponent (.operand .here)))

end InitialValue.Expression
