import InitialValue.Expression.Parser
import Mathlib.Logic.Relation

/-! The descent of the parser, call by call. The parsers of expressions are routines that
call one another; they share one position in the lexemes and one count of levels, and the
calls that wait for another one stand on a stack. A unary counts its level when it is
called, which fails if all levels are in use, and gives it back when it returns. Every
cycle of calls goes through a unary and has at most six others, so the levels bound the
stack, however many lexemes there are. -/

namespace InitialValue.Expression.Descent

/-! ### Routines and their callers -/

/-- Chains of operands: sums of terms and terms of unaries. -/
inductive Tier where
  | sum | term

inductive Routine where
  | chain (tier : Tier)
  | unary | signed | power | primary
  | call (name : String) (position : Nat)

def Tier.operator? : Tier → Token → Option Operator
  | .sum => additive?
  | .term => multiplicative?

def Tier.operand : Tier → Routine
  | .sum => .chain .term
  | .term => .unary

/-- A call that waits for the one it made, with what it has read so far. A primary waits for a call
by name or for the sum of a group. -/
inductive Caller where
  | chain (tier : Tier) (left : Option (Tree × Operator))
  | unary
  | signed (sign : Option Sign)
  | power (base : Option Tree)
  | named
  | group
  | call (f : Builtin) (position : Nat) (args : List Tree)

/-- Puts an operand behind the operator that it was read for. -/
def join : Option (Tree × Operator) → Tree → Tree
  | none, a => a
  | some (left, op), a => .binary op left a

/-- A routine is about to start, or the last call is about to return. -/
inductive Control where
  | enter (r : Routine)
  | leave (result : Except ParseError Tree)

structure State where
  control : Control
  callers : List Caller
  position : Nat
  depth : Nat

/-! ### Steps -/

namespace State

/-- Lets `c` wait for a call of `r`. -/
def call (s : State) (c : Caller) (r : Routine) : State :=
  { s with control := .enter r, callers := c :: s.callers }

def leave (s : State) (result : Except ParseError Tree) : State :=
  { s with control := .leave result }

/-- Takes the lexeme at the position. -/
def take (s : State) : State := { s with position := s.position + 1 }

variable (tokens : List Lexeme) (stop : Nat) (s : State)

def ahead : Option Token := tokens[s.position]?.map Lexeme.token

/-- Returns the call of `f`, or fails for the number of its arguments. -/
def finish (f : Builtin) (position : Nat) (args : List Tree) : State :=
  s.leave
    (if f.arity.accepts args.length then .ok (.call f args) else .error
      (.arity f args.length position))

/-- Goes on with a primary whose first lexeme was taken. -/
def primary (t : Lexeme) : State :=
  match t.token with
  | .number v => s.leave (.ok (.literal v))
  | .identifier name =>
    match s.ahead tokens with
    | some .opening => s.take.call .named (.call name t.offset)
    | _ =>
      match Symbol.ofName? name with
      | some symbol => s.leave (.ok (.symbol symbol))
      | none => s.leave (.error (.unsupported (.identifier name) t.offset))
  | .opening => s.call .group (.chain .sum)
  | _ => s.leave (.error (.malformed (.unexpected t.token) t.offset))

/-- What a routine does up to its first call, or until it returns. -/
def start : Routine → State
  | .chain tier => s.call (.chain tier none) tier.operand
  | .unary =>
    let s := { s with depth := s.depth + 1 }
    if maxNesting < s.depth then s.leave (.error .tooDeep) else s.call .unary .signed
  | .signed =>
    match s.ahead tokens with
    | some .minus => s.take.call (.signed (some .minus)) .unary
    | some .plus => s.take.call (.signed (some .plus)) .unary
    | _ => s.call (.signed none) .power
  | .power => s.call (.power none) .primary
  | .primary =>
    match tokens[s.position]? with
    | some t => s.take.primary tokens t
    | none => s.leave (.error (.malformed (.unexpected none) stop))
  | .call name position =>
    match Builtin.ofName? name with
    | none => s.leave (.error (.unsupported (.call name) position))
    | some f =>
      match s.ahead tokens with
      | some .closing => s.take.finish f position []
      | _ => s.call (.call f position []) (.chain .sum)

/-- What a caller does with the tree that it has waited for, up to its next call, or until it
returns. -/
def resume (a : Tree) : Caller → State
  | .chain tier left =>
    match (s.ahead tokens).bind tier.operator? with
    | some op => s.take.call (.chain tier (some (join left a, op))) tier.operand
    | none => s.leave (.ok (join left a))
  | .unary => { s with depth := s.depth - 1 }.leave (.ok a)
  | .signed (some sign) => s.leave (.ok (.signed sign a))
  | .signed none => s.leave (.ok a)
  | .power none =>
    match s.ahead tokens with
    | some .caret => s.take.call (.power (some a)) .unary
    | _ => s.leave (.ok a)
  | .power (some base) => s.leave (.ok (.binary .pow base a))
  | .named => s.leave (.ok a)
  | .group =>
    match tokens[s.position]? with
    | none => s.leave (.error (.malformed (.expectedClosing none) stop))
    | some t =>
      match t.token with
      | .closing => s.take.leave (.ok a)
      | _ => s.take.leave (.error (.malformed (.expectedClosing t.token) t.offset))
  | .call f position args =>
    match tokens[s.position]? with
    | none => s.leave (.error (.malformed (.expectedClosing none) stop))
    | some t =>
      match t.token with
      | .closing => s.take.finish f position (args ++ [a])
      | .comma => s.take.call (.call f position (args ++ [a])) (.chain .sum)
      | _ => s.take.leave (.error (.malformed (.expectedSeparator t.token) t.offset))

/-- A caller hands on the error of the call that it made. -/
def abandon (e : ParseError) : Caller → State
  | .unary => { s with depth := s.depth - 1 }.leave (.error e)
  | _ => s.leave (.error e)

/-- One step of the descent; there is none when the first call has returned. -/
def step : Option State :=
  match s.control, s.callers with
  | .enter r, _ => some (s.start tokens stop r)
  | .leave _, [] => none
  | .leave (.ok a), c :: callers => some ({ s with callers }.resume tokens stop a c)
  | .leave (.error e), c :: callers => some ({ s with callers }.abandon e c)

end State

/-- The states of the run from a state. -/
def Reaches (tokens : List Lexeme) (stop : Nat) : State → State → Prop :=
  Relation.ReflTransGen fun s s' => s.step tokens stop = some s'

/-! ### Levels in use -/

def Caller.isUnary : Caller → Bool
  | .unary => true
  | _ => false

/-- The unaries that have their level and have not returned. -/
def unaries (callers : List Caller) : Nat := callers.countP Caller.isUnary

theorem unaries_unary (callers : List Caller) : unaries (.unary :: callers) = unaries callers + 1 :=
  List.countP_cons_of_pos rfl

theorem unaries_cons {c : Caller} (hc : c.isUnary = false) (callers : List Caller) :
    unaries (c :: callers) = unaries callers :=
  List.countP_cons_of_neg (Bool.eq_false_iff.mp hc)

def Tier.rank : Tier → Nat
  | .sum => 4
  | .term => 5

/-- There are at most so many calls between a routine and the last unary that has a level. -/
def Routine.rank : Routine → Nat
  | .signed => 0
  | .power => 1
  | .primary => 2
  | .call .. => 3
  | .chain tier => tier.rank
  | .unary => 6

def Caller.rank : Caller → Nat
  | .signed _ => 0
  | .power _ => 1
  | .named | .group => 2
  | .call .. => 3
  | .chain tier _ => tier.rank
  | .unary => 6

theorem Tier.rank_lt_operand (tier : Tier) : tier.rank < tier.operand.rank := by
  cases tier <;> exact Nat.lt_succ_self _

theorem Caller.rank_le {c : Caller} (hc : c.isUnary = false) : c.rank ≤ 5 := by
  cases c with
  | chain tier left => cases tier <;> simp [rank, Tier.rank]
  | unary => cases hc
  | _ => simp [rank]

theorem Caller.eq_unary {c : Caller} (hc : c.isUnary = true) : c = .unary := by
  cases c with
  | unary => rfl
  | _ => cases hc

/-- What a step can do to the calls and the count of levels. -/
inductive Moves : State → State → Prop
  /-- A routine other than a unary makes its first call. -/
  | call {r c r' cs p p' d} : c.isUnary = false → c.rank = r.rank → c.rank < r'.rank →
      Moves ⟨.enter r, cs, p, d⟩ ⟨.enter r', c :: cs, p', d⟩
  /-- A routine other than a unary returns without a call. -/
  | leave {r result cs p p' d} : result ≠ .error .tooDeep →
      Moves ⟨.enter r, cs, p, d⟩ ⟨.leave result, cs, p', d⟩
  | descend {cs p d} : d < maxNesting →
      Moves ⟨.enter .unary, cs, p, d⟩ ⟨.enter .signed, .unary :: cs, p, d + 1⟩
  | refuse {cs p d} : Moves ⟨.enter .unary, cs, p, d⟩ ⟨.leave (.error .tooDeep), cs, p, d + 1⟩
  | ascend {result cs p d} : Moves ⟨.leave result, .unary :: cs, p, d⟩ ⟨.leave result, cs, p, d - 1⟩
  /-- A caller makes another call. -/
  | again {a c c' r cs p p' d} : c.isUnary = false → c'.isUnary = false → c'.rank = c.rank →
      c.rank < r.rank → Moves ⟨.leave (.ok a), c :: cs, p, d⟩ ⟨.enter r, c' :: cs, p', d⟩
  /-- A caller returns after a call that did not fail. -/
  | finish {a c result cs p p' d} : c.isUnary = false → result ≠ .error .tooDeep →
      Moves ⟨.leave (.ok a), c :: cs, p, d⟩ ⟨.leave result, cs, p', d⟩
  | abandon {e c cs p d} : c.isUnary = false →
      Moves ⟨.leave (.error e), c :: cs, p, d⟩ ⟨.leave (.error e), cs, p, d⟩

section Moves

variable {tokens : List Lexeme} {stop : Nat}

theorem finish_ne_tooDeep (f : Builtin) (position : Nat) (args : List Tree) :
    (if f.arity.accepts args.length then .ok (.call f args) else .error
      (.arity f args.length position) :
      Except ParseError Tree) ≠ .error .tooDeep := by
  split <;> simp

theorem moves_primary (t : Lexeme) (cs : List Caller) (p p' d : Nat) :
    Moves ⟨.enter .primary, cs, p, d⟩ (State.primary tokens ⟨.enter .primary, cs, p', d⟩ t) := by
  dsimp only [State.primary]
  split
  · exact .leave (by simp)
  · split
    · exact .call rfl rfl (by simp [Caller.rank, Routine.rank])
    · split
      · exact .leave (by simp)
      · exact .leave (by simp)
  · exact .call rfl rfl (by simp [Caller.rank, Routine.rank, Tier.rank])
  · exact .leave (by simp)

theorem moves_start (r : Routine) (cs : List Caller) (p d : Nat) :
    Moves ⟨.enter r, cs, p, d⟩ (State.start tokens stop ⟨.enter r, cs, p, d⟩ r) := by
  cases r with
  | chain tier => exact .call rfl rfl tier.rank_lt_operand
  | unary =>
    dsimp only [State.start]
    split
    · exact .refuse
    · exact .descend (Nat.lt_of_succ_le (Nat.le_of_not_lt ‹_›))
  | signed =>
    dsimp only [State.start]
    split <;> exact .call rfl rfl (by simp [Caller.rank, Routine.rank])
  | power => exact .call rfl rfl (by simp [Caller.rank, Routine.rank])
  | primary =>
    dsimp only [State.start]
    split
    · exact moves_primary ..
    · exact .leave (by simp)
  | call name position =>
    dsimp only [State.start]
    split
    · exact .leave (by simp)
    · split
      · exact .leave (finish_ne_tooDeep _ _ _)
      · exact .call rfl rfl (by simp [Caller.rank, Routine.rank, Tier.rank])

theorem moves_resume (a : Tree) (c : Caller) (cs : List Caller) (p d : Nat) :
    Moves ⟨.leave (.ok a), c :: cs, p, d⟩
      (State.resume tokens stop ⟨.leave (.ok a), cs, p, d⟩ a c) := by
  cases c with
  | chain tier left =>
    dsimp only [State.resume]
    split
    · exact .again rfl rfl rfl tier.rank_lt_operand
    · exact .finish rfl (by simp)
  | unary => exact .ascend
  | signed sign => cases sign <;> exact .finish rfl (by simp)
  | power base =>
    cases base with
    | none =>
      dsimp only [State.resume]
      split
      · exact .again rfl rfl rfl (by simp [Caller.rank, Routine.rank])
      · exact .finish rfl (by simp)
    | some base => exact .finish rfl (by simp)
  | named => exact .finish rfl (by simp)
  | group =>
    dsimp only [State.resume]
    split
    · exact .finish rfl (by simp)
    · split <;> exact .finish rfl (by simp)
  | call f position args =>
    dsimp only [State.resume]
    split
    · exact .finish rfl (by simp)
    · split
      · exact .finish rfl (finish_ne_tooDeep _ _ _)
      · exact .again rfl rfl rfl (by simp [Caller.rank, Routine.rank, Tier.rank])
      · exact .finish rfl (by simp)

theorem moves_of_step {s s' : State} (h : s.step tokens stop = some s') : Moves s s' := by
  obtain ⟨control, callers, p, d⟩ := s
  cases control with
  | enter r =>
    obtain rfl := Option.some.inj h
    exact moves_start ..
  | leave result =>
    cases callers with
    | nil => cases result <;> cases h
    | cons c cs =>
      cases result with
      | ok a =>
        obtain rfl := Option.some.inj h
        exact moves_resume a c cs p d
      | error e =>
        obtain rfl := Option.some.inj h
        cases c with
        | unary => exact .ascend
        | _ => exact .abandon rfl

end Moves

/-! ### What the levels bound -/

/-- Every caller keeps to its rank, so that a level adds at most seven calls. -/
def Stacked : List Caller → Prop
  | [] => True
  | c :: cs => cs.length ≤ 7 * unaries cs + c.rank ∧ Stacked cs

theorem Stacked.length_le {cs : List Caller} (h : Stacked cs) : cs.length ≤ 7 * unaries cs + 6 := by
  cases cs with
  | nil => exact Nat.zero_le _
  | cons c cs =>
    have hle := h.1
    rw [List.length_cons]
    cases hc : c.isUnary with
    | false =>
      have hrank := Caller.rank_le hc
      rw [unaries_cons hc]
      omega
    | true =>
      obtain rfl := Caller.eq_unary hc
      have hle : cs.length ≤ 7 * unaries cs + 6 := hle
      rw [unaries_unary]
      omega

/-- A unary that is refused has counted a level and does not give it back. -/
def Control.excess : Control → Nat
  | .leave (.error .tooDeep) => 1
  | _ => 0

@[simp] theorem Control.excess_enter (r : Routine) : (Control.enter r).excess = 0 := rfl

@[simp] theorem Control.excess_ok (a : Tree) : (Control.leave (.ok a)).excess = 0 := rfl

theorem Control.excess_leave {result : Except ParseError Tree} (h : result ≠ .error .tooDeep) :
    (Control.leave result).excess = 0 := by
  unfold excess
  split
  · next heq => exact absurd (Control.leave.inj heq) h
  · rfl

/-- The count of levels is that of the unaries which have one, on top of those at the start, and the
calls between them stand in the order of their ranks. -/
structure Bounded (base : Nat) (s : State) : Prop where
  depth_eq : s.depth = base + unaries s.callers + s.control.excess
  le_maxNesting : base + unaries s.callers ≤ maxNesting
  stacked : Stacked s.callers
  entered : ∀ r, s.control = .enter r → s.callers.length ≤ 7 * unaries s.callers + r.rank

namespace Bounded

variable {base : Nat} {s s' : State}

theorem enter (r : Routine) (p : Nat) {d : Nat} (hd : d ≤ maxNesting) :
    Bounded d ⟨.enter r, [], p, d⟩ where
  depth_eq := rfl
  le_maxNesting := hd
  stacked := trivial
  entered _ _ := Nat.zero_le _

theorem moves (h : Bounded base s) (hm : Moves s s') : Bounded base s' := by
  obtain ⟨hdepth, hle, hstacked, hentered⟩ := h
  cases hm with
  | @call r c r' cs p p' d hc hrank hlt =>
    have hroom : cs.length ≤ 7 * unaries cs + c.rank := hrank ▸ hentered r rfl
    rw [← unaries_cons hc] at hdepth hle
    refine ⟨hdepth, hle, ⟨hroom, hstacked⟩, ?_⟩
    rintro _ ⟨⟩
    rw [List.length_cons, unaries_cons hc]
    omega
  | leave hne => exact ⟨by simpa [Control.excess_leave hne] using hdepth, hle, hstacked, nofun⟩
  | @descend cs p d hd =>
    have hroom : cs.length ≤ 7 * unaries cs + 6 := hentered .unary rfl
    have hdepth : d = base + unaries cs := hdepth
    refine ⟨?_, ?_, ⟨hroom, hstacked⟩, ?_⟩
    · show d + 1 = base + unaries (.unary :: cs) + 0
      rw [unaries_unary, hdepth]
      rfl
    · rw [unaries_unary]
      omega
    · rintro _ ⟨⟩
      rw [List.length_cons, unaries_unary]
      omega
  | refuse => exact ⟨congrArg (· + 1) hdepth, hle, hstacked, nofun⟩
  | @ascend result cs p d =>
    rw [unaries_unary] at hdepth hle
    change d = base + (unaries cs + 1) + (Control.leave result).excess at hdepth
    refine ⟨?_, Nat.le_of_succ_le hle, hstacked.2, nofun⟩
    show d - 1 = base + unaries cs + (Control.leave result).excess
    omega
  | again hc hc' hrank hlt =>
    obtain ⟨hroom, hrest⟩ := hstacked
    rw [unaries_cons hc] at hdepth hle
    refine ⟨by rwa [unaries_cons hc'], by rwa [unaries_cons hc'], ⟨hrank ▸ hroom, hrest⟩, ?_⟩
    rintro _ ⟨⟩
    rw [List.length_cons, unaries_cons hc']
    omega
  | finish hc hne =>
    rw [unaries_cons hc] at hdepth hle
    exact ⟨by simpa [Control.excess_leave hne] using hdepth, hle, hstacked.2, nofun⟩
  | abandon hc =>
    rw [unaries_cons hc] at hdepth hle
    exact ⟨hdepth, hle, hstacked.2, nofun⟩

/-- What a step preserves holds in all states of a run. -/
theorem reaches {tokens : List Lexeme} {stop : Nat} (h : Bounded base s)
    (hr : Reaches tokens stop s s') : Bounded base s' := by
  induction hr with
  | refl => exact h
  | tail _ hstep ih => exact ih.moves (moves_of_step hstep)

theorem length_callers_lt (h : Bounded base s) : s.callers.length < 455 := by
  have hlength := h.stacked.length_le
  have hlevels := h.le_maxNesting
  unfold maxNesting at hlevels
  omega

end Bounded

end InitialValue.Expression.Descent
