import InitialValue.Proofs.Descent
import InitialValue.Proofs.Reading
import Mathlib.Data.Nat.Init

/-! The descent comes to an end, and to what the parsers read. The run of a routine, called
anywhere in the lexemes and within the levels, comes back to its callers: where the rest
begins that its parser leaves and with the count of levels as it was, or with the error.
This is shown for each routine from those that it calls, along the recursion of the parsers.
With what a step preserves it follows that no run uses more than the levels there are. -/

namespace InitialValue.Expression.Descent

variable {tokens : List Lexeme} {stop : Nat} {s s' : State} {callers : List Caller}
  {position depth depth' : Nat}
  {ts us : List Lexeme} {t : Lexeme}

/-! ### Runs that come back -/

/-- The run from `s` comes back to the callers with the result of a parser: where the rest begins
and with the count of levels as it should be, or with the error. -/
inductive Returns (tokens : List Lexeme) (stop : Nat) (callers : List Caller)
    (depth : Nat) (s : State)
    {ts : List Lexeme} : Except ParseError (Parsed Tree ts) → Prop
  | ok {p position} : tokens.drop position = p.rest → position ≤ tokens.length →
      Reaches tokens stop s ⟨.leave (.ok p.value), callers, position, depth⟩ →
      Returns tokens stop callers depth s (.ok p)
  | error {e position depth'} :
    Reaches tokens stop s ⟨.leave (.error e), callers, position, depth'⟩ →
      Returns tokens stop callers depth s (.error e)

section Returns

variable {r : Except ParseError (Parsed Tree ts)}
  {r' : Except ParseError (Parsed Tree us)} {c : Caller}

theorem Returns.of_reaches (hr : Reaches tokens stop s s')
    (h : Returns tokens stop callers depth s' r) : Returns tokens stop callers depth s r := by
  cases h with
  | ok hdrop hle hr' => exact .ok hdrop hle (hr.trans hr')
  | error hr' => exact .error (hr.trans hr')

theorem Returns.of_step (hs : s.step tokens stop = some s')
    (h : Returns tokens stop callers depth s' r) : Returns tokens stop callers depth s r :=
  h.of_reaches (.single hs)

theorem returns_ok {p : Parsed Tree ts} (hdrop : tokens.drop position = p.rest)
    (hle : position ≤ tokens.length) :
    Returns tokens stop callers depth ⟨.leave (.ok p.value), callers, position, depth⟩ (.ok p) :=
  .ok hdrop hle .refl

theorem returns_error {e : ParseError} :
    Returns tokens stop callers depth
      ⟨.leave (.error e), callers, position, depth'⟩
      (.error e : Except ParseError (Parsed Tree ts)) :=
  .error .refl

/-- An error passes every caller. -/
theorem returns_abandoned {e : ParseError}
    (hr : Reaches tokens stop s ⟨.leave (.error e), c :: callers, position, depth'⟩) :
    Returns tokens stop callers depth s (.error e : Except ParseError (Parsed Tree ts)) := by
  cases c <;> exact .error (hr.tail rfl)

theorem Returns.abandon {e : ParseError}
    (h : Returns tokens stop (c :: callers) depth' s
      (.error e : Except ParseError (Parsed Tree us))) :
    Returns tokens stop callers depth s (.error e : Except ParseError (Parsed Tree ts)) := by
  cases h with
  | error hr => exact returns_abandoned hr

/-- What a caller makes of the value that it waits for. -/
theorem Returns.bind {g : Parsed Tree us → Except ParseError (Parsed Tree ts)}
    (h : Returns tokens stop (c :: callers) depth' s r')
    (hg : ∀ {p position}, tokens.drop position = p.rest → position ≤ tokens.length →
      Returns tokens stop callers depth
        ⟨.leave (.ok p.value), c :: callers, position, depth'⟩ (g p)) :
    Returns tokens stop callers depth s (r' >>= g) := by
  cases h with
  | ok hdrop hle hr => exact (hg hdrop hle).of_reaches hr
  | error hr => exact returns_abandoned hr

theorem Returns.map {g : Parsed Tree us → Parsed Tree ts}
    (h : Returns tokens stop (c :: callers) depth' s r')
    (hg : ∀ {p position}, tokens.drop position = p.rest → position ≤ tokens.length →
      Returns tokens stop callers depth ⟨.leave (.ok p.value), c :: callers, position, depth'⟩
        (.ok (g p))) :
    Returns tokens stop callers depth s (r'.map g) := by
  have hbind := h.bind (g := fun p => .ok (g p)) hg
  cases r' <;> exact hbind

/-- A caller that has nothing to add. -/
theorem Returns.hand_on (h : Returns tokens stop (c :: callers) depth' s r)
    (hc : ∀ a p, State.step tokens stop ⟨.leave (.ok a), c :: callers, p, depth'⟩ =
      some ⟨.leave (.ok a), callers, p, depth⟩) : Returns tokens stop callers depth s r := by
  cases h with
  | ok hdrop hle hr => exact .ok hdrop hle (hr.tail (hc _ _))
  | error hr => exact returns_abandoned hr

theorem Returns.widen (h : Returns tokens stop callers depth s r') (hle : us.length ≤ ts.length) :
    Returns tokens stop callers depth s
      (r'.map (·.widen hle) : Except ParseError (Parsed Tree ts)) := by
  cases h with
  | ok hdrop hle hr => exact .ok hdrop hle hr
  | error hr => exact .error hr

end Returns

/-! ### Positions -/

theorem getElem?_of_drop (h : tokens.drop position = ts) : tokens[position]? = ts.head? := by
  rw [← h, List.head?_drop]

theorem drop_succ (h : tokens.drop position = t :: ts) : tokens.drop (position + 1) = ts := by
  rw [← List.drop_drop, h]
  rfl

theorem succ_le_of_drop (h : tokens.drop position = t :: ts) : position + 1 ≤ tokens.length := by
  have hlength := congrArg List.length h
  rw [List.length_drop, List.length_cons] at hlength
  omega

/-! ### Parsers and their routines -/

/-- The parser of a routine at a depth; a text is read by that of a sum at depth zero. -/
def Routine.parser (stop depth : Nat) (r : Routine) : Parser Tree :=
  let nested := Expression.unary stop (maxNesting - depth)
  match r with
  | .chain .sum => Expression.sum nested
  | .chain .term => Expression.term nested
  | .unary => nested
  | .signed => Expression.signed nested stop
  | .power => Expression.power nested stop
  | .primary => Expression.primary nested stop
  | .call name start => Expression.call nested stop name start

/-- A routine that is called at a depth returns with what the parser reads. -/
def Carries (tokens : List Lexeme) (stop depth : Nat) (r : Routine) (parse : Parser Tree) : Prop :=
  ∀ callers {position ts}, tokens.drop position = ts →
    Returns tokens stop callers depth ⟨.enter r, callers, position, depth⟩ (parse ts)

variable {nested operand : Parser Tree}

section Chain

variable {tier : Tier} {before : Option (Tree × Operator)} {a : Tree}

/-- Without an operator behind it an operand is the last one of its chain. -/
theorem step_chain_last (hdrop : tokens.drop position = ts)
    (hlast : ∀ t ∈ ts.head?, tier.operator? t.token = none) :
    State.step tokens stop ⟨.leave (.ok a), .chain tier before :: callers, position, depth⟩ =
      some ⟨.leave (.ok (join before a)), callers, position, depth⟩ := by
  have hnext := getElem?_of_drop hdrop
  cases ts with
  | nil => simp [State.step, State.resume, State.ahead, hnext, State.leave]
  | cons t ts =>
    have ho := hlast t rfl
    simp [State.step, State.resume, State.ahead, hnext, ho, State.leave]

/-- An operator behind an operand asks for another one. -/
theorem step_chain_operator {op : Operator} (hdrop : tokens.drop position = t :: ts)
    (ho : tier.operator? t.token = some op) :
    State.step tokens stop ⟨.leave (.ok a), .chain tier before :: callers, position, depth⟩ =
      some ⟨.enter tier.operand, .chain tier (some (join before a, op)) :: callers,
        position + 1, depth⟩ := by
  have hnext := getElem?_of_drop hdrop
  simp [State.step, State.resume, State.ahead, hnext, ho, State.take, State.call]

theorem returns_chain (h : Carries tokens stop depth tier.operand operand) (left : Parsed Tree ts)
    (hjoin : join before a = left.value) (hdrop : tokens.drop position = left.rest)
    (hle : position ≤ tokens.length) :
    Returns tokens stop callers depth ⟨.leave (.ok a), .chain tier before :: callers,
      position, depth⟩
      (chain tier.operator? operand left) := by
  induction hn : left.rest.length
    using Nat.strong_induction_on generalizing left before a position with
  | _ n ih =>
    subst hn
    obtain ⟨b, us, hs⟩ := left
    obtain rfl : join before a = b := hjoin
    cases us with
    | nil =>
      rw [chain_nil]
      exact .of_step (step_chain_last hdrop (by simp)) (returns_ok hdrop hle)
    | cons t us =>
      cases ho : tier.operator? t.token with
      | none =>
        rw [chain_stop hs ho]
        exact .of_step (step_chain_last hdrop (by simpa using ho)) (returns_ok hdrop hle)
      | some op =>
        rw [chain_step hs ho]
        refine .of_step (step_chain_operator hdrop ho) ?_
        refine (h _ (drop_succ hdrop)).bind fun {p position} hdrop hle =>
          ih p.rest.length ?_ _ rfl hdrop hle rfl
        exact Nat.lt_trans p.shorter (Nat.lt_succ_self _)

end Chain

theorem Carries.chain (tier : Tier) (h : Carries tokens stop depth tier.operand operand) :
    Carries tokens stop depth (.chain tier) fun ts =>
      operand ts >>= Expression.chain tier.operator? operand := by
  intro callers position ts hdrop
  exact .of_step rfl ((h _ hdrop).bind fun hdrop hle => returns_chain h _ rfl hdrop hle)

theorem Carries.sum (h : Carries tokens stop depth .unary nested) :
    Carries tokens stop depth (.chain .sum) (sum nested) :=
  Carries.chain .sum (Carries.chain .term h)

/-- The call of `f` with the arguments before and these, if it takes as many. -/
def callOf (f : Builtin) (start : Nat) (before : List Tree) (more : Parsed (List Tree) ts) :
    Except ParseError (Parsed Tree ts) :=
  if f.arity.accepts (before ++ more.value).length then
    .ok (more.map fun args => .call f (before ++ args))
  else .error (.arity f (before ++ more.value).length start)

/-- The last argument was taken. -/
theorem returns_callOf {f : Builtin} {start : Nat} {control : Control} (before : List Tree)
    (more : Parsed (List Tree) ts) (hdrop : tokens.drop position = more.rest)
    (hle : position ≤ tokens.length) :
    Returns tokens stop callers depth
      (State.finish ⟨control, callers, position, depth⟩ f start (before ++ more.value))
      (callOf f start before more) := by
  unfold callOf State.finish
  split
  · exact .ok hdrop hle .refl
  · exact returns_error

/-- It does not matter whether an argument is counted with those before or with the others. -/
theorem callOf_cons (f : Builtin) (start : Nat) (before : List Tree) (a : Tree)
    (more : Parsed (List Tree) us) (hle : us.length ≤ ts.length) :
    callOf f start before ((more.map (a :: ·)).widen hle) =
      (callOf f start (before ++ [a]) more).map (·.widen hle) := by
  have happend : before ++ [a] ++ more.value = before ++ a :: more.value := by simp
  simp only [callOf, happend, Parsed.map, Parsed.widen]
  rw [apply_ite (Except.map _)]
  rfl

theorem Carries.arguments {argument : Parser Tree}
    (h : Carries tokens stop depth (.chain .sum) argument) (f : Builtin) (start : Nat)
    (callers : List Caller) (before : List Tree) (hdrop : tokens.drop position = ts) :
    Returns tokens stop callers depth ⟨.enter (.chain .sum), .call f start before :: callers,
      position, depth⟩
      (arguments argument stop ts >>= callOf f start before) := by
  -- An argument and the comma behind it leave fewer lexemes for the others.
  induction hn : ts.length using Nat.strong_induction_on generalizing ts before position with
  | _ n ih =>
    subst hn
    have hargument := h (.call f start before :: callers) hdrop
    rw [arguments.eq_def]
    cases harg : argument ts with
    | error e =>
      rw [harg] at hargument
      exact hargument.abandon
    | ok first =>
      obtain ⟨a, rest, hs⟩ := first
      rw [harg] at hargument
      cases hargument with
      | @ok _ position hdrop hle hr =>
        refine .of_reaches hr (.of_step rfl ?_)
        have hnext : tokens[position]? = rest.head? := getElem?_of_drop hdrop
        match rest with
        | [] =>
          simp only [State.resume, hnext]
          exact returns_error
        | ⟨token, offset, text⟩ :: rest =>
          have hdrop' : tokens.drop (position + 1) = rest := drop_succ hdrop
          cases token with
          | closing =>
            simp only [State.resume, hnext, List.head?_cons]
            exact returns_callOf before ⟨[a], rest, _⟩ hdrop' (succ_le_of_drop hdrop)
          | comma =>
            have hrest : rest.length < ts.length := Nat.lt_of_succ_lt hs
            have hmore := (ih rest.length hrest (before ++ [a]) hdrop' rfl).widen
              (Nat.le_of_lt hrest)
            simp only [State.resume, hnext, List.head?_cons]
            generalize Expression.arguments argument stop rest = more at hmore ⊢
            cases more with
            | error e => exact hmore
            | ok more =>
              change Returns _ _ _ _ _ (callOf f start before ((more.map (a :: ·)).widen _))
              rw [callOf_cons]
              exact hmore
          | _ =>
            simp only [State.resume, hnext]
            exact returns_error

theorem call_of_ofName? {name : String} {f : Builtin} (hf : Builtin.ofName? name = some f)
    (start : Nat) :
    call nested stop name start ts = argumentList (sum nested) stop ts >>= callOf f start [] := by
  unfold call
  rw [hf]
  dsimp only
  cases argumentList (sum nested) stop ts <;> rfl

theorem Carries.call (h : Carries tokens stop depth .unary nested) (name : String) (start : Nat) :
    Carries tokens stop depth (.call name start) (call nested stop name start) := by
  intro callers position ts hdrop
  refine .of_step rfl ?_
  have hnext := getElem?_of_drop hdrop
  simp only [State.start, State.ahead, hnext]
  cases hname : Builtin.ofName? name with
  | none =>
    unfold Expression.call
    rw [hname]
    exact returns_error
  | some f =>
    have harguments := h.sum.arguments f start callers [] hdrop
    rw [call_of_ofName? hname]
    match ts with
    | [] => exact harguments
    | ⟨token, offset, text⟩ :: ts =>
      cases token with
      | closing =>
        exact returns_callOf [] ⟨[], ts, Nat.lt_succ_self _⟩ (drop_succ hdrop)
          (succ_le_of_drop hdrop)
      | _ => exact harguments

theorem returns_closed {inner : Parsed Tree ts} (hdrop : tokens.drop position = inner.rest) :
    Returns tokens stop callers depth ⟨.leave (.ok inner.value), .group :: callers, position, depth⟩
      (closed stop inner) := by
  obtain ⟨a, rest, hs⟩ := inner
  refine .of_step rfl ?_
  have hnext : tokens[position]? = rest.head? := getElem?_of_drop hdrop
  match rest with
  | [] =>
    simp only [State.resume, hnext]
    exact returns_error
  | ⟨token, offset, text⟩ :: rest =>
    simp only [State.resume, hnext, List.head?_cons]
    cases token with
    | closing => exact returns_ok (p := ⟨a, rest, _⟩) (drop_succ hdrop) (succ_le_of_drop hdrop)
    | _ => exact returns_error

/-- A name before an opening parenthesis is that of a function, and any other one that of a
symbol. -/
theorem Carries.name (h : Carries tokens stop depth .unary nested) (t : Lexeme) {name : String}
    (ht : t.token = .identifier name) (hdrop : tokens.drop position = ts)
    (hle : position ≤ tokens.length) :
    Returns tokens stop callers depth
      (State.primary tokens ⟨.enter .primary, callers, position, depth⟩ t)
      (primary nested stop (t :: ts)) := by
  obtain ⟨_, offset, text⟩ := t
  cases ht
  have hnext := getElem?_of_drop hdrop
  have hcall : ∀ {inside}, tokens.drop (position + 1) = inside →
      Returns tokens stop callers depth ⟨.enter (.call name offset), .named :: callers,
        position + 1, depth⟩
        (Expression.call nested stop name offset inside) :=
    fun hdrop => (h.call name offset (.named :: callers) hdrop).hand_on fun _ _ => rfl
  simp only [State.primary, State.ahead, hnext]
  dsimp only [Expression.primary]
  cases Symbol.ofName? name with
  | none =>
    cases ts with
    | nil => exact returns_error
    | cons next inside =>
      obtain ⟨token, offset', text'⟩ := next
      cases token with
      | opening => exact (hcall (drop_succ hdrop)).widen (Nat.le_add_right _ 2)
      | _ => exact returns_error
  | some symbol =>
    cases ts with
    | nil => exact returns_ok (p := ⟨.symbol symbol, [], _⟩) hdrop hle
    | cons next inside =>
      obtain ⟨token, offset', text'⟩ := next
      cases token with
      | opening => exact (hcall (drop_succ hdrop)).widen (Nat.le_add_right _ 2)
      | _ => exact returns_ok (p := ⟨.symbol symbol, _ :: inside, _⟩) hdrop hle

theorem Carries.primary (h : Carries tokens stop depth .unary nested) :
    Carries tokens stop depth .primary (primary nested stop) := by
  intro callers position ts hdrop
  refine .of_step rfl ?_
  have hnext := getElem?_of_drop hdrop
  match ts with
  | [] =>
    simp only [State.start, hnext]
    exact returns_error
  | ⟨token, offset, text⟩ :: ts =>
    have hdrop' := drop_succ hdrop
    have hle := succ_le_of_drop hdrop
    simp only [State.start, hnext, List.head?_cons]
    cases token with
    | number v => exact returns_ok (p := ⟨.literal v, ts, _⟩) hdrop' hle
    | identifier name => exact h.name _ rfl hdrop' hle
    | opening =>
      have hgroup := (h.sum (.group :: callers) hdrop').bind fun hdrop _ => returns_closed hdrop
      exact hgroup.widen (Nat.le_succ _)
    | _ => exact returns_error

theorem returns_raised (h : Carries tokens stop depth .unary nested) {base : Parsed Tree ts}
    (hdrop : tokens.drop position = base.rest) (hle : position ≤ tokens.length) :
    Returns tokens stop callers depth ⟨.leave (.ok base.value), .power none :: callers,
      position, depth⟩
      (raised nested base) := by
  obtain ⟨a, rest, hs⟩ := base
  refine .of_step rfl ?_
  have hnext : tokens[position]? = rest.head? := getElem?_of_drop hdrop
  simp only [State.resume, State.ahead, hnext]
  match rest with
  | [] => exact returns_ok (p := ⟨a, [], hs⟩) hdrop hle
  | ⟨token, offset, text⟩ :: rest =>
    cases token with
    | caret =>
      have hexponent := h (.power (some a) :: callers) (drop_succ hdrop)
      exact hexponent.map fun hdrop hle => .of_step rfl (.ok hdrop hle .refl)
    | _ => exact returns_ok (p := ⟨a, _ :: rest, hs⟩) hdrop hle

theorem Carries.power (h : Carries tokens stop depth .unary nested) :
    Carries tokens stop depth .power (power nested stop) := by
  intro callers position ts hdrop
  exact .of_step rfl ((h.primary _ hdrop).bind fun hdrop hle => returns_raised h hdrop hle)

theorem Carries.signed (h : Carries tokens stop depth .unary nested) :
    Carries tokens stop depth .signed (signed nested stop) := by
  intro callers position ts hdrop
  have hnext := getElem?_of_drop hdrop
  refine .of_step rfl ?_
  simp only [State.start, State.ahead, hnext]
  have hpower : Returns tokens stop callers depth
    ⟨.enter .power, .signed none :: callers, position, depth⟩ _ :=
    (h.power (.signed none :: callers) hdrop).hand_on fun _ _ => rfl
  have hoperand : ∀ (sign : Sign) {t ts}, tokens.drop position = t :: ts →
      Returns tokens stop callers depth
        ⟨.enter .unary, .signed (some sign) :: callers, position + 1, depth⟩
        ((nested ts).map fun p => (p.map (.signed sign)).widen (Nat.le_succ _) :
          Except ParseError (Parsed Tree (t :: ts))) := fun sign t ts hdrop =>
    (h (.signed (some sign) :: callers) (drop_succ hdrop)).map fun hdrop hle =>
      .of_step rfl (.ok hdrop hle .refl)
  match ts with
  | [] => exact hpower
  | ⟨token, offset, text⟩ :: ts =>
    cases token with
    | minus => exact hoperand .minus hdrop
    | plus => exact hoperand .plus hdrop
    | _ => exact hpower

theorem carries_unary {room : Nat} (hroom : depth + room = maxNesting) :
    Carries tokens stop depth .unary (unary stop room) := by
  -- On the levels that are left: the routines inside call a unary with one level less.
  induction room generalizing depth with
  | zero =>
    intro callers position ts hdrop
    have hrefuse : maxNesting < depth + 1 := by omega
    refine .of_step rfl ?_
    simp only [State.start, if_pos hrefuse]
    exact returns_error
  | succ room ih =>
    intro callers position ts hdrop
    have hdescend : ¬ maxNesting < depth + 1 := by omega
    have hnested : Carries tokens stop (depth + 1) .unary (unary stop room) := ih (by omega)
    refine .of_step rfl ?_
    simp only [State.start, if_neg hdescend]
    exact (hnested.signed (.unary :: callers) hdrop).hand_on fun _ _ => rfl

theorem Routine.carries (r : Routine) (hdepth : depth ≤ maxNesting) :
    Carries tokens stop depth r (r.parser stop depth) := by
  have hnested : Carries tokens stop depth .unary (Expression.unary stop (maxNesting - depth)) :=
    carries_unary (by omega)
  cases r with
  | chain tier =>
    cases tier with
    | sum => exact hnested.sum
    | term => exact Carries.chain .term hnested
  | unary => exact hnested
  | signed => exact hnested.signed
  | power => exact hnested.power
  | primary => exact hnested.primary
  | call name start => exact hnested.call name start

/-! ### Ends of runs -/

/-- A run has one end, and every state of it leads there. -/
theorem Reaches.of_reaches {last : State} (h : Reaches tokens stop s last)
    (hlast : last.step tokens stop = none) (h' : Reaches tokens stop s s') :
    Reaches tokens stop s' last := by
  have hunique : Relator.RightUnique fun s s' => State.step tokens stop s = some s' :=
    fun _ _ _ hb hc => Option.some.inj (hb.symm.trans hc)
  rcases Relation.ReflTransGen.total_of_right_unique hunique h' h with hforth | hback
  · exact hforth
  · rcases hback.cases_head with rfl | ⟨next, hstep, -⟩
    · exact .refl
    · rw [hlast] at hstep
      cases hstep

/-- The run of a routine that is called within the levels ends, whatever the lexemes and the
position are, with what its parser reads. On success it ends behind the position, not behind the
last lexeme, and with the same count of levels. At any time the count is that of the unaries which
have a level, of which there are never more than 64, and fewer than 455 calls wait for the one that
runs. -/
theorem descent_within_levels (tokens : List Lexeme) (stop position : Nat) (r : Routine)
    {depth : Nat} (hdepth : depth ≤ maxNesting) :
    let start : State := ⟨.enter r, [], position, depth⟩
    ∃ last, Reaches tokens stop start last ∧ last.step tokens stop = none ∧
      (∀ p, r.parser stop depth (tokens.drop position) = .ok p →
        last.control = .leave (.ok p.value) ∧ tokens.drop last.position = p.rest ∧
          position < last.position ∧ last.position ≤ tokens.length ∧ last.depth = depth) ∧
      (∀ e, r.parser stop depth (tokens.drop position) = .error e →
        last.control = .leave (.error e)) ∧
      ∀ s, Reaches tokens stop start s → Reaches tokens stop s last ∧
        s.depth = depth + unaries s.callers + s.control.excess ∧ depth + unaries s.callers ≤ 64 ∧
        s.callers.length < 455 := by
  intro start
  have hrun : ∀ last, Reaches tokens stop start last → last.step tokens stop = none →
      ∀ s, Reaches tokens stop start s → Reaches tokens stop s last ∧
        s.depth = depth + unaries s.callers + s.control.excess ∧ depth + unaries s.callers ≤ 64 ∧
        s.callers.length < 455 := by
    intro last hlast hend s hs
    have hbounded := (Bounded.enter r position hdepth).reaches hs
    exact ⟨hlast.of_reaches hend hs, hbounded.depth_eq, hbounded.le_maxNesting,
      hbounded.length_callers_lt⟩
  have hreturns : Returns tokens stop [] depth start (r.parser stop depth (tokens.drop position)) :=
    r.carries hdepth [] rfl
  generalize r.parser stop depth (tokens.drop position) = result at hreturns ⊢
  cases hreturns with
  | error hr =>
    refine ⟨_, hr, rfl, nofun, ?_, hrun _ hr rfl⟩
    rintro _ ⟨⟩
    rfl
  | @ok p position' hdrop hle hr =>
    refine ⟨_, hr, rfl, ?_, nofun, hrun _ hr rfl⟩
    rintro _ ⟨⟩
    have hshorter := p.shorter
    rw [← hdrop, List.length_drop, List.length_drop] at hshorter
    have hlt : position < position' := by omega
    exact ⟨rfl, hdrop, hlt, hle, rfl⟩

/-- A sign, its power and the exponent take the last three levels; where there are two, the exponent
is refused. -/
theorem descent_at_last_levels :
    let tokens : List Lexeme :=
      [⟨.minus, 0, ['-']⟩, ⟨.identifier "x", 1, ['x']⟩, ⟨.caret, 2, ['^']⟩,
        ⟨.identifier "y", 3, ['y']⟩]
    let root : Tree := .signed .minus (.binary .pow (.symbol .x) (.symbol .y))
    61 ≤ maxNesting ∧ 62 ≤ maxNesting ∧
      (∃ last, Reaches tokens 4 ⟨.enter .unary, [], 0, 61⟩ last ∧ last.control = .leave (.ok root) ∧
        last.position = 4 ∧ last.depth = 61) ∧
      ∃ last, Reaches tokens 4 ⟨.enter .unary, [], 0, 62⟩ last ∧
        last.control = .leave (.error .tooDeep) := by
  intro tokens root
  have hdepth : 61 ≤ maxNesting := by decide
  have hdepth' : 62 ≤ maxNesting := by decide
  have hshorter : ([] : List Lexeme).length < tokens.length := by decide
  obtain ⟨last, hreaches, -, hok, -⟩ := descent_within_levels tokens 4 0 .unary hdepth
  obtain ⟨last', hreaches', -, -, herror, -⟩ := descent_within_levels tokens 4 0 .unary hdepth'
  obtain ⟨hcontrol, hrest, -, hle, hback⟩ := hok ⟨root, [], hshorter⟩ rfl
  have hlast : last.position = 4 := Nat.le_antisymm hle (List.drop_eq_nil_iff.mp hrest)
  exact ⟨hdepth, hdepth', ⟨last, hreaches, hcontrol, hlast, hback⟩, last', hreaches', herror _ rfl⟩

end InitialValue.Expression.Descent
