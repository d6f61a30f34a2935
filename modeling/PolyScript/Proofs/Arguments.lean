import PolyScript.Proofs.ExpressionsReadBack
import PolyScript.Settings.Basic

/-!
# Arguments That Stand Alone

An argument of a call that is one literal or one name, with a comma, a closing parenthesis or
a line end behind it, is taken without asking the parser of expressions. That parser comes to
the same, because none of these tokens continues an expression: there is no suffix, no
operator and no question mark to be found, and the name is not called.

Any other argument is an expression, but to find out that it is another one, the token behind
the current one was looked at. So the parser of expressions is run from a state that has read
further. That makes no difference, since an expression that takes its first token looks at the
next one before it does anything else. One that fails at its first token leaves the further
reading as the only trace.

What was read before plays no part in this, so it holds of all states, whatever their buffers
have in them.

## Main definitions

* `Parse.State.primed`: The state once the token behind the current one was looked at.
* `Parse.Concurs`: The same value in the same state, or the same error.
* `Parse.LooksFirst`: Looks at the current token before anything else.
* `Parse.Foreknows`: Comes to the same if the next token was looked at beforehand.

## Theorems

* `Parse.foreknows_expression`: Expressions do not depend on what was looked at.
* `Parse.expression_run_of_alone`: An operand that a separator follows is the whole expression.
* `Parse.argument_run_at_limit`: Where the guard admits no level, they differ.
* `Parse.arguments_are_expressions`: Where it admits one, an argument is parsed as an
  expression is.
-/

namespace PolyScript

namespace TokenBuffer

variable {b : TokenBuffer} {i j : Nat}

/-- A buffer that is filled for an index is filled for those before it. -/
theorem fill_fill_of_ge (h : i ≤ j) : (b.fill j).fill i = b.fill j := by
  rcases fill_ready b j with hfinished | hsize
  · exact readMore_finished hfinished _
  · rw [fill, show i + 1 - (b.fill j).tokens.size = 0 by omega]
    rfl

/-- A buffer may be filled for an index in two stages. -/
theorem fill_fill_of_le (h : i ≤ j) : (b.fill i).fill j = b.fill j := by
  have hstages : b.fill j =
      (b.fill i).readMore (j + 1 - b.tokens.size - (i + 1 - b.tokens.size)) := by
    rw [fill, fill, ← readMore_add]
    congr 1
    omega
  rw [hstages, fill]
  rcases readMore_ready (i + 1 - b.tokens.size) b with hfinished | hsize
  · rw [fill, readMore_finished hfinished, readMore_finished hfinished]
  · congr 1
    rw [fill, hsize]
    omega

end TokenBuffer

namespace Parse

/-! ### The token behind the current one -/

namespace State

variable {s : State}

/-- The state once the token behind the current one was looked at. -/
def primed (s : State) : State := { s with buffer := s.buffer.fill (s.cursor + 1) }

theorem reads_primed (s : State) : s.Reads s.primed := ⟨_, rfl⟩

@[simp] theorem token_primed (s : State) : s.primed.token = s.token := s.reads_primed.token_eq

@[simp] theorem filled_primed (s : State) : s.primed.filled = s.primed :=
  congrArg (fun buffer => { s with buffer }) (TokenBuffer.fill_fill_of_ge (Nat.le_succ s.cursor))

@[simp] theorem primed_filled (s : State) : s.filled.primed = s.primed :=
  congrArg (fun buffer => { s with buffer }) (TokenBuffer.fill_fill_of_le (Nat.le_succ s.cursor))

@[simp] theorem primed_primed (s : State) : s.primed.primed = s.primed :=
  congrArg (fun buffer => { s with buffer }) (TokenBuffer.fill_fill s.buffer (s.cursor + 1))

/-- To take a token behind which one was looked at is to take it and look on. -/
theorem advanced_primed (h : s.token.isEnd = false) : s.primed.advanced = s.advanced.filled := by
  -- The token that was looked at is the one that is current afterwards.
  have hboth : s.primed.filled.buffer = s.advanced.filled.buffer := by
    rw [filled_primed, filled, cursor_advanced h]
    exact (TokenBuffer.fill_fill_of_le (Nat.le_succ s.cursor)).symm
  simp only [advanced, token_primed, h, Bool.false_eq_true, if_false] at hboth ⊢
  rw [hboth]
  rfl

theorem token_advanced (h : s.token.isEnd = false) :
    s.advanced.token = s.buffer.tokenAt (s.cursor + 1) := by
  rw [token, tokenAt_advanced, cursor_advanced h]

/-- The state inside of a level that is entered. -/
def entered (s : State) : State := s.filled.atDepth (s.depth + 1)

@[simp] theorem token_entered (s : State) : s.entered.token = s.token := s.token_filled

@[simp] theorem filled_entered (s : State) : s.entered.filled = s.entered :=
  congrArg (State.atDepth · (s.depth + 1)) s.filled_filled

/-- Taking a token inside of a level is taking it and entering the level. -/
theorem advanced_entered (h : s.token.isEnd = false) :
    s.entered.advanced.filled = s.primed.advanced.atDepth (s.depth + 1) := by
  rw [advanced_primed h, ← s.advanced_filled]
  rfl

end State

variable {α β : Type} {env : Env} {s t : State}

/-- Two runs with the same value in the same state, or with the same error after which the
    second may have read further. -/
inductive Concurs : EStateM.Result ParseError State α → EStateM.Result ParseError State α → Prop
  | ok (a : α) (s : State) : Concurs (.ok a s) (.ok a s)
  | error (e : ParseError) {s t : State} : s.Reads t → Concurs (.error e s) (.error e t)

theorem Concurs.refl : (r : EStateM.Result ParseError State α) → Concurs r r
  | .ok a s => .ok a s
  | .error e s => .error e (.refl s)

/-! ### Looking at the current token -/

/-- A parser that looks at the current token before it does anything else. -/
def LooksFirst (env : Env) (p : Parse α) : Prop := ∀ s, p env s.filled = p env s

namespace LooksFirst

theorem current : LooksFirst env Parse.current := by
  intro s
  rw [current_run, current_run, State.token_filled, State.filled_filled]

theorem bind {p : Parse α} (h : LooksFirst env p) (f : α → Parse β) :
    LooksFirst env (p >>= f) := by
  intro s
  rw [bind_run, bind_run, h]

theorem peekKind : LooksFirst env (Parse.peekKind 0) := current.bind _

theorem check (kind : Kind) : LooksFirst env (Parse.check kind) := peekKind.bind _

theorem nested (p : Parse α) : LooksFirst env (Parse.nested p) := current.bind _

/-- A loop does first what its first round does. -/
theorem loop {step : α → Parse (α ⊕ β)} {start : α} (h : LooksFirst env (step start)) :
    LooksFirst env (Parse.loop start step) := by
  intro s
  rw [loop_run, loop_run, iterate_succ_run, iterate_succ_run, h]

theorem skipNewlines : LooksFirst env Parse.skipNewlines := loop ((check _).bind _)

theorem commaList {closer : Kind} {start : α} {item : α → Parse α} :
    LooksFirst env (Parse.commaList closer start item) := skipNewlines.bind _

end LooksFirst

theorem looksFirst_suffixes (g : Grammar) (e : Expr) : LooksFirst env (suffixes g e) :=
  .loop (LooksFirst.peekKind.bind _)

/-! ### Looking at the next token -/

theorem isEnd_of_isLiteral {t : Token} (h : t.kind.isLiteral = true) : t.isEnd = false := by
  refine isEnd_of_kind rfl fun hkind => ?_
  rw [hkind] at h
  cases h

/-- From this state, a parser comes to the same if the token behind the current one was looked
    at beforehand. -/
def Foreknows (env : Env) (s : State) (p : Parse α) : Prop :=
  Concurs (p env s) (p env s.primed)

namespace Foreknows

/-- What comes behind is run from one state if it is run at all. -/
theorem bind {p : Parse α} (h : Foreknows env s p) (f : α → Parse β) :
    Foreknows env s (p >>= f) := by
  unfold Foreknows at h ⊢
  rw [bind_run, bind_run]
  generalize p env s = r at h ⊢
  generalize p env s.primed = r' at h ⊢
  cases h with
  | ok a t => exact .refl (f a env t)
  | error e hreads => exact .error e hreads

theorem throw (e : ParseError) : Foreknows env s (MonadExcept.throw e : Parse α) :=
  .error e s.reads_primed

theorem current {f : Token → Parse α} (h : Foreknows env s.filled (f s.token)) :
    Foreknows env s (Parse.current >>= f) := by
  unfold Foreknows at h ⊢
  rw [bind_run, bind_run, current_run, current_run, State.token_primed, State.filled_primed]
  rwa [State.primed_filled] at h

theorem peekKind {f : Kind → Parse α} (h : Foreknows env s.filled (f s.token.kind)) :
    Foreknows env s (Parse.peekKind 0 >>= f) := current (f := fun t => f t.kind) h

/-- What is known of the languages is no matter of the state. -/
theorem languages {f : LanguageTable → Parse α} (h : Foreknows env s (f env.languages)) :
    Foreknows env s (Parse.languages >>= f) := h

/-- A parser that looks at the next token itself. -/
theorem peekNext (f : Kind → Parse α) : Foreknows env s (Parse.peekKind 1 >>= f) := by
  have hsame : (Parse.peekKind 1 >>= f) env s.primed = (Parse.peekKind 1 >>= f) env s := by
    rw [bind_run, bind_run, peekKind_run, peekKind_run]
    change f (s.primed.buffer.tokenAt (s.cursor + 1)).kind env s.primed.primed = _
    rw [State.primed_primed, State.primed, TokenBuffer.tokenAt_fill]
  rw [Foreknows, hsame]
  exact .refl _

/-- Taking a token makes the next one the current one, which is looked at first. -/
theorem consume {f : Token → Parse α} (hend : s.token.isEnd = false)
    (hf : ∀ t, LooksFirst env (f t)) : Foreknows env s (Parse.consume >>= f) := by
  have hsame : (Parse.consume >>= f) env s.primed = (Parse.consume >>= f) env s := by
    rw [bind_run, bind_run, consume_run, consume_run, State.token_primed,
      State.advanced_primed hend]
    exact hf s.token s.advanced
  rw [Foreknows, hsame]
  exact .refl _

theorem expect {kind : Kind} {f : Token → Parse α} (hkind : s.token.kind = kind)
    (hend : kind ≠ .endOfInput) (hf : ∀ t, LooksFirst env (f t)) :
    Foreknows env s (Parse.expect kind >>= f) := by
  have htake : ∀ u : State, u.token.kind = kind →
      (Parse.expect kind >>= f) env u = (Parse.consume >>= f) env u := by
    intro u hu
    rw [bind_run, bind_run, expect_run, if_pos hu, consume_run, State.token_filled,
      State.advanced_filled]
  -- A token that is expected and there is taken.
  have htaken : Foreknows env s (Parse.consume >>= f) := consume (isEnd_of_kind hkind hend) hf
  rw [Foreknows, htake s hkind, htake s.primed (by rw [State.token_primed]; exact hkind)]
  exact htaken

theorem literal {f : Expr → Parse α} (hend : s.token.isEnd = false)
    (hf : ∀ e, LooksFirst env (f e)) : Foreknows env s (Parse.literal >>= f) := by
  rw [Foreknows, bind_run, bind_run, literal_run, literal_run, State.token_primed]
  cases literalOf env.source s.token with
  | ok e =>
      rw [State.advanced_primed hend]
      simp only
      rw [hf e s.advanced]
      exact .refl _
  | error e =>
      simp only
      rw [State.filled_primed, ← s.primed_filled]
      exact .error e s.filled.reads_primed

/-- A level is entered at the current token, and left by what runs inside. -/
theorem nested {p : Parse α} (h : ∀ depth, Foreknows env (s.filled.atDepth depth) p) :
    Foreknows env s (Parse.nested p) := by
  have hdepth : s.primed.depth = s.depth := rfl
  rw [Foreknows, nested_run, nested_run, State.token_primed, State.filled_primed, hdepth]
  cases env.guard.enter s.depth s.token.position with
  | error e =>
      simp only
      rw [← s.primed_filled]
      exact .error e s.filled.reads_primed
  | ok depth =>
      have hinner := h depth
      have hprimed : (s.filled.atDepth depth).primed = s.primed.atDepth depth := by
        rw [← s.primed_filled]
        rfl
      rw [Foreknows, hprimed] at hinner
      simp only
      generalize p env (s.filled.atDepth depth) = r at hinner ⊢
      generalize p env (s.primed.atDepth depth) = r' at hinner ⊢
      cases hinner with
      | ok a t => exact .ok a _
      | error e hreads =>
          rcases hreads with ⟨n, rfl⟩
          exact .error e ⟨n, rfl⟩

end Foreknows

theorem foreknows_reference (g : Grammar) : Foreknows env s (reference g) := by
  refine .current ?_
  exact .languages (.peekNext _)

/-- A literal is an operand as it stands. -/
theorem primary_run_literal {g : Grammar} (h : s.token.kind.isLiteral = true) :
    primary g env s = literal env s := by
  have hfilled : literal env s.filled = literal env s := by
    rw [literal_run, literal_run, State.token_filled, State.advanced_filled, State.filled_filled]
  unfold primary
  rw [bind_run, current_run]
  cases hkind : s.token.kind
  case number | string | kwTrue | kwFalse | kwNil => simp only [hkind, hfilled]
  all_goals
    rw [hkind] at h
    cases h

/-- A literal alone is different: it takes its token, and nothing is looked at behind it. -/
theorem foreknows_primary {g : Grammar} (h : s.token.kind.isLiteral = false) :
    Foreknows env s (primary g) := by
  have hfilled : s.filled.token.kind = s.token.kind := congrArg Token.kind s.token_filled
  refine .current ?_
  split <;> rename_i hkind
  -- The literals are ruled out; every other rule looks at the next token, or fails at this one.
  case h_1 | h_2 | h_3 | h_4 | h_5 =>
    rw [hkind] at h
    cases h
  · exact foreknows_reference g
  · exact foreknows_reference g
  · exact .expect (hfilled.trans hkind) (by decide) fun _ => LooksFirst.skipNewlines.bind _
  · exact .expect (hfilled.trans hkind) (by decide) fun _ => LooksFirst.commaList.bind _
  · exact .expect (hfilled.trans hkind) (by decide) fun _ => LooksFirst.commaList.bind _
  · exact .bind (.expect (hfilled.trans hkind) (by decide) fun _ => .nested _) _
  · exact .throw _

/-- An operand without prefix operators, together with its suffixes. -/
theorem foreknows_suffixed (g : Grammar) : Foreknows env s (primary g >>= suffixes g) := by
  cases hliteral : s.token.kind.isLiteral with
  | false => exact (foreknows_primary hliteral).bind _
  | true =>
      have hrun : ∀ u : State, u.token = s.token →
          (primary g >>= suffixes g) env u = (literal >>= suffixes g) env u := by
        intro u hu
        rw [bind_run, bind_run, primary_run_literal (by rw [hu]; exact hliteral)]
      rw [Foreknows, hrun s rfl, hrun s.primed s.token_primed]
      exact Foreknows.literal (isEnd_of_isLiteral hliteral) (looksFirst_suffixes g)

theorem foreknows_operand (g : Grammar) : Foreknows env s (operand g) := by
  refine .peekKind ?_
  split
  · rename_i op hop
    refine .consume ?_ fun _ => (LooksFirst.nested _).bind _
    rw [State.token_filled]
    exact isEnd_of_kind rfl fun hkind => by rw [hkind] at hop; cases hop
  · exact foreknows_suffixed g

/-- An expression comes to the same if the token behind its first one was looked at before. -/
theorem foreknows_expression (g : Grammar) : Foreknows env s (expression g) :=
  .nested fun _ => ((foreknows_operand g).bind _).bind _

/-! ### Behind an argument -/

theorem endsArgument_cases {kind : Kind} (h : endsArgument kind = true) :
    kind = .comma ∨ kind = .rightParen ∨ kind = .newline := by
  simpa [endsArgument, or_assoc] using h

/-- A loop whose first round is over when it has seen the current token. -/
theorem loop_run_of_seen {start : α} {f : α → Kind → Parse (α ⊕ β)} {b : β}
    (h : f start s.token.kind = pure (.inr b)) :
    loop start (fun a => peekKind 0 >>= f a) env s = .ok b s.filled := by
  have hfirst : peekKind 0 env s = .ok s.token.kind s.filled := rfl
  rw [loop_run, iterate_succ_run, bind_run, hfirst]
  simp only
  rw [h]
  rfl

theorem suffixes_run_of_ends (h : endsArgument s.token.kind = true) (g : Grammar) (e : Expr) :
    suffixes g e env s = .ok e s.filled := by
  refine loop_run_of_seen ?_
  rcases endsArgument_cases h with h | h | h <;> rw [h]

theorem conditionalTail_run_of_ends (h : endsArgument s.token.kind = true) (g : Grammar)
    (e : Expr) : conditionalTail g e env s = .ok e s.filled := by
  have hquestion : s.token.kind ≠ .question := by
    rcases endsArgument_cases h with h | h | h <;> rw [h] <;> decide
  unfold conditionalTail
  rw [bind_run, check_run]
  simp only [hquestion, decide_false, Bool.false_eq_true, if_false]
  rfl

/-- Below the limit of the guard, a level is entered. -/
theorem nested_run_of_below (hguard : env.guard.enabled = true → s.depth < env.guard.maxDepth)
    (p : Parse α) : nested p env s =
      match p env s.entered with
      | .ok a t => .ok a (t.atDepth (Guard.exit t.depth))
      | .error e t => .error e (t.atDepth (Guard.exit t.depth)) := by
  rw [nested_run, enter_of_below hguard]
  rfl

section Bare

variable {g : Grammar} {t : State} (hbare : UnaryOp.ofKind? s.token.kind = none)

include hbare

/-- An operand without prefix operators, right inside of a level. -/
theorem operand_run_of_bare :
    operand g env s.entered = (primary g >>= suffixes g) env s.entered := by
  have hkind : peekKind 0 env s.entered = .ok s.token.kind s.entered := by
    rw [peekKind_run]
    change EStateM.Result.ok s.entered.token.kind s.entered.filled = _
    rw [State.token_entered, State.filled_entered]
  unfold operand
  rw [bind_run, hkind]
  simp only [hbare]

variable (hguard : env.guard.enabled = true → s.depth < env.guard.maxDepth)

include hguard

/-- If the operand is one token that a separator follows, it is the whole expression. -/
theorem expression_run_of_alone {e : Expr} (hend : s.token.isEnd = false)
    (hends : endsArgument (s.buffer.tokenAt (s.cursor + 1)).kind = true)
    (hprimary : primary g env s.entered = .ok e t)
    (ht : t.filled = s.primed.advanced.atDepth (s.depth + 1)) :
    expression g env s = .ok e s.primed.advanced := by
  have htoken : t.token = s.buffer.tokenAt (s.cursor + 1) := by
    rw [← State.token_filled, ht, ← State.token_advanced hend, State.advanced_primed hend]
    exact State.token_filled _
  -- Suffixes, operators and a tail are looked for one after the other, and each time it is the
  -- separator that is seen and left.
  have hfirst : endsArgument t.token.kind = true := by rwa [htoken]
  have hthen : endsArgument t.filled.token.kind = true := by rwa [State.token_filled]
  have hoperand : operand g env s.entered = .ok e t.filled := by
    rw [operand_run_of_bare hbare, bind_run, hprimary]
    exact suffixes_run_of_ends hfirst g e
  have hoperation : operation g env s.entered = .ok e t.filled := by
    rw [operation, binary, bind_run, hoperand]
    refine (loop_run_of_seen ?_).trans (congrArg _ t.filled_filled)
    rcases endsArgument_cases hthen with h | h | h <;> rw [h] <;> rfl
  rw [expression, nested_run_of_below hguard, bind_run, hoperation]
  simp only
  rw [conditionalTail_run_of_ends hthen, State.filled_filled, ht]
  rfl

/-- If the operand fails then the expression does. -/
theorem expression_run_of_failed {e : ParseError}
    (hprimary : primary g env s.entered = .error e t) :
    expression g env s = .error e (t.atDepth (Guard.exit t.depth)) := by
  have hoperand : operand g env s.entered = .error e t := by
    rw [operand_run_of_bare hbare, bind_run, hprimary]
  rw [expression, nested_run_of_below hguard, bind_run, operation, binary, bind_run, hoperand]

end Bare

/-- A name that no dot and no parenthesis follows. -/
theorem reference_run_of_ends {g : Grammar} (hkind : s.token.kind = .identifier)
    (h : endsArgument (s.buffer.tokenAt (s.cursor + 1)).kind = true) :
    reference g env s = identifier env s.primed := by
  have hnext : peekKind 1 env s.filled =
      .ok (s.buffer.tokenAt (s.cursor + 1)).kind s.primed := by
    rw [peekKind_run]
    change EStateM.Result.ok (s.filled.buffer.tokenAt (s.cursor + 1)).kind s.filled.primed = _
    rw [State.primed_filled, State.filled, TokenBuffer.tokenAt_fill]
  have hlanguages : languages env s.filled = .ok env.languages s.filled := rfl
  unfold reference
  simp only [bind_run, current_run, hlanguages, hnext]
  rcases endsArgument_cases h with h | h | h <;> simp [hkind, h]

/-- What an argument does depends on the first two tokens. -/
theorem argument_run (g : Grammar) (env : Env) (s : State) :
    argument g env s =
      (if endsArgument (s.buffer.tokenAt (s.cursor + 1)).kind && s.token.kind.isLiteral then literal
      else if endsArgument (s.buffer.tokenAt (s.cursor + 1)).kind && s.token.kind = .identifier
        then identifier
      else g.expression) env s.primed := by
  have hnext : peekKind 1 env s = .ok (s.buffer.tokenAt (s.cursor + 1)).kind s.primed := rfl
  have hkind : peekKind 0 env s.primed = .ok s.token.kind s.primed := by
    rw [peekKind_run]
    change EStateM.Result.ok s.primed.token.kind s.primed.filled = _
    rw [State.token_primed, State.filled_primed]
  unfold argument
  rw [bind_run, hnext]
  simp only
  rw [bind_run, hkind]
  rfl

theorem identifier_run (env : Env) (s : State) :
    identifier env s = .ok (.identifier s.token.text s.token.position) s.advanced := by
  rw [identifier, bind_run, consume_run]
  rfl

section Alone

variable {g : Grammar} (hguard : env.guard.enabled = true → s.depth < env.guard.maxDepth)
  (hends : endsArgument (s.buffer.tokenAt (s.cursor + 1)).kind = true)

include hguard hends

/-- A literal that stands alone. -/
theorem concurs_literal (h : s.token.kind.isLiteral = true) :
    Concurs (expression g env s) (literal env s.primed) := by
  have hbare : UnaryOp.ofKind? s.token.kind = none := by
    revert h
    cases s.token.kind <;> decide
  have hend : s.token.isEnd = false := isEnd_of_isLiteral h
  have hprimary : primary g env s.entered = literal env s.entered :=
    primary_run_literal (by rwa [State.token_entered])
  rw [literal_run, State.token_entered] at hprimary
  rw [literal_run, State.token_primed]
  cases hvalue : literalOf env.source s.token with
  | ok e =>
      rw [hvalue] at hprimary
      rw [expression_run_of_alone hbare hguard hend hends hprimary (State.advanced_entered hend)]
      exact .refl _
  | error e =>
      rw [hvalue] at hprimary
      -- The argument has looked at the separator before it failed, the expression has not.
      rw [expression_run_of_failed hbare hguard hprimary, State.filled_primed,
        ← State.primed_filled, State.filled_entered]
      exact .error e s.filled.reads_primed

/-- A name that stands alone. -/
theorem concurs_identifier (h : s.token.kind = .identifier) :
    Concurs (expression g env s) (identifier env s.primed) := by
  have hend : s.token.isEnd = false := isEnd_of_kind h (by decide)
  have hkind : s.entered.token.kind = .identifier := by rwa [State.token_entered]
  have hnext : s.entered.buffer.tokenAt (s.cursor + 1) = s.buffer.tokenAt (s.cursor + 1) :=
    TokenBuffer.tokenAt_fill s.buffer (s.cursor + 1) s.cursor
  have hreference : primary g env s.entered = identifier env s.entered.primed := by
    unfold primary
    rw [bind_run, current_run, State.filled_entered]
    simp only [hkind]
    exact reference_run_of_ends hkind (by rw [← hnext] at hends; exact hends)
  rw [identifier_run, State.token_primed, State.token_entered] at hreference
  have hstate : s.entered.primed.advanced.filled = s.primed.advanced.atDepth (s.depth + 1) := by
    rw [State.advanced_primed (isEnd_of_kind hkind (by decide)), State.filled_filled,
      State.advanced_entered hend]
  rw [expression_run_of_alone (by rw [h]; rfl) hguard hend hends hreference hstate,
    identifier_run, State.token_primed]
  exact .refl _

end Alone

/-- At the limit of the guard, a name that stands alone is an argument still, though it is not
    an expression any more: to take it directly is to enter no level. -/
theorem argument_run_at_limit {g : Grammar} (henabled : env.guard.enabled = true)
    (hlimit : env.guard.maxDepth ≤ s.depth) (h : s.token.kind = .identifier)
    (hends : endsArgument (s.buffer.tokenAt (s.cursor + 1)).kind = true) :
    expression g env s = .error (.tooDeep env.guard.maxDepth s.token.position) s.filled ∧
      argument g env s =
        .ok (.identifier s.token.text s.token.position) s.primed.advanced := by
  constructor
  · have hrefused : env.guard.enter s.depth s.token.position =
        .error (.tooDeep env.guard.maxDepth s.token.position) := by
      rw [Guard.enter, if_pos]
      rw [henabled, Bool.true_and]
      exact decide_eq_true hlimit
    rw [expression, nested_run, hrefused]
  · have hliteral : Kind.identifier.isLiteral = false := rfl
    rw [argument_run]
    simp only [hends, h, hliteral, Bool.and_false, Bool.false_eq_true, if_false, decide_true,
      Bool.and_self, if_true]
    rw [identifier_run, State.token_primed]

/-- An argument is read as an expression is. The short cut for single literals and names gives
    what the long way does, since it looks at the token behind first. -/
theorem concurs_argument {g g' : Grammar} (hg : g.expression = expression g')
    (hguard : env.guard.enabled = true → s.depth < env.guard.maxDepth) :
    Concurs (g.expression env s) (argument g env s) := by
  rw [argument_run, hg]
  -- One token that stands alone is all of the expression, and else an expression is parsed.
  split
  · rename_i hliteral
    rw [Bool.and_eq_true] at hliteral
    exact concurs_literal hguard hliteral.1 hliteral.2
  · split
    · rename_i hname
      rw [Bool.and_eq_true, decide_eq_true_eq] at hname
      exact concurs_identifier hguard hname.1 hname.2
    · exact foreknows_expression g'

/-- Under any registry and with any guest languages, from any state in which the guard admits
    one more level, an argument is parsed as an expression is: to the same expression in the
    same state, with the same tokens read ahead, or to the same error. The lowest level of the
    grammar, which no parse of a text gets down to, is left out. -/
theorem arguments_are_expressions (parser : Parser) (source : String) (n : Nat) (s : State)
    (hguard : parser.guard.enabled = true → s.depth < parser.guard.maxDepth) :
    let grammar := Grammar.level parser.registry (n + 1)
    Concurs (grammar.expression (parser.env source) s)
      (argument grammar (parser.env source) s) := by
  intro grammar
  have hguarded : (parser.env source).guard.enabled = true →
      s.depth < (parser.env source).guard.maxDepth := hguard
  exact concurs_argument rfl hguarded

/-- At the last level that the guard admits, with a name that a comma follows. -/
theorem arguments_are_expressions_name :
    let parser : Parser := { Parser.ofSettings Settings.defaults with guard := ⟨1, true⟩ }
    let s := State.initial "a, b"
    let grammar := Grammar.level parser.registry 3
    (parser.guard.enabled = true → s.depth < parser.guard.maxDepth) ∧
      s.token.kind = .identifier ∧ endsArgument (s.buffer.tokenAt 1).kind = true ∧
      Concurs (grammar.expression (parser.env "a, b") s) (argument grammar (parser.env "a, b") s) :=
  ⟨fun _ => by decide, by decide, by decide,
    arguments_are_expressions _ "a, b" 2 _ fun _ => by decide⟩

end Parse

end PolyScript
