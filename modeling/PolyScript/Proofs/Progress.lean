import PolyScript.Proofs.DerivedStatements
import PolyScript.Proofs.Guard

/-!
# Progress

Parsing ends. Every rule that succeeds has taken up some text, also if it had the text read
again in size mode or passed over guest code, so a place in the text is a measure for all
loops and all recursion. Places in the buffer would not do, because the buffer is cut off and
filled again on the way.

In the definitions, loops and levels of the grammar have budgets. Parsing ends for the
reason above, and not because budgets are spent: no budget is ever spent. This shows in the
errors. A spent budget counts as nesting too deep, but without the nesting guard there is no
such error. With the guard on there is one if the guard stops the parse, and then a higher
limit lets it pass; in all other cases the guard makes no difference.

## Main definitions

* `Parse.Progresses`: A parser takes up some text and spends no budget.
* `Parse.Terminates`: The outcomes of a parse without a guard and with any guard.

## Theorems

* `Parse.progresses_of_runs`: Parsers that derive something take up some text.
* `Parse.terminates_of_runs`: Whole texts.
* `parses_progress`: Under any settings all parsers progress, and parses of whole texts
  terminate.
-/

namespace PolyScript

namespace Parse

variable {α : Type} {env : Env} {p : Parse α}

/-- A parser that succeeds ends behind the token with which it began. Unless the guard is on
    it never complains of too much depth, and guards with limits high enough make no
    difference to it. -/
structure Progresses (env : Env) (p : Parse α) : Prop where
  advances : ∀ {s t : State} {a : α}, s.Sound env.source → p env s = .ok a t →
    t.Sound env.source ∧ s.token.position.offset < t.token.position.offset
  ends : env.guard.enabled = false → ∀ {s t : State} {e : ParseError}, s.Sound env.source →
    p env s = .error e t → ¬e.IsTooDeep
  lenient : env.guard.enabled = false → ∀ {s : State}, s.Sound env.source → Lenient env p s

/-- A parser that runs from every tape to a later one moves on, whatever it yields. -/
theorem progresses_of_runs
    (h : ∀ τ : Tape env.source, Runs env (env.guard.enabled = true) τ p fun _ υ => τ.Before υ) :
    Progresses env p where
  advances hs hrun := by
    rcases hs.offers with ⟨τ, hτ⟩
    rcases (h τ).ok hτ hrun with ⟨υ, hυ, hbefore⟩
    rw [hτ.token, hυ.token]
    exact ⟨hυ.1, hbefore.start⟩
  ends hguard _ _ _ hs hrun hdeep := by
    rcases hs.offers with ⟨τ, hτ⟩
    have henabled := (h τ).error hτ hrun hdeep
    rw [hguard] at henabled
    cases henabled
  lenient hguard _ hs := by
    rcases hs.offers with ⟨τ, hτ⟩
    exact ((h τ).lenient hτ).resolve_left (by rw [hguard]; decide)

/-- The outcomes of a parse without a guard, and with guards of any limit. Without a guard
    there is no complaint of too much depth. A guard either stops the parse and names its
    limit, or makes no difference; and it makes none if its limit is high enough. -/
structure Terminates (free : Except ParseError α) (guarded : Nat → Except ParseError α) :
    Prop where
  ends : ∀ e, free = .error e → ¬e.IsTooDeep
  allows : ∀ limit, GuardAllows limit (guarded limit) free
  lenient : ∃ limit, ∀ limit' ≥ limit, guarded limit' = free

/-- A lexical error is no complaint of too much depth. -/
theorem isTooDeep_of_settle {pending : Option LexError} {outcome : Except ParseError α}
    {e : ParseError} (h : settle pending outcome = .error e) (he : e.IsTooDeep) :
    outcome = .error e := by
  rcases he with ⟨limit, p, rfl⟩
  unfold settle at h
  split at h
  · exact h
  · split at h
    · exact h
    · cases h
  · cases h

/-- A parser that runs without a guard comes to an outcome that is not a spent budget, and to the
    same one under every guard with a limit high enough. -/
theorem terminates_of_runs (hguard : env.guard.enabled = false)
    (h : ∀ τ : Tape env.source, Runs env (env.guard.enabled = true) τ p fun _ _ => True)
    (hallows : ∀ limit, GuardAllows limit (run p { env with guard := ⟨limit, true⟩ })
      (run p env)) :
    Terminates (run p env) fun limit => run p { env with guard := ⟨limit, true⟩ } := by
  rcases (State.sound_initial env.source).offers with ⟨τ, hτ⟩
  have hoff : ¬env.guard.enabled = true := by rw [hguard]; decide
  refine ⟨fun e he hdeep => ?_, hallows, ?_⟩
  -- That the nesting is too deep is said only with the guard on.
  · cases hrun : p env (State.initial env.source) with
    | ok a t =>
        rw [run_of_ok hrun] at he
        cases isTooDeep_of_settle he hdeep
    | error e' t =>
        rw [run_of_error hrun] at he
        cases isTooDeep_of_settle he hdeep
        exact hoff ((h τ).error hτ hrun hdeep)
  -- Without the guard, some limit is high enough for this text.
  · rcases ((h τ).lenient hτ).resolve_left hoff with ⟨limit, hlimit⟩
    refine ⟨limit, fun n hn => ?_⟩
    unfold run runFrom
    simp only [hlimit n hn]

/-! ### The grammar -/

section

variable {registry : Registry} (hbuiltin : registry.IsBuiltin)

include hbuiltin

theorem runs_expressionPart (τ : Tape env.source) :
    Runs env (env.guard.enabled = true) τ (Grammar.forSource registry env.source).expression
      fun e υ => Derives env τ (.expression e) υ :=
  ((conforms_forSource hbuiltin env).expression τ).excuse fun h => h.enabled (by omega)

theorem runs_patternPart (τ : Tape env.source) :
    Runs env (env.guard.enabled = true) τ (Grammar.forSource registry env.source).pattern
      fun p υ => DerivesPattern env τ (.pattern p) υ :=
  ((conforms_forSource hbuiltin env).pattern τ).excuse fun h => h.enabled (by omega)

theorem runs_statementPart (τ : Tape env.source) :
    Runs env (env.guard.enabled = true) τ (Grammar.forSource registry env.source).statement
      fun s υ => DerivesStatement env registry.AsksAhead τ (.statement s) υ :=
  ((conforms_forSource hbuiltin env).statement τ).excuse fun h => h.enabled (by omega)

theorem progresses_forSource (env : Env) :
    Progresses env (Grammar.forSource registry env.source).statement ∧
      Progresses env (Grammar.forSource registry env.source).expression ∧
      Progresses env (Grammar.forSource registry env.source).pattern := by
  refine ⟨progresses_of_runs fun τ => ?_, progresses_of_runs fun τ => ?_,
    progresses_of_runs fun τ => ?_⟩
  · exact (runs_statementPart hbuiltin τ).imp fun _ _ h => h.before
  · exact (runs_expressionPart hbuiltin τ).imp fun _ _ h => h.before
  · exact (runs_patternPart hbuiltin τ).imp fun _ _ h => h.before

/-- The three entry points come to an outcome on every text. The grammar of a text has enough
    levels for it, and its loops have enough rounds. -/
theorem terminates_forSource (env : Env) (hguard : env.guard.enabled = false) :
    let g := Grammar.forSource registry env.source
    let guarded := fun limit : Nat => { env with guard := ⟨limit, true⟩ }
    Terminates (run (program g) env) (fun limit => run (program g) (guarded limit)) ∧
      Terminates (run (wholeText g.expression) env)
        (fun limit => run (wholeText g.expression) (guarded limit)) ∧
      Terminates (run (wholeText g.pattern) env)
        (fun limit => run (wholeText g.pattern) (guarded limit)) := by
  have hoff : env.guard = ⟨env.guard.maxDepth, false⟩ := by rw [← hguard]
  -- Every limit is stricter than no limit.
  have hlaxer (limit : Nat) : Laxer { env with guard := ⟨limit, true⟩ } env.guard := by
    rw [hoff]
    exact laxer_of_le rfl nofun
  have hallows (limit : Nat) := guardAllows_texts hbuiltin (hlaxer limit)
    (g := Grammar.forSource registry env.source) rfl
  refine ⟨?_, ?_, ?_⟩
  · exact terminates_of_runs hguard (fun τ => (runs_program (conforms_forSource hbuiltin env)
      (by omega) τ).imp fun _ _ _ => trivial) fun limit => (hallows limit).1
  · exact terminates_of_runs hguard (runs_wholeText fun τ =>
      (runs_expressionPart hbuiltin τ).imp fun _ _ _ => trivial) fun limit => (hallows limit).2.1
  · exact terminates_of_runs hguard (runs_wholeText fun τ =>
      (runs_patternPart hbuiltin τ).imp fun _ _ _ => trivial) fun limit => (hallows limit).2.2

end

end Parse

/-- Under any settings, with the nesting guard on or off, the parsers of statements,
    expressions and patterns take up some text from any state that a parse of a text can be
    in. Without the guard they never spend a budget, and neither do the parses of whole
    texts. Guards stop these, or make no difference. -/
theorem parses_progress (settings : Settings) (source : String) :
    let parser := Parser.ofSettings settings
    let env := parser.env source
    let grammar := parser.grammar source
    let free := Parser.ofSettings { settings with guardEnabled := false }
    let guarded := fun limit =>
      Parser.ofSettings { settings with maxDepth := limit, guardEnabled := true }
    (Parse.Progresses env grammar.statement ∧ Parse.Progresses env grammar.expression ∧
      Parse.Progresses env grammar.pattern) ∧
    Parse.Terminates (free.parse source) (fun limit => (guarded limit).parse source) ∧
    Parse.Terminates (free.parseExpression source)
      (fun limit => (guarded limit).parseExpression source) ∧
    Parse.Terminates (free.parsePattern source)
      (fun limit => (guarded limit).parsePattern source) := by
  have hbuiltin := Registry.isBuiltin_ofSettings settings
  have hfree := Registry.isBuiltin_ofSettings { settings with guardEnabled := false }
  exact ⟨Parse.progresses_forSource hbuiltin (Parser.env (Parser.ofSettings settings) source),
    Parse.terminates_forSource hfree
      (Parser.env (Parser.ofSettings { settings with guardEnabled := false }) source) rfl⟩

end PolyScript
