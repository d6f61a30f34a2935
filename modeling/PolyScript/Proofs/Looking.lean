import PolyScript.Handler.Builtin
import PolyScript.Proofs.Buffer

/-!
# Looking Ahead

Parsers that look without taking. Several rules decide what to do by scanning an
amount of text that nothing bounds: a dotted chain, the head of a loop, the
tokens up to an assignment sign. Each of them moves through the buffer and comes
back, so all that remains of it is that more has been read.

`Looks` is the plain case, a fixed number of tokens. `Scans` is the general one,
in which a loop is involved and its budget might be spent. The nesting guard has
no part in either, except that a spent budget names its limit; the definitions
quantify over the guard to say so.

## Main definitions

* `Parse.State.Wanders`: A state reached by looking at tokens and taking them.
* `Parse.Looks`: Reads a little and succeeds.
* `Parse.Wanders`: Reads and takes tokens, and nothing else.
* `Parse.Scans`: Reads, and ends where it began.
* `Parse.Quiet`: A rule that declines only where it began.

## Theorems

* `Parse.Wanders.bind`, `Parse.Wanders.loop`: Wandering parsers compose.
* `Parse.Wanders.lookahead`: Wandering inside a look-ahead is scanning.
* `Parse.scans_chainEndsInCall`, `Parse.scans_forInAhead`,
  `Parse.scans_capturesThenBrace`, `Parse.scans_assignmentAhead`,
  `Parse.scans_nextAfterNewlinesIs`: The look-aheads of the grammar.
* `Parse.quiet_builtin`: A handler that declines has only read.
-/

namespace PolyScript

namespace Parse

/-- A state reached by looking at tokens and taking them. -/
inductive State.Wanders (s : State) : State → Prop
  | refl : s.Wanders s
  | read {t u : State} : s.Wanders t → t.Reads u → s.Wanders u
  | advance {t : State} : s.Wanders t → s.Wanders t.advanced

theorem State.Wanders.trans {s t u : State} (h1 : s.Wanders t) (h2 : t.Wanders u) :
    s.Wanders u := by
  induction h2 with
  | refl => exact h1
  | read _ hreads ih => exact ih.read hreads
  | advance _ ih => exact ih.advance

/-- Wandering reads, moves the cursor and changes nothing else. -/
theorem State.Wanders.eq {s t : State} (h : s.Wanders t) :
    ∃ n c, t = { s with buffer := s.buffer.readMore n, cursor := c } := by
  induction h with
  | refl => exact ⟨0, s.cursor, rfl⟩
  | read _ hreads ih =>
      rcases ih with ⟨n, c, rfl⟩
      rcases hreads with ⟨m, rfl⟩
      exact ⟨n + m, c, by rw [TokenBuffer.readMore_add]⟩
  | advance _ ih =>
      rcases ih with ⟨n, c, rfl⟩
      exact ⟨n + (c + 1 - (s.buffer.readMore n).tokens.size), _, by
        rw [TokenBuffer.readMore_add]
        rfl⟩

theorem State.Sound.wanders {source : String} {s t : State} (h : s.Sound source)
    (hw : s.Wanders t) : t.Sound source := by
  induction hw with
  | refl => exact h
  | read _ hreads ih => exact ih.reads hreads
  | advance _ ih => exact ih.advanced

variable {α β : Type}

/-- A parser that reads a little and succeeds, whatever the guard. -/
def Looks (p : Parse α) : Prop :=
  ∀ (env : Env) (s : State), ∃ a t, s.Reads t ∧ ∀ guard, p { env with guard } s = .ok a t

/-- A parser that reads and takes tokens and does nothing else. It fails only if
    a budget is spent. -/
def Wanders (p : Parse α) : Prop :=
  ∀ (env : Env) (s : State),
    (∃ a t, s.Wanders t ∧ ∀ guard, p { env with guard } s = .ok a t) ∨
    ∃ t, s.Wanders t ∧
      ∀ guard : Guard, p { env with guard } s =
        .error (.tooDeep guard.maxDepth t.token.position) t.filled

/-- A parser that reads and ends where it began, unless a budget is spent. -/
def Scans (p : Parse α) : Prop :=
  ∀ (env : Env) (s : State),
    (∃ a t, s.Reads t ∧ ∀ guard, p { env with guard } s = .ok a t) ∨
    ∃ t, s.Wanders t ∧
      ∀ guard : Guard, p { env with guard } s =
        .error (.tooDeep guard.maxDepth t.token.position) t.filled

theorem looks_peek (n : Nat) : Looks (peek n) := by
  intro env s
  exact ⟨_, _, ⟨_, rfl⟩, fun _ => rfl⟩

theorem looks_peekKind (n : Nat) : Looks (peekKind n) := by
  intro env s
  exact ⟨_, _, ⟨_, rfl⟩, fun _ => rfl⟩

theorem looks_check (kind : Kind) : Looks (check kind) := by
  intro env s
  exact ⟨_, _, ⟨_, rfl⟩, fun _ => rfl⟩

theorem looks_pure (a : α) : Looks (pure a : Parse α) := by
  intro env s
  exact ⟨a, s, State.Reads.refl s, fun _ => rfl⟩

theorem Looks.bind {p : Parse α} {f : α → Parse β} (hp : Looks p) (hf : ∀ a, Looks (f a)) :
    Looks (p >>= f) := by
  intro env s
  rcases hp env s with ⟨a, t, hst, hpt⟩
  rcases hf a env t with ⟨b, u, htu, hfu⟩
  refine ⟨b, u, hst.trans htu, fun guard => ?_⟩
  rw [bind_run, hpt]
  exact hfu guard

theorem Scans.wanders {p : Parse α} (h : Scans p) : Wanders p := by
  intro env s
  rcases h env s with ⟨a, t, hst, hpt⟩ | ⟨t, hst, hpt⟩
  · exact .inl ⟨a, t, State.Wanders.refl.read hst, hpt⟩
  · exact .inr ⟨t, hst, hpt⟩

theorem Looks.scans {p : Parse α} (h : Looks p) : Scans p := fun env s => .inl (h env s)

theorem Looks.wanders {p : Parse α} (h : Looks p) : Wanders p := h.scans.wanders

theorem Looks.bind_scans {p : Parse α} {f : α → Parse β} (hp : Looks p) (hf : ∀ a, Scans (f a)) :
    Scans (p >>= f) := by
  intro env s
  rcases hp env s with ⟨a, t, hst, hpt⟩
  rcases hf a env t with ⟨b, u, htu, hfu⟩ | ⟨u, htu, hfu⟩
  · exact .inl ⟨b, u, hst.trans htu, fun guard => by rw [bind_run, hpt]; exact hfu guard⟩
  · exact .inr ⟨u, (State.Wanders.refl.read hst).trans htu,
      fun guard => by rw [bind_run, hpt]; exact hfu guard⟩

theorem scans_exhausted : Scans (exhausted : Parse α) := by
  intro env s
  exact .inr ⟨s, State.Wanders.refl, fun _ => rfl⟩

/-- A loop whose rounds only look never leaves its place. -/
theorem Looks.loop {step : α → Parse (α ⊕ β)} (h : ∀ a, Looks (step a)) (start : α) :
    Scans (loop start step) := by
  have hiterate : ∀ n a, Scans (iterate step n a) := by
    intro n
    induction n with
    | zero => exact fun _ => scans_exhausted
    | succ n ih =>
        intro a
        refine (h a).bind_scans fun r => ?_
        cases r with
        | inl next => exact ih next
        | inr result => exact (looks_pure result).scans
  exact fun env s => hiterate (env.source.utf8ByteSize + 2) start env s

theorem wanders_pure (a : α) : Wanders (pure a : Parse α) := (looks_pure a).wanders

theorem wanders_consume : Wanders consume := by
  intro env s
  exact .inl ⟨_, _, State.Wanders.refl.advance, fun _ => rfl⟩

namespace Wanders

theorem bind {p : Parse α} {f : α → Parse β} (hp : Wanders p) (hf : ∀ a, Wanders (f a)) :
    Wanders (p >>= f) := by
  intro env s
  rcases hp env s with ⟨a, t, hst, hpt⟩ | ⟨t, hst, hpt⟩
  · rcases hf a env t with ⟨b, u, htu, hfu⟩ | ⟨u, htu, hfu⟩
    · exact .inl ⟨b, u, hst.trans htu, fun guard => by rw [bind_run, hpt]; exact hfu guard⟩
    · exact .inr ⟨u, hst.trans htu, fun guard => by rw [bind_run, hpt]; exact hfu guard⟩
  · exact .inr ⟨t, hst, fun guard => by rw [bind_run, hpt]⟩

theorem iterate {step : α → Parse (α ⊕ β)} (h : ∀ a, Wanders (step a)) (n : Nat) (a : α) :
    Wanders (iterate step n a) := by
  induction n generalizing a with
  | zero => exact scans_exhausted.wanders
  | succ n ih =>
      refine (h a).bind fun r => ?_
      cases r with
      | inl next => exact ih next
      | inr result => exact wanders_pure result

theorem loop {step : α → Parse (α ⊕ β)} (h : ∀ a, Wanders (step a)) (start : α) :
    Wanders (loop start step) := by
  intro env s
  exact iterate h (env.source.utf8ByteSize + 2) start env s

/-- Wandering inside a look-ahead is scanning. -/
theorem lookahead {p : Parse α} (h : Wanders p) : Scans (lookahead p) := by
  intro env s
  rcases h env s with ⟨a, t, hst, hpt⟩ | ⟨t, hst, hpt⟩
  · rcases hst.eq with ⟨n, c, rfl⟩
    refine .inl ⟨a, _, ⟨n, rfl⟩, fun guard => ?_⟩
    change (p >>= fun result => setCursor s.cursor >>= fun _ => pure result) _ s = _
    rw [bind_run, hpt]
    rfl
  · refine .inr ⟨t, hst, fun guard => ?_⟩
    change (p >>= fun result => setCursor s.cursor >>= fun _ => pure result) _ s = _
    rw [bind_run, hpt]

end Wanders

/-! ### The look-aheads of the grammar -/

theorem looks_memberAhead : Looks memberAhead := by
  refine (looks_check _).bind fun dot => ?_
  split
  · exact (looks_peekKind 1).bind fun _ => looks_pure _
  · exact looks_pure _

theorem scans_chainEndsInCall : Scans chainEndsInCall := by
  refine Wanders.lookahead (wanders_consume.bind fun _ => Wanders.loop (fun _ => ?_) ())
  refine looks_memberAhead.wanders.bind fun member => ?_
  split
  · exact wanders_consume.bind fun _ => wanders_consume.bind fun _ => wanders_pure _
  · exact (looks_check _).wanders.bind fun _ => wanders_pure _

theorem scans_forInAhead : Scans forInAhead := by
  refine Wanders.lookahead (wanders_consume.bind fun _ => Wanders.loop (fun _ => ?_) ())
  refine (looks_peekKind 0).wanders.bind fun kind => ?_
  split
  · refine wanders_consume.bind fun _ => (looks_peekKind 0).wanders.bind fun next => ?_
    split
    · exact wanders_consume.bind fun _ => wanders_pure _
    · exact wanders_pure _
    · exact wanders_pure _
  · exact wanders_pure _

theorem scans_capturesThenBrace : Scans capturesThenBrace := by
  refine Wanders.lookahead (wanders_consume.bind fun _ =>
    (looks_check _).wanders.bind fun parenthesis => ?_)
  split
  · refine wanders_consume.bind fun _ => (Wanders.loop (fun _ => ?_) ()).bind fun _ =>
      (looks_check _).wanders.bind fun closed => ?_
    · refine (looks_peekKind 0).wanders.bind fun kind => ?_
      split
      · exact wanders_consume.bind fun _ => wanders_pure _
      · exact wanders_pure _
    · split
      · exact wanders_consume.bind fun _ => (looks_check _).wanders
      · exact wanders_pure _
  · exact (looks_check _).wanders

/-- One round of looking for an assignment. -/
def seekAssignment (isRelaxed : Bool) (depth : Nat) : Parse (Nat ⊕ Bool) := do
  match glance isRelaxed depth (← peekKind 0) with
  | .found => return .inr true
  | .absent => return .inr false
  | .deeper depth =>
    let _ ← consume
    return .inl depth

theorem assignmentAhead_run (env : Env) (s : State) :
    assignmentAhead env s = lookahead (loop 0 (seekAssignment s.isRelaxed)) env s := rfl

theorem scans_seekAssignment (isRelaxed : Bool) :
    Scans (lookahead (loop 0 (seekAssignment isRelaxed))) := by
  refine Wanders.lookahead (Wanders.loop (fun depth => ?_) 0)
  refine (looks_peekKind 0).wanders.bind fun kind => ?_
  split
  · exact wanders_pure _
  · exact wanders_pure _
  · exact wanders_consume.bind fun _ => wanders_pure _

theorem scans_assignmentAhead : Scans assignmentAhead :=
  fun env s => scans_seekAssignment s.isRelaxed env s

/-- A literal takes its token if it can be read as a number, a string or a word, and only looks
    at it otherwise. -/
theorem literal_run (env : Env) (s : State) :
    literal env s = match literalOf env.source s.token with
      | .ok expr => .ok expr s.advanced
      | .error err => .error err s.filled := by
  have hread : (read : Parse Env) env s.filled = .ok env s.filled := rfl
  unfold literal
  rw [bind_run, current_run]
  simp only
  rw [bind_run, hread]
  simp only
  cases literalOf env.source s.token with
  | ok expr =>
      simp only
      rw [bind_run, consume_run, State.advanced_filled]
      rfl
  | error => rfl

theorem literal_ok {env : Env} {s : State} {expr : Expr}
    (h : literalOf env.source s.token = .ok expr) : literal env s = .ok expr s.advanced := by
  rw [literal_run, h]

theorem scans_nextAfterNewlinesIs (kind : Kind) : Scans (nextAfterNewlinesIs kind) := by
  refine Looks.loop (fun n => ?_) 0
  refine (looks_peekKind n).bind fun next => ?_
  split
  · exact looks_pure _
  · exact looks_pure _

/-! ### Declining -/

/-- A parser that has only read when it succeeds. -/
def Returns (p : Parse α) : Prop :=
  ∀ (env : Env) (s t : State) (a : α), p env s = .ok a t → s.Reads t

/-- A rule that has only read when it declines. -/
def Quiet (p : Attempt) : Prop :=
  ∀ (env : Env) (s t : State), p env s = .ok none t → s.Reads t

/-- A rule that never declines. -/
def Sure (p : Attempt) : Prop := ∀ (env : Env) (s t : State), p env s ≠ .ok none t

theorem Scans.returns {p : Parse α} (h : Scans p) : Returns p := by
  intro env s t a hrun
  rcases h env s with ⟨b, u, hu, hlook⟩ | ⟨u, _, hfail⟩
  · rw [hlook env.guard] at hrun
    cases hrun
    exact hu
  · rw [hfail env.guard] at hrun
    cases hrun

/-- Two parsers in a row have only read if both have. -/
theorem Returns.bind {p : Parse α} {f : α → Parse β} (hp : Returns p) (hf : ∀ a, Returns (f a)) :
    Returns (p >>= f) := by
  intro env s t b hrun
  rw [bind_run] at hrun
  cases hmid : p env s with
  | ok a u =>
      rw [hmid] at hrun
      exact (hp env s u a hmid).trans (hf a env u t b hrun)
  | error e u =>
      rw [hmid] at hrun
      cases hrun

theorem returns_throw (e : ParseError) : Returns (throw e : Parse α) := by
  intro env s t a hrun
  cases hrun

theorem returns_languages : Returns languages := by
  intro env s t a hrun
  cases hrun
  exact State.Reads.refl s

theorem Sure.quiet {p : Attempt} (h : Sure p) : Quiet p :=
  fun env s t hrun => absurd hrun (h env s t)

theorem Quiet.nested {p : Attempt} (h : Quiet p) : Quiet (nested p) := by
  intro env s t hrun
  rcases ok_of_nested hrun with ⟨-, u, hinner, rfl⟩
  rcases h env _ u hinner with ⟨n, rfl⟩
  exact s.reads_filled.trans ⟨n, rfl⟩

theorem sure_some (s : Statement) : Sure (pure (some s)) := by
  intro env s t hrun
  cases hrun

theorem sure_throw (e : ParseError) : Sure (throw e) := by
  intro env s t hrun
  cases hrun

/-- A rule that ends in one that never declines never declines. -/
theorem sure_bind {p : Parse α} {f : α → Attempt} (hf : ∀ a, Sure (f a)) : Sure (p >>= f) := by
  intro env s t hrun
  rw [bind_run] at hrun
  cases hmid : p env s with
  | ok a u =>
      rw [hmid] at hrun
      exact hf a env u t hrun
  | error e u =>
      rw [hmid] at hrun
      cases hrun

theorem quiet_decline : Quiet decline := by
  intro env s t hrun
  cases hrun
  exact State.Reads.refl s

theorem Returns.bind_quiet {p : Parse α} {f : α → Attempt} (hp : Returns p)
    (hf : ∀ a, Quiet (f a)) : Quiet (p >>= f) := by
  intro env s t hrun
  rw [bind_run] at hrun
  cases hmid : p env s with
  | ok a u =>
      rw [hmid] at hrun
      exact (hp env s u a hmid).trans (hf a env u t hrun)
  | error e u =>
      rw [hmid] at hrun
      cases hrun

/-- A rule behind a test: it declines if the test fails, and else it is sure. -/
theorem Returns.quiet_ite {p : Parse Bool} {q : Attempt} (hp : Returns p) (hq : Sure q) :
    Quiet (p >>= fun b => if b = true then q else decline) := by
  refine hp.bind_quiet fun b => ?_
  split
  · exact hq.quiet
  · exact quiet_decline

/-- To see whether a code block is ahead, tokens are taken and the cursor is put back, so all
    that remains is that more has been read. -/
theorem returns_codeBlockAhead : Returns codeBlockAhead := by
  refine (looks_peek 0).scans.returns.bind fun head => (looks_peekKind 1).scans.returns.bind
    fun next => returns_languages.bind fun table => ?_
  have hpure : ∀ b : Bool, Returns (pure b : Parse Bool) := fun b => (looks_pure b).scans.returns
  dsimp only
  split
  · split
    · exact hpure true
    · split
      · exact hpure false
      · split
        · exact returns_throw _
        · exact hpure false
  · split
    · exact scans_capturesThenBrace.returns
    · exact hpure false
  · exact hpure false

/-- The rule for code blocks declines quietly, before it takes the name of the language. -/
theorem quiet_codeBlock : Quiet codeBlock := by
  refine returns_codeBlockAhead.quiet_ite (sure_bind fun head => sure_bind fun table => ?_)
  split
  · exact sure_throw _
  · refine sure_bind fun _tag => sure_bind fun names => sure_bind fun opening =>
      sure_bind fun env => ?_
    dsimp only
    split
    · exact sure_throw _
    · exact sure_bind fun _resumed => sure_some _

theorem returns_nameThen (test : Kind → Bool) : Returns (nameThen test) := by
  refine (looks_peekKind 0).scans.returns.bind fun kind => ?_
  split
  · exact (looks_peekKind 1).scans.returns.bind fun _ => (looks_pure _).scans.returns
  · exact (looks_pure _).scans.returns

theorem returns_numericForAhead : Returns numericForAhead := by
  refine (looks_peekKind 1).scans.returns.bind fun next => ?_
  split
  · exact (looks_peekKind 2).scans.returns.bind fun _ => (looks_pure _).scans.returns
  · exact (looks_pure _).scans.returns

theorem quiet_forIn (g : Grammar) (settings : HandlerSettings) : Quiet (forIn g settings) := by
  refine scans_forInAhead.returns.quiet_ite (sure_bind fun _keyword => sure_bind fun _names =>
    sure_bind fun _kwIn => sure_bind fun _arrayAhead => ?_)
  split
  · exact sure_bind fun _token => sure_throw _
  · exact sure_bind fun _iterable => sure_bind fun _inner => sure_some _

theorem quiet_numericFor (g : Grammar) : Quiet (numericFor g) :=
  returns_numericForAhead.quiet_ite (sure_bind fun _keyword => sure_bind fun _name =>
    sure_bind fun _assign => sure_bind fun _first => sure_bind fun _comma =>
    sure_bind fun _last => sure_bind fun _step => sure_bind fun _inner => sure_some _)

theorem quiet_assignment (g : Grammar) : Quiet (assignment g) := by
  refine scans_assignmentAhead.returns.quiet_ite (sure_bind fun target => ?_)
  split
  · exact sure_bind fun _assign => sure_bind fun _newlines => sure_bind fun _value => sure_some _
  · exact sure_throw _

theorem quiet_languageCall (g : Grammar) : Quiet (languageCall g) := by
  refine (returns_nameThen _).bind_quiet fun dotAhead => ?_
  split
  · exact scans_chainEndsInCall.returns.quiet_ite (sure_bind fun _start =>
      sure_bind fun _call => sure_bind fun _background => sure_some _)
  · exact quiet_decline

theorem quiet_fieldAccess (g : Grammar) : Quiet (fieldAccess g) :=
  (returns_nameThen _).quiet_ite (sure_bind fun _expr => sure_some _)

theorem quiet_builtinCall (g : Grammar) : Quiet (builtinCall g) := by
  refine (looks_check _).scans.returns.bind_quiet fun name => ?_
  split
  · refine (looks_peekKind 1).scans.returns.bind_quiet fun next => ?_
    split
    · exact (sure_bind fun _statement => sure_some _).quiet
    · exact quiet_decline
  · exact quiet_decline

/-- The rules of all handlers decline quietly. Those that look ahead put the cursor back first,
    and the others decide on tokens that they have not taken. Behind that a rule goes on until it
    has a statement, and does not decline. -/
theorem quiet_rule (settings : HandlerSettings) (g : Grammar) :
    Quiet (Handler.rule settings g) := by
  have hcertainly : ∀ p : Parse Statement, Quiet (Handler.certainly p) :=
    fun p => (sure_bind fun s => sure_some s).quiet
  unfold Handler.rule
  cases settings.construct with
  | forIn => exact quiet_forIn g settings
  | numericFor => exact quiet_numericFor g
  | codeBlock => exact quiet_codeBlock
  | assignment => exact quiet_assignment g
  | languageCall => exact quiet_languageCall g
  | fieldAccess => exact quiet_fieldAccess g
  | builtinCall => exact quiet_builtinCall g
  | _ => exact hcertainly _

/-- A handler that declines has only read. -/
theorem quiet_builtin (settings : HandlerSettings) (g : Grammar) :
    Quiet ((Handler.builtin settings).parse g) := by
  unfold Handler.builtin
  dsimp only
  split
  · refine (looks_check _).scans.returns.bind_quiet fun b => ?_
    split
    · exact quiet_rule settings g
    · exact quiet_decline
  · exact quiet_rule settings g

end Parse

end PolyScript
