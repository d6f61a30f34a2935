import PolyScript.Proofs.Made

/-!
# On the Way Through a Parse

What the wrappers change they put back. Nesting depth, loop depth and terminator
mode are the same behind a parser as before it, whether it succeeds or fails, and
from whatever state it is run. `Parse.State.Kept` says so, and `Parse.Made.kept` is
one induction over what parsers are made of.

That alone says nothing about the states in between. `Parse.Passes` names them: a
run passes through the state it begins in and the one it ends in, and through what
its parts pass through, where the parts are those of a derivation of `Parse.Made`.
Only such parts count, because as a function a harmless parser may also be written
as a harmful one and its undoing. The guard then bounds the depth along the whole
run: a level is entered only below the limit, and everything inside it is back at
that level when it is left.

The size mode of the lexer is not among the things that are put back. It is always
off behind the size of a segment, so all that remains is that a parser never
leaves it on where it was off.

## Main definitions

* `Parse.endState`: The state that an outcome leaves.
* `Parse.State.Kept`: What stays, and the size mode that is not left on.
* `Parse.Passes`: A run passes through a state.
* `Parse.KeepsContext`: A parser puts back what it changes and respects the guard.

## Theorems

* `Parse.Made.kept`: What parsers leave as it was.
* `Parse.depth_le_of_passes`: The guard bounds the depth along a run.
* `context_restored`: The parsers of programs, statements, expressions and patterns.
-/

namespace PolyScript

/-! ### The size mode -/

theorem Lexer.sizeMode_next (lx : Lexer) : lx.next.2.sizeMode = lx.sizeMode := rfl

namespace TokenBuffer

theorem sizeMode_readOne (b : TokenBuffer) : b.readOne.lexer.sizeMode = b.lexer.sizeMode := by
  have hnext := Lexer.sizeMode_next b.lexer
  unfold readOne
  split <;> rename_i heq <;> rw [heq] at hnext <;> exact hnext

@[simp] theorem sizeMode_readMore (n : Nat) (b : TokenBuffer) :
    (readMore n b).lexer.sizeMode = b.lexer.sizeMode := by
  induction n generalizing b with
  | zero => rfl
  | succ n ih =>
      unfold readMore
      split
      · rfl
      · rw [ih, sizeMode_readOne]

@[simp] theorem sizeMode_setSizeMode (b : TokenBuffer) (cursor : Nat) (enabled : Bool) :
    (b.setSizeMode cursor enabled).lexer.sizeMode = enabled := by
  unfold setSizeMode
  split
  · assumption
  · rfl

end TokenBuffer

namespace Parse

variable {α β : Type} {env : Env} {p : Parse α} {s t u : State}

/-- The state that an outcome leaves. -/
def endState : EStateM.Result ParseError State α → State
  | .ok _ t => t
  | .error _ t => t

/-- What a parser leaves as it found it. Only the size mode may be off where it was
    on. -/
structure State.Kept (s t : State) : Prop where
  depth : t.depth = s.depth
  loopDepth : t.loopDepth = s.loopDepth
  isRelaxed : t.isRelaxed = s.isRelaxed
  sizeMode : t.buffer.lexer.sizeMode = true → s.buffer.lexer.sizeMode = true

theorem State.Kept.refl (s : State) : s.Kept s := ⟨rfl, rfl, rfl, id⟩

theorem State.Kept.trans (h1 : s.Kept t) (h2 : t.Kept u) : s.Kept u where
  depth := h2.depth.trans h1.depth
  loopDepth := h2.loopDepth.trans h1.loopDepth
  isRelaxed := h2.isRelaxed.trans h1.isRelaxed
  sizeMode := fun h => h1.sizeMode (h2.sizeMode h)

/-- Reading and moving about changes none of it. -/
theorem State.Reads.kept {c : Nat} (h : s.Reads t) : s.Kept { t with cursor := c } := by
  rcases h with ⟨n, rfl⟩
  exact ⟨rfl, rfl, rfl, fun hmode => by simpa using hmode⟩

/-- A wrapper keeps the context if the parser inside keeps what the wrapper set, and the wrapper
    puts the rest back. -/
theorem State.Kept.around {before after : State → State}
    (h : (before s).Kept (endState (p env (before s))))
    (hafter : ∀ t, (before s).Kept t → s.Kept (after t)) :
    s.Kept (endState (Parse.around before after p env s)) := by
  unfold Parse.around
  cases hrun : p env (before s) with
  | ok a t =>
      rw [hrun] at h
      exact hafter t h
  | error e t =>
      rw [hrun] at h
      exact hafter t h

/-- Loop control looks at its word, and takes it if a loop is open. -/
theorem loopControl_run (env : Env) (s : State) :
    loopControl env s =
      if s.loopDepth = 0 then .error (.outsideLoop s.token.text s.token.position) s.filled
      else .ok (if s.token.kind = .kwBreak then .breakLoop s.token else .continueLoop s.token)
        s.filled.advanced := by
  change (if s.loopDepth = 0 then throw (.outsideLoop s.token.text s.token.position)
    else consume >>= fun token =>
      if token.kind = .kwBreak then pure (.breakLoop token) else pure (.continueLoop token) :
    Parse Statement) env s.filled = _
  split
  · rfl
  · rw [bind_run, consume_run, State.token_filled]
    dsimp only
    split <;> rfl

/-- A parser put together from the operations keeps depth, loop depth and terminator mode,
    whether it succeeds or fails. By induction on how it is made: each wrapper puts back what it
    has changed, behind a success and behind an error alike. -/
theorem Made.kept (h : Made p) (env : Env) (s : State) : s.Kept (endState (p env s)) := by
  induction h generalizing s with
  | pure => exact .refl s
  | @bind α β p f _ _ ihp ihf =>
      have hp := ihp s
      rw [bind_run]
      cases hrun : p env s with
      | ok a t =>
          rw [hrun] at hp
          exact hp.trans (ihf a t)
      | error e t =>
          rw [hrun] at hp
          exact hp
  | throw => exact .refl s
  | read => exact .refl s
  | get => exact .refl s
  | peek n => exact State.Reads.kept (c := s.cursor) ⟨_, rfl⟩
  | consume => exact s.reads_filled.kept
  | window count =>
      rcases window_run count s with ⟨t, ⟨n, rfl⟩, _, hrun⟩
      rw [hrun env]
      exact State.Reads.kept (c := s.cursor) ⟨n, rfl⟩
  | setCursor index => exact (State.Reads.refl s).kept
  | resumeAt => exact ⟨rfl, rfl, rfl, id⟩
  | @nested α p _ ih =>
      cases henter : env.guard.enter s.depth s.token.position with
      | error e =>
          rw [nested_run, henter]
          exact State.Reads.kept (c := s.cursor) s.reads_filled
      | ok depth =>
          have hdepth := (enter_ok henter).1
          have hlooked : s.Kept s.filled := State.Reads.kept (c := s.cursor) s.reads_filled
          rw [nested_entered henter]
          refine hlooked.trans (.around (ih _) fun t ht => ⟨?_, ht.loopDepth, ht.isRelaxed,
            ht.sizeMode⟩)
          -- The depth was one more, and one is taken off again.
          change t.depth - 1 = s.depth
          rw [show t.depth = depth from ht.depth, hdepth, Nat.add_sub_cancel]
  | inLoop _ ih =>
      refine .around (ih _) fun t ht => ⟨ht.depth, ?_, ht.isRelaxed, ht.sizeMode⟩
      change t.loopDepth - 1 = s.loopDepth
      rw [ht.loopDepth, Nat.add_sub_cancel]
  | withTerminators isRelaxed _ ih =>
      rw [withTerminators_run]
      exact .around (ih { s with isRelaxed }) fun t ht => ⟨ht.depth, ht.loopDepth, rfl, ht.sizeMode⟩
  | inSizeMode _ ih =>
      refine .around (ih _) fun t ht => ⟨ht.depth, ht.loopDepth, ht.isRelaxed, fun h => ?_⟩
      -- Size mode is off afterwards, so there is nothing to show.
      rw [switchSizeMode, TokenBuffer.sizeMode_setSizeMode] at h
      cases h
  | loopControl =>
      rw [loopControl_run]
      split
      · exact State.Reads.kept (c := s.cursor) s.reads_filled
      · exact (State.Reads.kept (c := s.cursor) s.reads_filled).trans s.filled.reads_filled.kept

/-- A parser that succeeds keeps the context. -/
theorem Made.kept_ok {a : α} (h : Made p) (hrun : p env s = .ok a t) : s.Kept t := by
  have hkept := h.kept env s
  rw [hrun] at hkept
  exact hkept

/-! ### The states in between -/

/-- A run of a parser from a state passes through another state. -/
inductive Passes (env : Env) : {α : Type} → Parse α → State → State → Prop
  | start {α : Type} {p : Parse α} {s : State} : Passes env p s s
  | stop {α : Type} {p : Parse α} {s : State} : Passes env p s (endState (p env s))
  /-- Through what the first of two parts passes. -/
  | first {α β : Type} {p : Parse α} {f : α → Parse β} {s u : State} :
    Made p → (∀ a, Made (f a)) → Passes env p s u → Passes env (p >>= f) s u
  /-- Through what the second part passes when the first is done. -/
  | next {α β : Type} {p : Parse α} {f : α → Parse β} {a : α} {s t u : State} :
    Made p → (∀ a, Made (f a)) → p env s = .ok a t → Passes env (f a) t u →
    Passes env (p >>= f) s u
  /-- Through what is passed on the level that was entered. -/
  | nested {α : Type} {p : Parse α} {depth : Nat} {s u : State} :
    Made p → env.guard.enter s.depth s.token.position = .ok depth →
    Passes env p (s.filled.atDepth depth) u → Passes env (nested p) s u
  | inLoop {α : Type} {p : Parse α} {s u : State} :
    Made p → Passes env p { s with loopDepth := s.loopDepth + 1 } u → Passes env (inLoop p) s u
  | withTerminators {α : Type} {p : Parse α} {isRelaxed : Bool} {s u : State} :
    Made p → Passes env p { s with isRelaxed } u → Passes env (withTerminators isRelaxed p) s u
  | inSizeMode {α : Type} {p : Parse α} {s u : State} :
    Made p → Passes env p (switchSizeMode true s) u → Passes env (inSizeMode p) s u

/-- Along a run the guard, if it is enabled, bounds the depth by its limit, or by the
    depth at the start if that is beyond the limit already. -/
theorem depth_le_of_passes (hguard : env.guard.enabled = true) (hp : Made p)
    (hu : Passes env p s u) : u.depth ≤ max env.guard.maxDepth s.depth := by
  induction hu with
  | start => exact Nat.le_max_right _ _
  | @stop α p s =>
      rw [(hp.kept env s).depth]
      exact Nat.le_max_right _ _
  | first hpart _ _ ih => exact ih hpart
  | @next α β p f a s t u hpart hrest hrun _ ih =>
      rw [← (hpart.kept_ok hrun).depth]
      exact ih (hrest a)
  | @nested α p depth s u hpart henter _ ih =>
      have hle : u.depth ≤ max env.guard.maxDepth depth := ih hpart
      -- The guard let the parser in, so the depth was below the limit.
      have hbelow : s.depth < env.guard.maxDepth := (enter_ok henter).2 hguard
      have hentered := (enter_ok henter).1
      omega
  | inLoop hpart _ ih => exact ih hpart
  | withTerminators hpart _ ih => exact ih hpart
  | inSizeMode hpart _ ih => exact ih hpart

/-- A parser, taken apart into its operations, puts back what it changes, and on the
    way it respects the guard. -/
def KeepsContext (env : Env) (p : Parse α) : Prop :=
  Made p ∧ ∀ s : State,
    ((endState (p env s)).depth = s.depth ∧ (endState (p env s)).loopDepth = s.loopDepth ∧
      (endState (p env s)).isRelaxed = s.isRelaxed) ∧
    ∀ u, Passes env p s u → env.guard.enabled = true → u.depth ≤ max env.guard.maxDepth s.depth

theorem Made.keepsContext (h : Made p) : KeepsContext env p :=
  ⟨h, fun s => ⟨⟨(h.kept env s).depth, (h.kept env s).loopDepth, (h.kept env s).isRelaxed⟩,
    fun _ hu hguard => depth_le_of_passes hguard h hu⟩⟩

end Parse

/-- Under any settings and from any state, the parsers of programs, statements,
    expressions and patterns leave nesting depth, loop depth and terminator mode as
    they were, with success and with any error, and nowhere in between does the
    depth exceed both the limit of the guard and the depth at the start. -/
theorem context_restored (settings : Settings) (source : String) :
    let parser := Parser.ofSettings settings
    let env := parser.env source
    let grammar := parser.grammar source
    Parse.KeepsContext env (Parse.program grammar) ∧ Parse.KeepsContext env grammar.statement ∧
      Parse.KeepsContext env grammar.expression ∧ Parse.KeepsContext env grammar.pattern := by
  have hmade := Grammar.made_level (Registry.isBuiltin_ofSettings settings)
    (4 * source.utf8ByteSize + 8)
  exact ⟨(Parse.made_program hmade).keepsContext, hmade.statement.keepsContext,
    hmade.expression.keepsContext, hmade.pattern.keepsContext⟩

end PolyScript
