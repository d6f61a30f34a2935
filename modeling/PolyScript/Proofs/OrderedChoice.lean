import PolyScript.Proofs.ReadAhead

/-!
# Dispatching as Ordered Choice

A dispatcher asks handlers one after the other, each in the state that the ones before it
left. They might as well all be asked in the state at which the statement begins: a handler
that declines has only read ahead, and a handler does not notice how much was read ahead. So
what the dispatcher comes to is the answer of the first handler that does not decline there,
and `Parse.firstAnswer` says so without threading a state from one handler to the next.

Nothing is assumed about the order or the patterns of the handlers, since none of this
depends on which of them are asked.

## Main definitions

* `Parse.State.Agrees`: States that no parser tells apart.
* `Parse.firstAnswer`: The first answer among handlers, all of them asked in one state.

## Theorems

* `Parse.heedless_dispatch`: The dispatcher is heedless, so the whole grammar is.
* `Parse.tryHandlers_eq_firstAnswer`: Asking handlers one after the other.
* `dispatch_ordered_choice`: Statements are parsed by ordered choice.
-/

namespace PolyScript

namespace Parse

/-- States that no parser tells apart: the same tokens are ahead, in the same mode, and
    everything that a wrapper changes is the same. -/
structure State.Agrees (s t : State) : Prop where
  cursor : t.cursor = s.cursor
  depth : t.depth = s.depth
  loopDepth : t.loopDepth = s.loopDepth
  isRelaxed : t.isRelaxed = s.isRelaxed
  sizeMode : t.buffer.lexer.sizeMode = s.buffer.lexer.sizeMode
  ahead : ∀ n, t.buffer.tokenAt (t.cursor + n) = s.buffer.tokenAt (s.cursor + n)

variable {env : Env} {g : Grammar} {s t u : State}

theorem State.Matches.agrees {source : String} (h : s.Matches source t) : s.Agrees t where
  cursor := h.frame.1
  depth := h.frame.2.1
  loopDepth := h.frame.2.2.1
  isRelaxed := h.frame.2.2.2
  sizeMode := h.sizeMode
  ahead := h.tokenAt

theorem State.Reads.agrees (h : s.Reads t) : s.Agrees t := by
  rcases h with ⟨n, rfl⟩
  exact ⟨rfl, rfl, rfl, rfl, by simp, fun i => by simp⟩

theorem heedless_conclude (statement : Statement) : Heedless env (conclude statement) := by
  intro s t h
  rw [conclude_run, conclude_run, h.token, h.frame.2.2.2]
  split
  · exact ⟨rfl, h⟩
  · split
    · exact ⟨rfl, h.filled⟩
    · exact ⟨rfl, h.filled⟩

theorem State.Agrees.tokensFrom (h : s.Agrees t) (i count : Nat) :
    t.buffer.tokensFrom (t.cursor + i) count = s.buffer.tokensFrom (s.cursor + i) count := by
  induction count generalizing i with
  | zero => rfl
  | succ count ih =>
      have hrest := ih (i + 1)
      simp only [← Nat.add_assoc] at hrest
      simp only [TokenBuffer.tokensFrom, h.ahead, hrest]

/-- A handler that declines leaves the cursor where it was, so setting it back to where the
    handlers began does nothing. -/
theorem tryHandlers_cons (first : Token) {handler : Handler} {rest : List Handler}
    (hbuiltin : ∃ settings, handler = Handler.builtin settings) :
    tryHandlers g first s.cursor (handler :: rest) env s =
      match nested (handler.parse g) env s with
      | .ok (some statement) t => conclude statement env t
      | .ok none t => tryHandlers g first t.cursor rest env t
      | .error e t => .error e t := by
  rcases hbuiltin with ⟨settings, rfl⟩
  rw [tryHandlers, bind_run]
  cases hrun : nested ((Handler.builtin settings).parse g) env s with
  | error e t => rfl
  | ok answer t =>
      cases answer with
      | some statement => rfl
      | none =>
          rcases (quiet_builtin settings g).nested env s t hrun with ⟨n, rfl⟩
          rfl

/-- Handlers that are asked in states that match. -/
theorem heedless_tryHandlers (hplaced : (placing env).Keeps g) (hg : KeepsHeedless env g)
    (hproper : g.Proper) (first : Token) {handlers : List Handler}
    (hbuiltin : ∀ h ∈ handlers, ∃ settings, h = Handler.builtin settings)
    (h : s.Matches env.source t) :
    SameResult (State.Matches env.source) (tryHandlers g first s.cursor handlers env s)
      (tryHandlers g first t.cursor handlers env t) := by
  induction handlers generalizing s t with
  | nil => exact ⟨rfl, h⟩
  | cons handler rest ih =>
      have hhandler := hbuiltin handler List.mem_cons_self
      have hrest := fun h hmem => hbuiltin h (List.mem_cons_of_mem handler hmem)
      rw [tryHandlers_cons first hhandler, tryHandlers_cons first hhandler]
      rcases hhandler with ⟨settings, rfl⟩
      have hanswer := SameResult.nested h fun depth =>
        heedless_builtin hplaced hg hproper settings _ _ (h.filled.atDepth depth)
      -- Both runs end the same way, as their states cannot be told apart.
      cases hs : nested ((Handler.builtin settings).parse g) env s <;>
        cases ht : nested ((Handler.builtin settings).parse g) env t <;> rw [hs, ht] at hanswer
      case ok.ok answer s' answer' t' =>
        rcases hanswer with ⟨rfl, hmatch⟩
        cases answer with
        | some statement => exact heedless_conclude statement _ _ hmatch
        | none => exact ih hrest hmatch
      case error.error => exact hanswer
      all_goals exact hanswer.elim

/-- The dispatcher is heedless. -/
theorem heedless_dispatch {registry : Registry} (hbuiltin : registry.IsBuiltin)
    (hplaced : (placing env).Keeps g) (hg : KeepsHeedless env g) (hproper : g.Proper) :
    Heedless env (dispatch registry g) := by
  intro s t h
  rcases dispatch_run registry g s with ⟨u, hu, -, hs⟩
  rcases dispatch_run registry g t with ⟨v, hv, -, ht⟩
  have hahead : t.buffer.tokensFrom t.cursor registry.windowSize =
      s.buffer.tokensFrom s.cursor registry.windowSize :=
    h.agrees.tokensFrom 0 registry.windowSize
  have hmatch := h.reads hu hv
  rw [hs, ht, hahead]
  cases hwindow : s.buffer.tokensFrom s.cursor registry.windowSize with
  | nil => exact Heedless.current.bind (fun _ => .throw _) _ _ hmatch
  | cons first rest =>
      rw [← hu.agrees.cursor, ← hv.agrees.cursor]
      exact heedless_tryHandlers hplaced hg hproper first (fun h => isBuiltin_asked hbuiltin) hmatch

/-- Every level of the grammar is heedless. -/
theorem keepsHeedless_level {registry : Registry} (hbuiltin : registry.IsBuiltin) (n : Nat) :
    KeepsHeedless env (Grammar.level registry n) := by
  induction n with
  | zero => exact ⟨.exhausted, .exhausted, .exhausted, .exhausted, .exhausted⟩
  | succ n ih =>
      have hproper := Grammar.proper_level hbuiltin n
      have hplaced := (placing env).keeps_level hbuiltin n
      have hderived : ∀ {α : Type} {p : Parse α} {m : α → α} {Q : (Nat → Kind) → α → View → Prop},
          (∀ κ, Alike (Position.IsPlace env.source.toList) True ⟨0, 0⟩ (Grammar.level registry n)
            (Grammar.level registry n) ((View.start κ).seeing κ) m p p (Q κ)) →
          Heedless env p := by
        intro α p m Q h s t hmatch
        exact heedless_of_alike hplaced ih (h _) ⟨hmatch.sound.1, s.sees⟩ hmatch
      exact {
        expression := hderived fun κ => alike_expression hproper
        operand := hderived fun κ => alike_operand hproper
        pattern := hderived fun κ => alike_pattern hproper
        statement := heedless_dispatch hbuiltin hplaced ih hproper
        conditional := hderived fun κ => alike_conditional hproper rfl }

/-! ### The first answer -/

/-- The answer of the first handler that does not decline, where every handler is asked in
    the same state. If all of them decline, the current token is to blame. -/
def firstAnswer (g : Grammar) (env : Env) (s : State) :
    List Handler → EStateM.Result ParseError State Statement
  | [] => .error (.noHandler s.token.describe s.token.position) s
  | handler :: rest =>
    match nested (handler.parse g) env s with
    | .ok (some statement) t => conclude statement env t
    | .ok none _ => firstAnswer g env s rest
    | .error e t => .error e t

/-- Handlers that are asked one after the other come to the first answer. -/
theorem tryHandlers_eq_firstAnswer (hplaced : (placing env).Keeps g) (hg : KeepsHeedless env g)
    (hproper : g.Proper) {handlers : List Handler}
    (hbuiltin : ∀ h ∈ handlers, ∃ settings, h = Handler.builtin settings)
    (hs : s.Sound env.source) (h : s.Reads u) :
    SameResult (State.Matches env.source) (firstAnswer g env s handlers)
      (tryHandlers g s.token u.cursor handlers env u) := by
  -- By induction on the handlers. One that declines has only read, so the next is asked in a
  -- state that no handler tells apart.
  induction handlers generalizing u with
  | nil => exact ⟨rfl, .of_reads hs h⟩
  | cons handler rest ih =>
      have hhandler := hbuiltin handler List.mem_cons_self
      have hrest := fun h hmem => hbuiltin h (List.mem_cons_of_mem handler hmem)
      have hmatch := State.Matches.of_reads hs h
      rw [firstAnswer, tryHandlers_cons s.token hhandler]
      rcases hhandler with ⟨settings, rfl⟩
      have hanswer := SameResult.nested hmatch fun depth =>
        heedless_builtin hplaced hg hproper settings _ _ (hmatch.filled.atDepth depth)
      -- Either both runs of the handler answer or both fail.
      cases hfirst : nested ((Handler.builtin settings).parse g) env s <;>
        cases hnow : nested ((Handler.builtin settings).parse g) env u <;>
        rw [hfirst, hnow] at hanswer
      case ok.ok answer s' answer' u' =>
        rcases hanswer with ⟨rfl, hmatch'⟩
        cases answer with
        | some statement => exact heedless_conclude statement _ _ hmatch'
        | none => exact ih hrest (h.trans ((quiet_builtin settings g).nested env u u' hnow))
      case error.error => exact hanswer
      all_goals exact hanswer.elim

/-- So the dispatcher comes to the first answer of the handlers for the window ahead. -/
theorem dispatch_eq_firstAnswer {registry : Registry} (hbuiltin : registry.IsBuiltin)
    (hpos : 0 < registry.windowSize) (hplaced : (placing env).Keeps g)
    (hg : KeepsHeedless env g) (hproper : g.Proper) (hs : s.Sound env.source) :
    SameResult (State.Matches env.source)
      (firstAnswer g env s (registry.candidates
        (s.buffer.tokensFrom s.cursor registry.windowSize) ++ registry.fallbacks))
      (dispatch registry g env s) := by
  rcases dispatch_run registry g s with ⟨u, hu, -, hrun⟩
  rw [hrun]
  rcases tokensFrom_head s hpos with ⟨rest, hrest⟩
  rw [hrest, ← hu.agrees.cursor]
  exact tryHandlers_eq_firstAnswer hplaced hg hproper (fun h => isBuiltin_asked hbuiltin) hs hu

/-- Handlers all of which decline. -/
theorem firstAnswer_of_declined {handlers : List Handler}
    (h : ∀ handler ∈ handlers, ∃ t, nested (handler.parse g) env s = .ok none t) :
    firstAnswer g env s handlers = .error (.noHandler s.token.describe s.token.position) s := by
  induction handlers with
  | nil => rfl
  | cons handler rest ih =>
      rcases h handler List.mem_cons_self with ⟨t, ht⟩
      rw [firstAnswer, ht]
      exact ih fun other hmem => h other (List.mem_cons_of_mem _ hmem)

end Parse

/-- Under any settings and in any state, a statement is parsed by ordered choice: the
    dispatcher comes to the answer of the first handler that does not decline, among the
    candidates for the window ahead and the fallbacks behind them, all asked in the state at
    which the statement begins. A handler of the language that declines leaves a state that no
    handler tells from the one it was given. If all decline, the current token is to blame,
    and it is still the current one. -/
theorem dispatch_ordered_choice (settings : Settings) (source : String) (n : Nat)
    (s : Parse.State) (hs : s.Sound source) :
    let parser := Parser.ofSettings settings
    let env := parser.env source
    let grammar := Grammar.level parser.registry n
    let statement := (Grammar.level parser.registry (n + 1)).statement
    let window := s.buffer.tokensFrom s.cursor parser.registry.windowSize
    let asked := parser.registry.candidates window ++ parser.registry.fallbacks
    Parse.SameResult Parse.State.Agrees (Parse.firstAnswer grammar env s asked)
        (statement env s) ∧
      (∀ entry t, (Handler.builtin entry).parse grammar env s = .ok none t → s.Agrees t ∧
        ∀ other, Parse.SameResult Parse.State.Agrees
          ((Handler.builtin other).parse grammar env s)
          ((Handler.builtin other).parse grammar env t)) ∧
      ((∀ handler ∈ asked, ∃ t, Parse.nested (handler.parse grammar) env s = .ok none t) →
        ∃ t, statement env s = .error (.noHandler s.token.describe s.token.position) t ∧
          t.cursor = s.cursor) := by
  intro parser env grammar statement window asked
  have hbuiltin := Registry.isBuiltin_ofSettings settings
  have hproper := Grammar.proper_level hbuiltin n
  have hplaced := (Parse.placing env).keeps_level hbuiltin n
  have hgrammar : Parse.KeepsHeedless env grammar := Parse.keepsHeedless_level hbuiltin n
  have hchoice : Parse.SameResult Parse.State.Agrees (Parse.firstAnswer grammar env s asked)
      (statement env s) :=
    (Parse.dispatch_eq_firstAnswer hbuiltin (Registry.windowSize_pos settings) hplaced hgrammar
      hproper hs).imp fun _ _ h => h.agrees
  refine ⟨hchoice, fun entry t hrun => ?_, fun hdeclined => ?_⟩
  -- To decline is to look ahead only, which changes no answer of another handler.
  · have hreads : s.Reads t := Parse.quiet_builtin entry grammar env s t hrun
    have hmatch := Parse.State.Matches.of_reads hs hreads
    refine ⟨hreads.agrees, fun other => ?_⟩
    exact (Parse.heedless_builtin hplaced hgrammar hproper other s t hmatch).imp
      fun _ _ h => h.agrees
  -- If all decline, the ordered choice is an error, and the dispatcher has the same.
  · rw [Parse.firstAnswer_of_declined hdeclined] at hchoice
    cases hrun : statement env s with
    | ok a t =>
        rw [hrun] at hchoice
        exact hchoice.elim
    | error e t =>
        rw [hrun] at hchoice
        exact ⟨t, by rw [hchoice.1], hchoice.2.cursor⟩

/-- At the start of a guest call. Among those asked are the handlers for assignments, which
    look through the whole line and decline. -/
theorem dispatch_ordered_choice_call :
    let parser := Parser.ofSettings Settings.defaults
    let s := Parse.State.initial "js.f(1)"
    let window := s.buffer.tokensFrom s.cursor parser.registry.windowSize
    s.Sound "js.f(1)" ∧
      Parse.SameResult Parse.State.Agrees
        (Parse.firstAnswer (Grammar.level parser.registry 8) (parser.env "js.f(1)") s
          (parser.registry.candidates window ++ parser.registry.fallbacks))
        ((Grammar.level parser.registry 9).statement (parser.env "js.f(1)") s) :=
  have hs := Parse.State.sound_initial "js.f(1)"
  ⟨hs, (dispatch_ordered_choice Settings.defaults "js.f(1)" 8 _ hs).1⟩

end PolyScript
