import PolyScript.Proofs.Looking
import PolyScript.Settings.Basic

/-!
# Parsers at the End of the Text

Nothing can be parsed where no token is left. A rule that is asked to parse
something at the end of the text fails right there: the error stands at the end,
and nothing was taken. The same holds at a newline, at a pipe operator and at an
`else`, which nothing begins with.

That these failures are immediate matters because the end of the text may be
feigned, standing for a token that cannot be read. Whatever a rule says about
such a place is overruled by the lexical error, provided that the rule does say
it about that place.

## Main definitions

* `Parse.StopsAt`: Fails at a token, without taking it.
* `Parse.StopsAtEnd`: Fails at the end of the text.
* `Parse.HaltsAt`: Fails at a token or declines, without taking it.
* `Grammar.StopsAtEnd`: The same of all parts of a grammar.

## Theorems

* `Grammar.stopsAtEnd_above`: A grammar over one that stops at the end.
* `Grammar.stopsAtEnd_level`: Every level stops at the end.
-/

namespace PolyScript

namespace Parse

variable {α β : Type} {t : Token}

/-- A parser that fails at the current token, and at its place, without taking
    it. -/
def StopsAt (t : Token) (p : Parse α) : Prop :=
  ∀ (env : Env) (s : State), s.token = t →
    ∃ e u, e.position = t.position ∧ s.Reads u ∧ p env s = .error e u

/-- A parser that fails at the end of the text, without taking anything. -/
def StopsAtEnd (p : Parse α) : Prop := ∀ t : Token, t.kind = .endOfInput → StopsAt t p

theorem stopsAt_throw {e : ParseError} (h : e.position = t.position) :
    StopsAt t (throw e : Parse α) := by
  intro env s _
  exact ⟨e, s, h, State.Reads.refl s, rfl⟩

theorem stopsAt_unexpected (expected : String) : StopsAt t (unexpected expected : Parse α) := by
  intro env s hs
  exact ⟨_, s.filled, by rw [← hs]; rfl, s.reads_filled, rfl⟩

theorem stopsAt_exhausted : StopsAt t (exhausted : Parse α) := by
  intro env s hs
  exact ⟨_, s.filled, by rw [← hs]; rfl, s.reads_filled, rfl⟩

theorem StopsAt.bind {p : Parse α} (h : StopsAt t p) (f : α → Parse β) : StopsAt t (p >>= f) := by
  intro env s hs
  rcases h env s hs with ⟨e, u, he, hu, hrun⟩
  exact ⟨e, u, he, hu, by rw [bind_run, hrun]⟩

/-- A parser that fails after a look fails. -/
theorem Looks.bind_stopsAt {p : Parse α} {f : α → Parse β} (hp : Looks p)
    (hf : ∀ a, StopsAt t (f a)) : StopsAt t (p >>= f) := by
  intro env s hs
  rcases hp env s with ⟨a, v, hv, hrun⟩
  rcases hf a env v (by rw [hv.token_eq, hs]) with ⟨e, u, he, hu, hfail⟩
  exact ⟨e, u, he, hv.trans hu, by rw [bind_run, hrun env.guard]; exact hfail⟩

/-- The same after a look at the token itself, which is known. -/
theorem stopsAt_current {f : Token → Parse β} (h : StopsAt t (f t)) :
    StopsAt t (current >>= f) := by
  intro env s hs
  rcases h env s.filled (by rw [State.token_filled, hs]) with ⟨e, u, he, hu, hfail⟩
  exact ⟨e, u, he, s.reads_filled.trans hu, by rw [bind_run, current_run, hs]; exact hfail⟩

theorem stopsAt_peekKind {f : Kind → Parse β} (h : StopsAt t (f t.kind)) :
    StopsAt t (peekKind 0 >>= f) := stopsAt_current (f := fun t => f t.kind) h

theorem stopsAt_check {kind : Kind} {f : Bool → Parse β}
    (h : StopsAt t (f (decide (t.kind = kind)))) : StopsAt t (check kind >>= f) :=
  stopsAt_current (f := fun t => f (decide (t.kind = kind))) h

theorem stopsAt_check_ne {kind : Kind} (hkind : t.kind ≠ kind) {p q : Parse β}
    (h : StopsAt t q) : StopsAt t (check kind >>= fun b => if b = true then p else q) := by
  refine stopsAt_check ?_
  simpa only [hkind, decide_false, Bool.false_eq_true, if_false] using h

theorem stopsAt_expect {kind : Kind} (hkind : t.kind ≠ kind) : StopsAt t (expect kind) :=
  stopsAt_check_ne hkind (stopsAt_unexpected _)

theorem skipNewlines_run (env : Env) (s : State) (h : s.token.kind ≠ .newline) :
    skipNewlines env s = .ok 0 s.filled := by
  unfold skipNewlines
  rw [loop_run, iterate_succ_run, bind_run, check_run]
  simp only [h, decide_false]
  rfl

theorem stopsAt_skipNewlines {f : Nat → Parse β} (hkind : t.kind ≠ .newline)
    (h : StopsAt t (f 0)) : StopsAt t (skipNewlines >>= f) := by
  intro env s hs
  have hskip := skipNewlines_run env s (by rw [hs]; exact hkind)
  rcases h env s.filled (by rw [State.token_filled, hs]) with ⟨e, u, he, hu, hfail⟩
  exact ⟨e, u, he, s.reads_filled.trans hu, by rw [bind_run, hskip]; exact hfail⟩

/-- A loop that fails in its first round fails. -/
theorem StopsAt.loop {step : α → Parse (α ⊕ β)} {start : α} (h : StopsAt t (step start)) :
    StopsAt t (loop start step) := by
  intro env s hs
  rcases h env s hs with ⟨e, u, he, hu, hfail⟩
  exact ⟨e, u, he, hu, by rw [loop_run, iterate_succ_run, hfail]⟩

/-- Entering a level looks at the current token first. -/
theorem StopsAt.nested_filled {p : Parse α} (h : StopsAt t p) (env : Env) (s : State)
    (hs : s.token = t) :
    ∃ e u, e.position = t.position ∧ s.filled.Reads u ∧ nested p env s = .error e u := by
  rw [nested_run]
  cases henter : env.guard.enter s.depth s.token.position with
  | error e =>
      exact ⟨e, s.filled, by rw [(enter_error henter).1, ← hs]; rfl, State.Reads.refl _, rfl⟩
  | ok depth =>
      have hdepth := (enter_ok henter).1
      rcases h env (s.filled.atDepth depth) (by rw [← hs]; exact s.token_filled) with
        ⟨e, u, he, ⟨n, rfl⟩, hfail⟩
      refine ⟨e, _, he, ?_, by simp only [hfail]; rfl⟩
      subst hdepth
      exact ⟨n, rfl⟩

theorem StopsAt.nested {p : Parse α} (h : StopsAt t p) : StopsAt t (nested p) := by
  intro env s hs
  rcases h.nested_filled env s hs with ⟨e, u, he, hu, hfail⟩
  exact ⟨e, u, he, s.reads_filled.trans hu, hfail⟩

theorem StopsAt.withTerminators {p : Parse α} (h : StopsAt t p) (isRelaxed : Bool) :
    StopsAt t (withTerminators isRelaxed p) := by
  intro env s hs
  rcases h env { s with isRelaxed } hs with ⟨e, u, he, ⟨n, rfl⟩, hfail⟩
  refine ⟨e, _, he, ⟨n, rfl⟩, ?_⟩
  rw [withTerminators_run, around, hfail]

/-! ### Expressions and patterns -/

/-- A token at which nothing can begin: the end of the text, a newline, a pipe
    operator, or the keyword of an else block. -/
def Barrier (t : Token) : Prop :=
  t.kind = .endOfInput ∨ t.kind = .newline ∨ t.kind = .pipe ∨ t.kind = .kwElse

theorem stopsAt_primary (h : Barrier t) (g : Grammar) : StopsAt t (primary g) := by
  refine stopsAt_current ?_
  rcases h with h | h | h | h <;> rw [h] <;> exact stopsAt_throw rfl

theorem stopsAt_operand (h : Barrier t) (g : Grammar) : StopsAt t (operand g) := by
  refine stopsAt_peekKind ?_
  have hnone : UnaryOp.ofKind? t.kind = none := by rcases h with h | h | h | h <;> rw [h] <;> rfl
  rw [hnone]
  exact (stopsAt_primary h g).bind _

theorem stopsAt_operation (h : Barrier t) (g : Grammar) : StopsAt t (operation g) :=
  (stopsAt_operand h g).bind _

theorem stopsAt_expression (h : Barrier t) (g : Grammar) : StopsAt t (expression g) :=
  ((stopsAt_operation h g).bind _).nested

theorem stopsAtEnd_segment (g : Grammar) (inPattern : Bool) : StopsAtEnd (segment g inPattern) := by
  intro t ht
  have hvalue : StopsAt t (segmentValue g inPattern) := by
    refine stopsAt_current ?_
    rw [ht]
    exact stopsAt_throw rfl
  exact hvalue.bind _

/-- What stands between the brackets of a bit string. -/
theorem stopsAtEnd_bits (g : Grammar) (inPattern : Bool) {f : List BitSegment → Parse α} :
    StopsAtEnd (segmentList g inPattern >>= f) := by
  intro t ht
  refine StopsAt.bind (stopsAt_skipNewlines (by rw [ht]; decide) ?_) f
  refine stopsAt_check_ne (by rw [ht]; decide) (StopsAt.loop ?_)
  exact (stopsAtEnd_segment g inPattern t ht).bind _

theorem stopsAt_pattern (h : Barrier t) (g : Grammar) : StopsAt t (pattern g) := by
  refine StopsAt.nested (stopsAt_current ?_)
  rcases h with h | h | h | h <;> rw [h] <;> exact stopsAt_throw rfl

theorem stopsAt_conditional (h : Barrier t) (g : Grammar) : StopsAt t (conditional g) :=
  (stopsAt_expect (by rcases h with h | h | h | h <;> rw [h] <;> decide)).bind _

/-! ### Statements -/

/-- A rule that fails at a token or declines, without taking it. -/
def HaltsAt (t : Token) (p : Attempt) : Prop :=
  ∀ (env : Env) (s : State), s.token = t →
    (∃ e u, e.position = t.position ∧ s.Reads u ∧ p env s = .error e u) ∨
      ∃ u, s.Reads u ∧ p env s = .ok none u

theorem StopsAt.haltsAt {p : Attempt} (h : StopsAt t p) : HaltsAt t p :=
  fun env s hs => .inl (h env s hs)

theorem haltsAt_decline : HaltsAt t decline :=
  fun _ s _ => .inr ⟨s, State.Reads.refl s, rfl⟩

theorem haltsAt_peekKind {f : Kind → Attempt} (h : HaltsAt t (f t.kind)) :
    HaltsAt t (peekKind 0 >>= f) := by
  intro env s hs
  have hrun : (peekKind 0 >>= f) env s = f t.kind env s.filled := by
    rw [bind_run, ← hs]
    rfl
  rw [hrun]
  rcases h env s.filled (by rw [State.token_filled, hs]) with ⟨e, u, he, hu, hfail⟩ | ⟨u, hu, hnone⟩
  · exact .inl ⟨e, u, he, s.reads_filled.trans hu, hfail⟩
  · exact .inr ⟨u, s.reads_filled.trans hu, hnone⟩

theorem haltsAt_check_ne {kind : Kind} (hkind : t.kind ≠ kind) {p q : Attempt}
    (h : HaltsAt t q) : HaltsAt t (check kind >>= fun b => if b = true then p else q) := by
  refine haltsAt_peekKind (f := fun k => if decide (k = kind) = true then p else q) ?_
  simpa only [hkind, decide_false, Bool.false_eq_true, if_false] using h

/-- A parser that gives an answer at a token and at most reads. -/
def AnswersAt (t : Token) (a : α) (p : Parse α) : Prop :=
  ∀ (env : Env) (s : State), s.token = t → ∃ u, s.Reads u ∧ p env s = .ok a u

theorem answersAt_pure (a : α) : AnswersAt t a (pure a) :=
  fun _ s _ => ⟨s, State.Reads.refl s, rfl⟩

theorem answersAt_current {f : Token → Parse α} {a : α} (h : AnswersAt t a (f t)) :
    AnswersAt t a (current >>= f) := by
  intro env s hs
  rcases h env s.filled (by rw [State.token_filled, hs]) with ⟨u, hu, hrun⟩
  exact ⟨u, s.reads_filled.trans hu, by rw [bind_run, current_run, hs]; exact hrun⟩

theorem answersAt_peekKind {f : Kind → Parse α} {a : α} (h : AnswersAt t a (f t.kind)) :
    AnswersAt t a (peekKind 0 >>= f) := answersAt_current (f := fun t => f t.kind) h

theorem Looks.bind_answersAt {p : Parse α} {f : α → Parse β} {b : β} (hp : Looks p)
    (hf : ∀ a, AnswersAt t b (f a)) : AnswersAt t b (p >>= f) := by
  intro env s hs
  rcases hp env s with ⟨a, v, hv, hrun⟩
  rcases hf a env v (by rw [hv.token_eq, hs]) with ⟨u, hu, hanswer⟩
  exact ⟨u, hv.trans hu, by rw [bind_run, hrun env.guard]; exact hanswer⟩

theorem AnswersAt.loop {step : α → Parse (α ⊕ β)} {start : α} {b : β}
    (h : AnswersAt t (.inr b) (step start)) : AnswersAt t b (loop start step) := by
  intro env s hs
  rcases h env s hs with ⟨u, hu, hrun⟩
  exact ⟨u, hu, by rw [loop_run, iterate_succ_run, hrun]⟩

theorem AnswersAt.lookahead {p : Parse α} {a : α} (h : AnswersAt t a p) :
    AnswersAt t a (lookahead p) := by
  intro env s hs
  rcases h env s hs with ⟨u, ⟨n, rfl⟩, hrun⟩
  refine ⟨_, ⟨n, rfl⟩, ?_⟩
  change (p >>= fun result => setCursor s.cursor >>= fun _ => pure result) env s = _
  rw [bind_run, hrun]
  rfl

/-- A rule behind a test that fails declines. -/
theorem AnswersAt.haltsAt {p : Parse Bool} {q : Attempt} (h : AnswersAt t false p) :
    HaltsAt t (p >>= fun b => if b = true then q else decline) := by
  intro env s hs
  rcases h env s hs with ⟨u, hu, hrun⟩
  exact .inr ⟨u, hu, by rw [bind_run, hrun]; rfl⟩

theorem looks_languages : Looks languages :=
  fun _ s => ⟨_, s, State.Reads.refl s, fun _ => rfl⟩

theorem haltsAt_codeBlock (h : Barrier t) : HaltsAt t codeBlock := by
  refine AnswersAt.haltsAt (answersAt_current ?_)
  refine (looks_peekKind 1).bind_answersAt fun next =>
    looks_languages.bind_answersAt fun table => ?_
  rcases h with h | h | h | h <;> rw [h] <;> exact answersAt_pure false

/-- The rule for assignments declines at the end of a line or a text, where no target begins. -/
theorem haltsAt_assignment (h : t.kind = .endOfInput ∨ t.kind = .newline) (g : Grammar) :
    HaltsAt t (assignment g) := by
  refine AnswersAt.haltsAt fun env s hs => ?_
  have hloop : AnswersAt t false
      (Parse.lookahead (Parse.loop 0 (seekAssignment s.isRelaxed))) := by
    refine AnswersAt.lookahead (AnswersAt.loop (answersAt_peekKind ?_))
    have hglance : glance s.isRelaxed 0 t.kind = .absent := by
      rcases h with h | h <;> rw [h] <;> rfl
    rw [hglance]
    exact answersAt_pure _
  exact hloop env s hs

/-- A rule that begins with a name declines where none stands. -/
theorem answersAt_nameThen (h : Barrier t) (test : Kind → Bool) :
    AnswersAt t false (nameThen test) := by
  refine answersAt_peekKind ?_
  rcases h with h | h | h | h <;> rw [h] <;> exact answersAt_pure false

/-- An assignment is looked for over an amount of text that nothing bounds, so its
    rule halts only where that text is at its end. -/
def Excused (t : Token) (settings : HandlerSettings) : Prop :=
  settings.construct = .assignment → t.kind = .endOfInput ∨ t.kind = .newline

/-- At a token where no expression begins, rules without a keyword decline or fail without having
    gone on. What they look for first is not there. -/
theorem haltsAt_rule {g : Grammar} (hexpression : StopsAt t g.expression) (h : Barrier t)
    {settings : HandlerSettings} (hexcused : Excused t settings)
    (hkeyword : settings.construct.keyword? = none) : HaltsAt t (Handler.rule settings g) := by
  unfold Handler.rule
  cases hconstruct : settings.construct with
  | conditional | select | forIn | numericFor | whileLoop | breakLoop | continueLoop | block =>
      rw [hconstruct] at hkeyword
      cases hkeyword
  | codeBlock => exact haltsAt_codeBlock h
  | assignment => exact haltsAt_assignment (hexcused hconstruct) g
  | languageCall => exact (answersAt_nameThen h _).haltsAt
  | fieldAccess => exact (answersAt_nameThen h _).haltsAt
  | builtinCall =>
      exact haltsAt_check_ne (by rcases h with h | h | h | h <;> rw [h] <;> decide) haltsAt_decline
  | expression =>
      have hpipe : StopsAt t (pipeExpression g) := hexpression.bind _
      have hstatement : StopsAt t (expressionStatement g) := hpipe.bind _
      exact (hstatement.bind _).haltsAt

/-- So do handlers. Those of constructs with a keyword decline since the keyword is not there. -/
theorem haltsAt_builtin {g : Grammar} (hexpression : StopsAt t g.expression) (h : Barrier t)
    {settings : HandlerSettings} (hexcused : Excused t settings) :
    HaltsAt t ((Handler.builtin settings).parse g) := by
  cases hkeyword : settings.construct.keyword? with
  | none =>
      have hrule := haltsAt_rule hexpression h hexcused hkeyword
      rwa [Handler.builtin, hkeyword]
  | some kind =>
      have hne : t.kind ≠ kind := by
        have hproper : kind ≠ .endOfInput ∧ kind ≠ .newline ∧ kind ≠ .pipe ∧ kind ≠ .kwElse := by
          cases hconstruct : settings.construct <;> rw [hconstruct] at hkeyword <;>
            cases hkeyword <;> decide
        rcases h with h | h | h | h <;> rw [h]
        · exact hproper.1.symm
        · exact hproper.2.1.symm
        · exact hproper.2.2.1.symm
        · exact hproper.2.2.2.symm
      rw [Handler.builtin, hkeyword]
      exact haltsAt_check_ne hne haltsAt_decline

/-- Entering a level reads nothing but the current token, so a rule still halts where it
    stands. -/
theorem HaltsAt.nested {p : Attempt} (h : HaltsAt t p) : HaltsAt t (nested p) := by
  intro env s hs
  rw [nested_run]
  cases henter : env.guard.enter s.depth s.token.position with
  | error e =>
      exact .inl ⟨e, s.filled, by rw [(enter_error henter).1, ← hs]; rfl, s.reads_filled, rfl⟩
  | ok depth =>
      have hdepth := (enter_ok henter).1
      rcases h env (s.filled.atDepth depth) (by rw [← hs]; exact s.token_filled) with
        ⟨e, u, he, ⟨n, rfl⟩, hfail⟩ | ⟨u, ⟨n, rfl⟩, hnone⟩
      · refine .inl ⟨e, _, he, ?_, by simp only [hfail]; rfl⟩
        subst hdepth
        exact s.reads_filled.trans ⟨n, rfl⟩
      · refine .inr ⟨_, ?_, by simp only [hnone]; rfl⟩
        subst hdepth
        exact s.reads_filled.trans ⟨n, rfl⟩

/-- If every handler halts at a token, so does asking them one after the other. -/
theorem stopsAt_tryHandlers {g : Grammar} {handlers : List Handler}
    (h : ∀ handler ∈ handlers, HaltsAt t (handler.parse g)) (env : Env) (s : State)
    (hs : s.token = t) :
    ∃ e u, e.position = t.position ∧ s.Reads u ∧
      tryHandlers g t s.cursor handlers env s = .error e u := by
  induction handlers generalizing s with
  | nil => exact ⟨_, s, rfl, State.Reads.refl s, rfl⟩
  | cons handler rest ih =>
      unfold tryHandlers
      rw [bind_run]
      rcases (h handler List.mem_cons_self).nested env s hs with
        ⟨e, u, he, hu, hfail⟩ | ⟨u, ⟨n, rfl⟩, hnone⟩
      · exact ⟨e, u, he, hu, by rw [hfail]⟩
      · have hreads : s.Reads { s with buffer := s.buffer.readMore n } := ⟨n, rfl⟩
        rcases ih (fun other hmem => h other (List.mem_cons_of_mem _ hmem)) _
          (by rw [hreads.token_eq, hs]) with ⟨e, u, he, hu, hfail⟩
        exact ⟨e, u, he, hreads.trans hu, by rw [hnone]; exact hfail⟩

end Parse

namespace Registry

/-- All handlers of a registry are handlers of the language. -/
def IsBuiltin (r : Registry) : Prop :=
  ∀ h ∈ r.handlers.toList, ∃ settings, h = Handler.builtin settings

/-- A registry made of settings holds only handlers of the language. -/
theorem isBuiltin_ofSettings (s : Settings) : (ofSettings s).IsBuiltin := by
  have hfold : ∀ (entries : List HandlerSettings) (r : Registry), r.IsBuiltin →
      (entries.foldl (fun r h => r.register (Handler.builtin h)) r).IsBuiltin := by
    intro entries
    induction entries with
    | nil => exact fun _ hr => hr
    | cons entry entries ih =>
        intro r hr
        refine ih _ fun h hmem => ?_
        simp only [register, Array.toList_push, List.mem_append, List.mem_singleton] at hmem
        rcases hmem with hmem | rfl
        · exact hr h hmem
        · exact ⟨entry, rfl⟩
  exact hfold s.handlers _ fun h hmem => by cases hmem

theorem mem_of_mem_select {handlers : Array Handler} {indices : List Nat} {h : Handler}
    (hmem : h ∈ select handlers indices) : h ∈ handlers.toList := by
  rcases List.mem_filterMap.1 hmem with ⟨i, _, hi⟩
  exact Array.mem_toList_iff.2 (Array.mem_of_getElem? hi)

/-- A candidate for a window is one of the handlers, and its filter lets the
    leading token pass. -/
theorem mem_candidates {r : Registry} {first : Token} {rest : List Token} {h : Handler}
    (hmem : h ∈ r.candidates (first :: rest)) :
    h ∈ r.handlers.toList ∧ h.canHandle first = true := by
  simp only [candidates, List.mem_mergeSort, List.mem_filter, isCandidate, Bool.and_eq_true] at hmem
  exact ⟨mem_of_mem_select hmem.1, hmem.2.1.2⟩

theorem mem_fallbacks {r : Registry} {h : Handler} (hmem : h ∈ r.fallbacks) :
    h ∈ r.handlers.toList ∧ h.settings.fallback = true := by
  simp only [fallbacks, List.mem_mergeSort, List.mem_filter, Bool.and_eq_true] at hmem
  exact ⟨hmem.1, hmem.2.2⟩

/-- Where a token is not the end of a line, no handler for assignments is asked. -/
def ExcusedAt (t : Token) (r : Registry) : Prop :=
  ∀ settings, Handler.builtin settings ∈ r.handlers.toList →
    (Handler.leadingFilter settings t = true ∨ settings.fallback = true) → Parse.Excused t settings

theorem excusedAt_end {t : Token} (ht : t.kind = .endOfInput) (r : Registry) : r.ExcusedAt t :=
  fun _ _ _ _ => .inl ht

end Registry

namespace Parse

variable {t : Token}

/-- Dispatching looks at a window and asks the handlers for it. -/
theorem dispatch_run (registry : Registry) (g : Grammar) (s : State) :
    ∃ u, s.Reads u ∧ (0 < registry.windowSize → u.filled = u) ∧
      ∀ env, dispatch registry g env s =
        (match s.buffer.tokensFrom s.cursor registry.windowSize with
      | [] => unexpected "statement"
      | first :: _ => tryHandlers g first s.cursor (registry.candidates
          (s.buffer.tokensFrom s.cursor registry.windowSize) ++ registry.fallbacks)) env u := by
  rcases window_run registry.windowSize s with ⟨u, hu, hready, hwindow⟩
  refine ⟨u, hu, hready, fun env => ?_⟩
  change (window registry.windowSize >>= fun pending => match pending with
    | [] => unexpected "statement"
    | first :: _ => tryHandlers g first s.cursor
        (registry.candidates pending ++ registry.fallbacks)) env s = _
  rw [bind_run, hwindow env]

theorem tokensFrom_head (s : State) {count : Nat} (h : 0 < count) :
    ∃ rest, s.buffer.tokensFrom s.cursor count = s.token :: rest := by
  obtain ⟨n, rfl⟩ : ∃ n, count = n + 1 := ⟨count - 1, by omega⟩
  rw [TokenBuffer.tokensFrom]
  split
  · exact ⟨_, rfl⟩
  · exact ⟨_, rfl⟩

/-- A window holds the current token if it holds any. So dispatching asks the handlers for a
    window that begins with this token, or it has no window and asks none. -/
theorem dispatch_cases (registry : Registry) (g : Grammar) (s : State) :
    ∃ u, s.Reads u ∧ ((∀ env, dispatch registry g env s = unexpected "statement" env u) ∨
      u.filled = u ∧ ∃ rest, ∀ env, dispatch registry g env s = tryHandlers g u.token u.cursor
        (registry.candidates (u.token :: rest) ++ registry.fallbacks) env u) := by
  rcases dispatch_run registry g s with ⟨u, hu, hready, hrun⟩
  refine ⟨u, hu, ?_⟩
  rcases Nat.eq_zero_or_pos registry.windowSize with hnone | hpos
  · refine .inl fun env => ?_
    rw [hrun, hnone]
    rfl
  · rcases tokensFrom_head s hpos with ⟨rest, hrest⟩
    have hcursor : u.cursor = s.cursor := by rcases hu with ⟨n, rfl⟩; rfl
    refine .inr ⟨hready hpos, rest, fun env => ?_⟩
    rw [hrun, hrest, ← hcursor, ← hu.token_eq]

/-- All handlers that a dispatcher asks are handlers of the language. -/
theorem isBuiltin_asked {registry : Registry} (hbuiltin : registry.IsBuiltin) {first : Token}
    {rest : List Token} {h : Handler}
    (hmem : h ∈ registry.candidates (first :: rest) ++ registry.fallbacks) :
    ∃ settings, h = Handler.builtin settings := by
  rcases List.mem_append.1 hmem with hmem | hmem
  · exact hbuiltin h (Registry.mem_candidates hmem).1
  · exact hbuiltin h (Registry.mem_fallbacks hmem).1

/-- The dispatcher fails at the token where it stands if all candidates halt there: some of them
    fail, or all decline and there is no handler left. -/
theorem stopsAt_dispatch {registry : Registry} (hbuiltin : registry.IsBuiltin)
    (hexcused : registry.ExcusedAt t) {g : Grammar} (h : Barrier t)
    (hexpression : StopsAt t g.expression) : StopsAt t (dispatch registry g) := by
  have hhalts : ∀ rest, ∀ handler ∈ registry.candidates (t :: rest) ++ registry.fallbacks,
      HaltsAt t (handler.parse g) := by
    intro rest handler hmem
    -- A handler that is asked is a candidate for the token or a fallback.
    have hasked : handler ∈ registry.handlers.toList ∧
        (handler.canHandle t = true ∨ handler.settings.fallback = true) := by
      rcases List.mem_append.1 hmem with hmem | hmem
      · exact ⟨(Registry.mem_candidates hmem).1, .inl (Registry.mem_candidates hmem).2⟩
      · exact ⟨(Registry.mem_fallbacks hmem).1, .inr (Registry.mem_fallbacks hmem).2⟩
    rcases hbuiltin handler hasked.1 with ⟨settings, rfl⟩
    exact haltsAt_builtin hexpression h (hexcused settings hasked.1 hasked.2)
  intro env s hs
  rcases dispatch_cases registry g s with ⟨u, hu, hrun | ⟨-, rest, hrun⟩⟩
  · rcases stopsAt_unexpected "statement" env u (by rw [hu.token_eq, hs]) with
      ⟨e, v, he, hv, hfail⟩
    exact ⟨e, v, he, hu.trans hv, (hrun env).trans hfail⟩
  · rw [hu.token_eq, hs] at hrun
    rcases stopsAt_tryHandlers (hhalts rest) env u (by rw [hu.token_eq, hs]) with
      ⟨e, v, he, hv, hfail⟩
    exact ⟨e, v, he, hu.trans hv, (hrun env).trans hfail⟩

end Parse

namespace Grammar

/-- All parts of a grammar fail at a token, without taking it. -/
structure StopsAt (t : Token) (g : Grammar) : Prop where
  expression : Parse.StopsAt t g.expression
  operand : Parse.StopsAt t g.operand
  pattern : Parse.StopsAt t g.pattern
  statement : Parse.StopsAt t g.statement
  conditional : Parse.StopsAt t g.conditional

/-- All parts of a grammar fail at the end of the text. -/
def StopsAtEnd (g : Grammar) : Prop := ∀ t : Token, t.kind = .endOfInput → g.StopsAt t

theorem stopsAt_above {t : Token} (h : Parse.Barrier t) {registry : Registry}
    (hbuiltin : registry.IsBuiltin) (hexcused : registry.ExcusedAt t) {g : Grammar}
    (hg : g.StopsAt t) : (above registry g).StopsAt t where
  expression := Parse.stopsAt_expression h g
  operand := Parse.stopsAt_operand h g
  pattern := Parse.stopsAt_pattern h g
  statement := Parse.stopsAt_dispatch hbuiltin hexcused h hg.expression
  conditional := Parse.stopsAt_conditional h g

theorem stopsAt_level {t : Token} (h : Parse.Barrier t) {registry : Registry}
    (hbuiltin : registry.IsBuiltin) (hexcused : registry.ExcusedAt t) (n : Nat) :
    (level registry n).StopsAt t := by
  induction n with
  | zero =>
      exact ⟨Parse.stopsAt_exhausted, Parse.stopsAt_exhausted, Parse.stopsAt_exhausted,
        Parse.stopsAt_exhausted, Parse.stopsAt_exhausted⟩
  | succ n ih => exact stopsAt_above h hbuiltin hexcused ih

theorem stopsAtEnd_level {registry : Registry} (hbuiltin : registry.IsBuiltin) (n : Nat) :
    (level registry n).StopsAtEnd :=
  fun _ ht => stopsAt_level (.inl ht) hbuiltin (Registry.excusedAt_end ht registry) n

end Grammar

end PolyScript
