import PolyScript.Proofs.Environments
import PolyScript.Proofs.Positions

/-!
# Laxer Guards

Two parses of one text under the same settings, but for the nesting guard. The
guard of the second lets every construct pass that the guard of the first lets
pass. Then the parses run in step, up to the moment when the first guard objects,
so a parse that is not stopped by its guard comes to the same result under the
laxer one.

What could go wrong is a lexical error. The guard looks at the current token,
which may be the feigned end of the text, and if it objects there then its error
is overruled by the lexical one. The laxer guard does not object, and the parse
goes on at the feigned end; but nothing can be parsed there, so it fails at the
same place and is overruled in the same way. `Parse.Barred` keeps track of this.

## Main definitions

* `Parse.Laxer`: A guard that lets pass what another one lets pass.
* `Parse.Barred`: The first parse has been stopped by its guard.
* `Parse.InStep`: The outcomes of both parses agree, or the first was barred.

## Theorems

* `Parse.inStep_nested`: Entering a level.
* `Parse.inStep_of_alike`: Derived parsers run in step.
* `guard_monotone`: A parse that is not stopped comes to the same result under a
  laxer guard.
-/

namespace PolyScript

namespace Parse

/-- A guard that lets pass whatever the guard of an environment lets pass. -/
def Laxer (env : Env) (guard : Guard) : Prop :=
  ∀ depth next p, env.guard.enter depth p = .ok next → guard.enter depth p = .ok next

variable {α β : Type}

/-- The first parse was stopped by its guard. If a lexical error overrules it, then
    the second failed at the same place. -/
def Barred (r r' : EStateM.Result ParseError State α) : Prop :=
  ∃ depth p t, r = .error (.tooDeep depth p) t ∧
    ∀ lex, t.buffer.lexError? = some lex → lex.position.offset ≤ p.offset →
      ∃ e u, r' = .error e u ∧ e.position = p ∧ u.buffer = t.buffer ∧ u.cursor = t.cursor

/-- Both parses have the same outcome, or the first was stopped by its guard. -/
def InStep (r r' : EStateM.Result ParseError State α) : Prop := r' = r ∨ Barred r r'

theorem InStep.refl (r : EStateM.Result ParseError State α) : InStep r r := .inl rfl

/-- Spending a budget stops both parses at the same place. -/
theorem inStep_tooDeep (depth depth' : Nat) (p : Position) (t : State) :
    InStep (.error (.tooDeep depth p) t : EStateM.Result ParseError State α)
      (.error (.tooDeep depth' p) t) :=
  .inr ⟨depth, p, t, rfl, fun _ _ _ => ⟨_, t, rfl, rfl, rfl, rfl⟩⟩

variable {env : Env} {guard : Guard} {s : State}

/-- Two parsers in a row run in step if both do. If the first guard has objected in the first one
    then the second one is not run, and the barred parse stays barred. -/
theorem InStep.bind {p : Parse α} {f : α → Parse β}
    (hp : InStep (p env s) (p { env with guard } s))
    (hf : ∀ a t, p env s = .ok a t → InStep (f a env t) (f a { env with guard } t)) :
    InStep ((p >>= f) env s) ((p >>= f) { env with guard } s) := by
  rw [bind_run, bind_run]
  rcases hp with heq | ⟨depth, q, t, hrun, hlex⟩
  · rw [heq]
    cases hrun : p env s with
    | ok a t => exact hf a t hrun
    | error e t => exact .refl _
  · rw [hrun]
    refine .inr ⟨depth, q, t, rfl, fun lex hpending hle => ?_⟩
    rcases hlex lex hpending hle with ⟨e, u, hrun', he, hbuffer, hcursor⟩
    exact ⟨e, u, by rw [hrun'], he, hbuffer, hcursor⟩

/-- A wrapper changes what both parses leave in the same way. -/
theorem InStep.around {p : Parse α} (before after : State → State)
    (hp : InStep (p env (before s)) (p { env with guard } (before s)))
    (hbuffer : ∀ t u : State, u.buffer = t.buffer → u.cursor = t.cursor →
      (after u).buffer = (after t).buffer ∧ (after u).cursor = (after t).cursor)
    (hpending : ∀ (t : State) (lex : LexError), (after t).buffer.lexError? = some lex →
      t.buffer.lexError? = some lex) :
    InStep (around before after p env s) (around before after p { env with guard } s) := by
  unfold Parse.around
  rcases hp with heq | ⟨depth, q, t, hrun, hlex⟩
  · rw [heq]
    exact .refl _
  · rw [hrun]
    refine .inr ⟨depth, q, after t, rfl, fun lex hafter hle => ?_⟩
    rcases hlex lex (hpending t lex hafter) hle with ⟨e, u, hrun', he, hb, hc⟩
    rw [hrun']
    exact ⟨e, after u, rfl, he, (hbuffer t u hb hc).1, (hbuffer t u hb hc).2⟩

/-- A lexical error that does not stand behind the current token is feigned to be
    the end of the text there. -/
theorem State.Sound.token_of_lexError {source : String} (h : s.Sound source) {lex : LexError}
    (hlex : s.filled.buffer.lexError? = some lex)
    (hle : lex.position.offset ≤ s.token.position.offset) :
    s.token.kind = .endOfInput ∧ s.filled.buffer.finished = true := by
  rcases Option.map_eq_some_iff.1 hlex with ⟨⟨i, e⟩, hfailure, rfl⟩
  rcases h.filled.buffer.failed i e hfailure with ⟨hfinished, _, ts, hall, _⟩
  refine ⟨?_, hfinished⟩
  have hmem : s.token ∈ s.filled.buffer.tokens.toList :=
    Array.mem_toList_iff.2 (Array.mem_of_getElem? h.getElem?_filled)
  have hordered := h.filled.buffer.ascending
  rw [hall] at hmem hordered
  rcases List.mem_append.1 hmem with hbefore | hlast
  · have hlt := (List.pairwise_append.1 hordered).2.2 _ hbefore _ (List.mem_singleton_self _)
    exact absurd hle (Nat.not_le.2 hlt)
  · rw [List.mem_singleton.1 hlast]
    rfl

/-- If the guard of the first parse objects, and to the feigned end of the text, then
    it is enough that the second fails there. -/
theorem barred_of_enter {r' : EStateM.Result ParseError State α} (hs : s.Sound env.source)
    {e : ParseError} (henter : env.guard.enter s.depth s.token.position = .error e)
    (hstop : s.token.kind = .endOfInput →
      ∃ e u, e.position = s.token.position ∧ s.filled.Reads u ∧ r' = .error e u) :
    Barred (.error e s.filled) r' := by
  cases (enter_error henter).1
  refine ⟨_, _, s.filled, rfl, fun lex hlex hle => ?_⟩
  rcases hs.token_of_lexError hlex hle with ⟨hend, hfinished⟩
  rcases hstop hend with ⟨e, u, he, ⟨n, rfl⟩, hfail⟩
  exact ⟨e, _, hfail, he, TokenBuffer.readMore_finished hfinished n, rfl⟩

/-- Entering a level that both guards let pass. -/
theorem inStep_entered {p : Parse α} (hlaxer : Laxer env guard) {depth : Nat}
    (henter : env.guard.enter s.depth s.token.position = .ok depth)
    (hp : InStep (p env (s.filled.atDepth depth)) (p { env with guard } (s.filled.atDepth depth))) :
    InStep (nested p env s) (nested p { env with guard } s) := by
  rw [nested_entered henter, nested_entered (hlaxer _ _ _ henter)]
  exact InStep.around (fun t => t.atDepth depth) (fun t => t.atDepth (Guard.exit t.depth)) hp
    (fun _ _ hbuffer hcursor => ⟨hbuffer, hcursor⟩) fun _ _ h => h

/-- Entering a level runs in step. If only the first guard objects then the laxer parse goes on,
    and whatever it finds, the first one is barred from there. -/
theorem inStep_nested {p : Parse α} (hlaxer : Laxer env guard) (hs : s.Sound env.source)
    (hstop : StopsAtEnd p)
    (hp : ∀ depth, InStep (p env (s.filled.atDepth depth))
      (p { env with guard } (s.filled.atDepth depth))) :
    InStep (nested p env s) (nested p { env with guard } s) := by
  cases henter : env.guard.enter s.depth s.token.position with
  | ok depth => exact inStep_entered hlaxer henter (hp depth)
  | error e =>
      rw [nested_run p env s, henter]
      exact .inr (barred_of_enter hs henter fun hend =>
        (hstop s.token hend).nested_filled { env with guard } s rfl)

/-! ### Derived parsers -/

/-- All parts of a grammar run in step from sound states. -/
structure KeepsStep (env : Env) (guard : Guard) (g : Grammar) : Prop where
  expression : ∀ s : State, s.Sound env.source →
    InStep (g.expression env s) (g.expression { env with guard } s)
  operand : ∀ s : State, s.Sound env.source →
    InStep (g.operand env s) (g.operand { env with guard } s)
  pattern : ∀ s : State, s.Sound env.source →
    InStep (g.pattern env s) (g.pattern { env with guard } s)
  statement : ∀ s : State, s.Sound env.source → s.token.kind ≠ .newline →
    InStep (g.statement env s) (g.statement { env with guard } s)
  conditional : ∀ s : State, s.Sound env.source →
    InStep (g.conditional env s) (g.conditional { env with guard } s)

theorem inStep_scan {p : Parse α} (h : Scans p) : InStep (p env s) (p { env with guard } s) := by
  rcases h env s with ⟨a, t, _, hrun⟩ | ⟨t, _, hrun⟩
  · have hfirst := hrun env.guard
    rw [hrun guard, hfirst]
    exact .refl _
  · have hfirst := hrun env.guard
    rw [hrun guard, hfirst]
    exact inStep_tooDeep _ _ _ _

/-- Derived parsers run in step, if the grammar they are read against does. Two runs of one
    parser are compared here, and most rules of a derivation only hand on what holds of their
    parts. The guard is asked where a level is entered. -/
theorem inStep_of_alike {g : Grammar} {γ : View} {m : α → α}
    {p q : Parse α} {Q : α → View → Prop} (hlaxer : Laxer env guard)
    (hplaced : (placing env).Keeps g) (hg : KeepsStep env guard g)
    (h : Alike (Position.IsPlace env.source.toList) True ⟨0, 0⟩ g g γ m p q Q)
    (hs : (placing env).inv γ s) : InStep (p env s) (p { env with guard } s) := by
  have hsource : ({ env with guard } : Env).source = env.source := rfl
  -- Both parses run the same parser, so only the guard can tell them apart, and it is asked
  -- where a level is entered.
  induction h generalizing s with
  | weaken _ _ ih => exact ih hs
  | pure => exact .refl _
  | bind hp _ ihp ihf =>
      refine (ihp hs).bind fun a t hrun => ?_
      rcases Discipline.exists_view hplaced hp hs hrun with ⟨γ', hR, ht⟩
      exact ihf a γ' hR ht
  | throw => exact .refl _
  | giveUp hend _ ih => exact ih ((placing env).spend hs hend)
  | stop hahead _ _ ih => exact ih _ rfl ((placing env).revive hs hahead)
  | exhaust _ _ _ _ _ _ ih => exact ih hs
  | peek n _ _ _ ih =>
      rw [bind_run, bind_run, peekKind_run, peekKind_run, hs.2 n]
      exact ih ((placing env).reads hs ⟨_, rfl⟩)
  | current _ _ ih =>
      rw [bind_run, bind_run, current_run, current_run]
      exact ih s.token hs.2.token (fun _ => hs.1.place.1) (Discipline.filled hs)
  | @refuse γ α m f q Q hend hf =>
      rcases hf s.token (by rw [hs.2.token, hend]) with ⟨e, he, _⟩
      have hrun : ∀ env : Env, (current >>= f) env s = .error e s.filled := by
        intro env
        rw [bind_run, current_run]
        exact congrFun (congrFun he env) s.filled
      rw [hrun, hrun]
      exact .refl _
  | languages _ _ ih => exact ih _ hs
  | state _ ih => exact ih s.isRelaxed s.loopDepth hs
  | scan _ hsurvey _ => exact inStep_scan hsurvey.scans
  | allowed _ _ _ _ ih => exact ih hs
  | take => exact .refl _
  | takeOpener => exact .refl _
  | takeNewline => exact .refl _
  | closing => exact .inl (indifferent_expectClosing _ _ s)
  | literal => exact .inl (indifferent_literal hsource s)
  | @loop γ α β m n a b f f' I Q _ hstart hf ih =>
      -- The budget is the same for both loops, as it depends on the text alone.
      have hrounds : ∀ n a γ s, I a γ → (placing env).inv γ s →
          InStep (iterate f n a env s) (iterate f n a { env with guard } s) := by
        intro n
        induction n with
        | zero => exact fun _ _ _ _ _ => inStep_tooDeep _ _ _ _
        | succ n ihn =>
            intro a γ s ha hs
            refine (ih a γ ha hs).bind fun r t hrun => ?_
            rcases Discipline.exists_view hplaced (hf a γ ha) hs hrun with ⟨γ', hr, ht⟩
            cases r with
            | inl next => exact ihn next γ' t hr ht
            | inr => exact .refl _
      exact hrounds _ a γ s hstart hs
  | nested hstop _ ih =>
      exact inStep_nested hlaxer hs.1 hstop fun depth =>
        ih ((placing env).frame depth s.loopDepth s.isRelaxed (Discipline.filled hs))
  | inLoop _ ih =>
      exact .around _ _ (ih ((placing env).frame s.depth (s.loopDepth + 1) s.isRelaxed hs))
        (fun _ _ hbuffer hcursor => ⟨hbuffer, hcursor⟩) fun _ _ h => h
  | terminators isRelaxed _ ih =>
      exact InStep.around (fun s => { s with isRelaxed })
        (fun t => { t with isRelaxed := s.isRelaxed })
        (ih ((placing env).frame s.depth s.loopDepth isRelaxed hs))
        (fun _ _ hbuffer hcursor => ⟨hbuffer, hcursor⟩) fun _ _ h => h
  | size hlive hstage _ _ ih =>
      rcases (placing env).sizeOn hs hlive hstage with ⟨κ, hon⟩
      refine .around _ _ (ih κ hon) (fun t u hbuffer hcursor => ?_) fun t lex hlex => ?_
      · refine ⟨?_, hcursor⟩
        rw [switchSizeMode, switchSizeMode, hbuffer, hcursor]
      · exact TokenBuffer.lexError?_setSizeMode hlex
  | expression => exact hg.expression s hs.1
  | operand => exact hg.operand s hs.1
  | pattern => exact hg.pattern s hs.1
  | statement _ _ hnewline _ => exact hg.statement s hs.1 (by rw [hs.2.token]; exact hnewline)
  | conditional => exact hg.conditional s hs.1
  | guest => exact .inl (indifferent_guestBody hsource _ _ _ s)

/-! ### The grammar -/

/-- Asking handlers in order. At the end of the text none of them accepts anything,
    so the second parse comes to nothing if the first is barred there. -/
theorem inStep_tryHandlers {g : Grammar} (hlaxer : Laxer env guard)
    (hplaced : (placing env).Keeps g) (hg : KeepsStep env guard g) (hproper : g.Proper)
    {handlers : List Handler} (hbuiltin : ∀ h ∈ handlers, ∃ settings, h = Handler.builtin settings)
    (hs : s.Sound env.source) (hready : s.filled = s) (hnewline : s.token.kind ≠ .newline) :
    InStep (tryHandlers g s.token s.cursor handlers env s)
      (tryHandlers g s.token s.cursor handlers { env with guard } s) := by
  induction handlers generalizing s with
  | nil => exact .refl _
  | cons handler rest ih =>
      cases henter : env.guard.enter s.depth s.token.position with
      | error e =>
          have hfirst :
              tryHandlers g s.token s.cursor (handler :: rest) env s = .error e s.filled := by
            unfold tryHandlers
            rw [bind_run, nested_run, henter]
          -- The first parse is barred here. At the feigned end of a text no handler would accept
          -- anything, so the second one fails as well.
          rw [hfirst]
          refine .inr (barred_of_enter hs henter fun hend => ?_)
          have hhalts : ∀ h ∈ handler :: rest, HaltsAt s.token (h.parse g) := by
            intro h hmem
            rcases hbuiltin h hmem with ⟨settings, rfl⟩
            exact haltsAt_builtin (hproper.stops s.token hend).expression (.inl hend)
              fun _ => .inl hend
          rw [hready]
          exact stopsAt_tryHandlers hhalts { env with guard } s rfl
      | ok depth =>
          rcases hbuiltin handler List.mem_cons_self with ⟨settings, rfl⟩
          unfold tryHandlers
          refine (inStep_entered hlaxer henter ?_).bind fun answer t hrun => ?_
          · have hstart : (placing env).inv
                (View.start fun n => (s.buffer.tokenAt (s.cursor + n)).kind)
                (s.filled.atDepth depth) :=
              (placing env).frame depth s.loopDepth s.isRelaxed (Discipline.filled ⟨hs, s.sees⟩)
            exact inStep_of_alike hlaxer hplaced hg (alike_builtin
              (γ := View.start fun n => (s.buffer.tokenAt (s.cursor + n)).kind) hproper rfl
              fun _ => hnewline) hstart
          · cases answer with
            | some statement =>
                change InStep ((if (!t.isRelaxed) = true then expectTerminator >>= fun _ =>
                  pure statement else pure statement : Parse Statement) env t)
                  ((if (!t.isRelaxed) = true then expectTerminator >>= fun _ =>
                  pure statement else pure statement : Parse Statement) { env with guard } t)
                split
                · exact .inl (indifferent_expectTerminator.bind (fun _ => indifferent_pure _) t)
                · exact .refl _
            | none =>
                have hreads : s.Reads t := (quiet_builtin settings g).nested env s t hrun
                have hnext := ih (fun h hmem => hbuiltin h (List.mem_cons_of_mem _ hmem))
                  (hs.reads hreads) (hreads.filled_eq hready)
                  (by rw [hreads.token_eq]; exact hnewline)
                rw [hreads.token_eq] at hnext
                rcases hreads with ⟨n, rfl⟩
                exact hnext

/-- Dispatching runs in step. Both parses ask the same handlers in the same order, as the guard
    has no say in that. -/
theorem inStep_dispatch {registry : Registry} (hbuiltin : registry.IsBuiltin) {g : Grammar}
    (hlaxer : Laxer env guard) (hplaced : (placing env).Keeps g) (hg : KeepsStep env guard g)
    (hproper : g.Proper) (hs : s.Sound env.source) (hnewline : s.token.kind ≠ .newline) :
    InStep (dispatch registry g env s) (dispatch registry g { env with guard } s) := by
  rcases dispatch_cases registry g s with ⟨u, hu, hrun | ⟨hready, rest, hrun⟩⟩
  · rw [hrun, hrun]
    exact .refl _
  · rw [hrun, hrun]
    exact inStep_tryHandlers hlaxer hplaced hg hproper (fun h => isBuiltin_asked hbuiltin)
      (hs.reads hu) hready (by rw [hu.token_eq]; exact hnewline)

/-- Every level of the grammar runs in step. -/
theorem keepsStep_level {registry : Registry} (hbuiltin : registry.IsBuiltin)
    (hlaxer : Laxer env guard) (n : Nat) : KeepsStep env guard (Grammar.level registry n) := by
  induction n with
  | zero =>
      -- On the lowest level nothing is parsed, and both report that the nesting is too deep.
      have hbottom : ∀ (α : Type) (s : State),
          InStep ((exhausted : Parse α) env s) ((exhausted : Parse α) { env with guard } s) :=
        fun _ _ => inStep_tooDeep _ _ _ _
      exact ⟨fun s _ => hbottom _ s, fun s _ => hbottom _ s, fun s _ => hbottom _ s,
        fun s _ _ => hbottom _ s, fun s _ => hbottom _ s⟩
  | succ n ih =>
      have hproper := Grammar.proper_level hbuiltin n
      have hplaced := (placing env).keeps_level hbuiltin n
      have hderived : ∀ {α : Type} {p : Parse α} {m : α → α} {Q : (Nat → Kind) → α → View → Prop},
          (∀ κ, Alike (Position.IsPlace env.source.toList) True ⟨0, 0⟩ (Grammar.level registry n)
            (Grammar.level registry n) ((View.start κ).seeing κ) m p p (Q κ)) →
          ∀ s : State, s.Sound env.source → InStep (p env s) (p { env with guard } s) :=
        fun h s hs => inStep_of_alike hlaxer hplaced ih (h _) ⟨hs, s.sees⟩
      -- One level higher, each rule is alike to itself, and so it runs in step.
      exact {
        expression := hderived fun κ => alike_expression hproper
        operand := hderived fun κ => alike_operand hproper
        pattern := hderived fun κ => alike_pattern hproper
        statement := fun s hs hnewline =>
          inStep_dispatch hbuiltin hlaxer hplaced ih hproper hs hnewline
        conditional := hderived fun κ => alike_conditional hproper rfl }

/-! ### Whole texts -/

/-- An outcome under a guard with a limit, and one under a laxer guard. They are the
    same, unless the guard stopped the first; and then it named its limit. -/
def GuardAllows (limit : Nat) (r r' : Except ParseError α) : Prop :=
  ((∀ depth p, r ≠ .error (.tooDeep depth p)) → r' = r) ∧
    ∀ depth p, r = .error (.tooDeep depth p) → depth = limit

/-- A whole text, parsed with two guards. The parses run in step until the stricter guard
    objects, and a lexical error that comes first is the same for both. -/
theorem guardAllows_run {registry : Registry} (hbuiltin : registry.IsBuiltin) (n : Nat)
    (hlaxer : Laxer env guard) {p : Parse α} {m : α → α} {Q : (Nat → Kind) → α → View → Prop}
    (h : ∀ κ, Alike (Position.IsPlace env.source.toList) True ⟨0, 0⟩ (Grammar.level registry n)
      (Grammar.level registry n) ((View.start κ).seeing κ) m p p (Q κ)) :
    GuardAllows env.guard.maxDepth (run p env) (run p { env with guard }) := by
  have hplaced := (placing env).keeps_level hbuiltin n
  have hstart : (placing env).inv (View.start _) (State.initial env.source) :=
    ⟨State.sound_initial env.source, State.sees _⟩
  have hstep := inStep_of_alike hlaxer hplaced (keepsStep_level hbuiltin hlaxer n) (h _) hstart
  have hyields := Discipline.sound hplaced (h _) hstart
  constructor
  · intro hne
    rcases hstep with heq | ⟨depth, q, t, hrun, hlex⟩
    · unfold run runFrom
      simp only [heq]
    · rw [run_of_error hrun] at hne ⊢
      cases hpending : t.buffer.lexError? with
      | none =>
          rw [hpending] at hne
          exact absurd rfl (hne depth q)
      | some lex =>
          rw [hpending] at hne
          -- The complaint of the guard is what is reported, unless a lexical error overrules it.
          rcases Nat.lt_or_ge q.offset lex.position.offset with hearlier | hbehind
          · exact absurd (settle_earlier (e := .tooDeep depth q) hearlier) (hne depth q)
          · rcases hlex lex hpending hbehind with ⟨e, u, hrun', he, hbuffer, _⟩
            rw [run_of_error hrun', hbuffer, hpending, settle_overruled (by rw [he]; exact hbehind)]
            exact (settle_overruled (e := .tooDeep depth q) hbehind).symm
  -- A complaint that is reported was made, and it names the limit.
  · intro depth q hdeep
    cases hrun : p env (State.initial env.source) with
    | ok a t =>
        rw [run_of_ok hrun] at hdeep
        cases hpending : t.buffer.lexError? <;> rw [hpending] at hdeep <;> cases hdeep
    | error e t =>
        rw [hrun] at hyields
        rw [run_of_error hrun] at hdeep
        refine hyields.2.2 depth q ?_
        cases hpending : t.buffer.lexError? with
        | none =>
            rw [hpending] at hdeep
            exact Except.error.inj hdeep
        | some lex =>
            rw [hpending] at hdeep
            rcases Nat.lt_or_ge e.position.offset lex.position.offset with hearlier | hbehind
            · rw [settle_earlier hearlier] at hdeep
              exact Except.error.inj hdeep
            · rw [settle_overruled hbehind] at hdeep
              cases hdeep

/-- The three entry points run in step. -/
theorem guardAllows_texts {registry : Registry} (hbuiltin : registry.IsBuiltin)
    (hlaxer : Laxer env guard) {g : Grammar} {n : Nat} (hg : g = Grammar.level registry n) :
    GuardAllows env.guard.maxDepth (run (program g) env) (run (program g) { env with guard }) ∧
      GuardAllows env.guard.maxDepth (run (wholeText g.expression) env)
        (run (wholeText g.expression) { env with guard }) ∧
      GuardAllows env.guard.maxDepth (run (wholeText g.pattern) env)
        (run (wholeText g.pattern) { env with guard }) := by
  subst hg
  have hproper := Grammar.proper_level hbuiltin n
  refine ⟨?_, ?_, ?_⟩
  · exact guardAllows_run hbuiltin n hlaxer fun κ => alike_program (γ := View.start κ) rfl
  · exact guardAllows_run hbuiltin n hlaxer fun κ => alike_expressionText hproper
  · exact guardAllows_run hbuiltin n hlaxer fun κ => alike_patternText hproper

end Parse

/-- A guard without limit, or with a higher one, is laxer. -/
theorem laxer_of_le {env : Parse.Env} {limit limit' : Nat} {enabled : Bool}
    (hguard : env.guard = ⟨limit, true⟩) (h : enabled = true → limit ≤ limit') :
    Parse.Laxer env ⟨limit', enabled⟩ := by
  intro depth next p henter
  rcases Parse.enter_ok henter with ⟨rfl, hbelow⟩
  refine Parse.enter_of_below (fun henabled => ?_) p
  rw [hguard] at hbelow
  exact Nat.lt_of_lt_of_le (hbelow rfl) (h henabled)

/-- A parse of a program, an expression or a pattern that is not stopped by its guard
    comes to the same result under a higher limit, or without a guard. -/
theorem guard_monotone (settings : Settings) (source : String) (limit limit' : Nat)
    (enabled : Bool) (h : enabled = true → limit ≤ limit') :
    let strict := Parser.ofSettings { settings with maxDepth := limit, guardEnabled := true }
    let lax := Parser.ofSettings { settings with maxDepth := limit', guardEnabled := enabled }
    Parse.GuardAllows limit (strict.parse source) (lax.parse source) ∧
      Parse.GuardAllows limit (strict.parseExpression source) (lax.parseExpression source) ∧
      Parse.GuardAllows limit (strict.parsePattern source) (lax.parsePattern source) := by
  have hbuiltin := Registry.isBuiltin_ofSettings settings
  exact Parse.guardAllows_texts hbuiltin (laxer_of_le rfl h) rfl

/-- The limit is reached at the opening quote of a string that has no end, where the
    text counts as ended. The laxer guard does not object there. -/
theorem guard_monotone_unterminated :
    (true = true → 2 ≤ 4) ∧
      let strict := Parser.ofSettings { Settings.defaults with maxDepth := 2, guardEnabled := true }
      let lax := Parser.ofSettings { Settings.defaults with maxDepth := 4, guardEnabled := true }
      Parse.GuardAllows 2 (strict.parse "(\"a") (lax.parse "(\"a") ∧
        Parse.GuardAllows 2 (strict.parseExpression "(\"a") (lax.parseExpression "(\"a") ∧
        Parse.GuardAllows 2 (strict.parsePattern "(\"a") (lax.parsePattern "(\"a") :=
  ⟨fun _ => by decide, guard_monotone Settings.defaults "(\"a" 2 4 true fun _ => by decide⟩

end PolyScript
