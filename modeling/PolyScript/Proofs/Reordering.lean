import PolyScript.Proofs.Environments
import PolyScript.Proofs.LanguageOrder
import PolyScript.Proofs.Positions

/-!
# Listing Settings in Another Order

Two settings that differ only in the order in which they list their handlers and their
languages describe the same parser: every text is parsed to the same tree, or refused with
the same error.

For handlers this is because the registries of both ask the same handlers in the same
order, so already their grammars are equal. The tables of languages are not equal, as they
keep their entries in the order of the lists. But they give the same answers, and no rule
asks a table for anything else; so two parses over such tables never part, which is proved
along the derivations of the rules.

## Main definitions

* `Parse.Env.Resembles`: Another environment for the same text.
* `Parse.KeepsAnswers`: The parts of a grammar do not tell two environments apart.

## Theorems

* `Grammar.level_eq_of_agrees`: Registries that agree have the same grammar.
* `Parse.sameAnswers_of_alike`: Derived parsers do not tell tables with the same answers apart.
* `listing_order_irrelevant`: The order of handlers and languages does not matter.
-/

namespace PolyScript

/-! ### Handlers -/

theorem Parse.dispatch_eq_of_agrees {registry registry' : Registry}
    (h : registry.Agrees registry') (g : Grammar) : dispatch registry g = dispatch registry' g := by
  unfold dispatch
  rw [h.window, funext h.candidates, h.fallbacks]

/-- Registries that agree have the same grammar. -/
theorem Grammar.level_eq_of_agrees {registry registry' : Registry}
    (h : registry.Agrees registry') (n : Nat) : level registry n = level registry' n := by
  induction n with
  | zero => rfl
  | succ n ih => rw [level, level, ih, above, above, Parse.dispatch_eq_of_agrees h]

namespace Parse

/-! ### Languages -/

variable {α : Type} {env env' : Env}

/-- Another environment has the same text and the same guard, and its table of languages
    gives the same answers. -/
structure Env.Resembles (env env' : Env) : Prop where
  source : env'.source = env.source
  guard : env'.guard = env.guard
  languages : env'.languages.Same env.languages

/-- The parts of a grammar do not tell two environments apart from sound states. -/
structure KeepsAnswers (env env' : Env) (g : Grammar) : Prop where
  expression : ∀ s : State, s.Sound env.source →
    g.expression env' s = g.expression env s
  operand : ∀ s : State, s.Sound env.source →
    g.operand env' s = g.operand env s
  pattern : ∀ s : State, s.Sound env.source →
    g.pattern env' s = g.pattern env s
  statement : ∀ s : State, s.Sound env.source → s.token.kind ≠ .newline →
    g.statement env' s = g.statement env s
  conditional : ∀ s : State, s.Sound env.source →
    g.conditional env' s = g.conditional env s

theorem bind_sameAnswers {β : Type} {p : Parse α} {f : α → Parse β} {s : State}
    (hp : p env' s = p env s)
    (hf : ∀ a t, p env s = .ok a t → f a env' t = f a env t) :
    (p >>= f) env' s = (p >>= f) env s := by
  rw [bind_run, bind_run, hp]
  cases hrun : p env s with
  | ok a t => exact hf a t hrun
  | error e t => rfl

theorem around_sameAnswers {p : Parse α} {before after : State → State} {s : State}
    (hp : p env' (before s) = p env (before s)) :
    around before after p env' s = around before after p env s := by
  unfold Parse.around
  rw [hp]

theorem nested_sameAnswers {p : Parse α} {s : State} (hguard : env'.guard = env.guard)
    (hp : ∀ depth, p env' (s.filled.atDepth depth) =
      p env (s.filled.atDepth depth)) :
    nested p env' s = nested p env s := by
  rw [nested_run, nested_run, hguard]
  cases env.guard.enter s.depth s.token.position with
  | ok depth => simp only [hp]
  | error e => rfl

/-- Derived parsers do not tell tables with the same answers apart, if the grammar they
    are read against does not. -/
theorem sameAnswers_of_alike {g : Grammar} {γ : View} {m : α → α} {p q : Parse α}
    {Q : α → View → Prop} {s : State} (hsame : env.Resembles env')
    (hplaced : (placing env).Keeps g) (hg : KeepsAnswers env env' g)
    (h : Alike (Position.IsPlace env.source.toList) True ⟨0, 0⟩ g g γ m p q Q)
    (hs : (placing env).inv γ s) : p env' s = p env s := by
  induction h generalizing s with
  | weaken _ _ ih => exact ih hs
  | pure => rfl
  -- the second parser starts where the discipline of sound states says the first one ends
  | bind hp _ ihp ihf =>
      refine bind_sameAnswers (ihp hs) fun a t hrun => ?_
      rcases Discipline.exists_view hplaced hp hs hrun with ⟨γ', hR, ht⟩
      exact ihf a γ' hR ht
  | throw => rfl
  | giveUp hend _ ih => exact ih ((placing env).spend hs hend)
  | stop hahead _ _ ih => exact ih _ rfl ((placing env).revive hs hahead)
  | exhaust _ _ _ _ _ _ ih => exact ih hs
  | peek n _ _ _ ih =>
      rw [bind_run, bind_run, peekKind_run, peekKind_run, hs.2 n]
      exact ih ((placing env).reads hs ⟨_, rfl⟩)
  | current _ _ ih =>
      rw [bind_run, bind_run, current_run, current_run]
      exact ih s.token hs.2.token (fun _ => hs.1.place.1) (Discipline.filled hs)
  | @refuse γ α m f q Q hend hf =>
      rcases hf s.token (by rw [hs.2.token, hend]) with ⟨e, he, _⟩
      rw [bind_run, bind_run, current_run, current_run]
      simp only [he]
      rfl
  | @languages γ α m f f' Q hblind _ ih =>
      change f env'.languages env' s = f env.languages env s
      rw [hblind _ _ hsame.languages]
      exact ih env.languages hs
  | state _ ih => exact ih s.isRelaxed s.loopDepth hs
  | scan _ hsurvey _ => exact hsurvey.indifferent hsame.source hsame.guard s
  | allowed _ _ _ _ ih => exact ih hs
  | take => rfl
  | takeOpener => rfl
  | takeNewline => rfl
  | closing => exact indifferent_expectClosing _ _ s
  | literal => exact indifferent_literal hsame.source s
  | @loop γ α β m n a b f f' I Q _ hstart hf ih =>
      have hrounds : ∀ n a γ s, I a γ → (placing env).inv γ s →
          iterate f n a env' s = iterate f n a env s := by
        -- on the rounds that are left, since a round leads to the next by the discipline again
        intro n
        induction n with
        | zero => exact fun _ _ s _ _ => indifferent_exhausted hsame.guard s
        | succ n ihn =>
            intro a γ s ha hs
            refine bind_sameAnswers (ih a γ ha hs) fun r t hrun => ?_
            rcases Discipline.exists_view hplaced (hf a γ ha) hs hrun with ⟨γ', hr, ht⟩
            cases r with
            | inl next => exact ihn next γ' t hr ht
            | inr => rfl
      rw [loop_run, loop_run, hsame.source]
      exact hrounds _ a γ s hstart hs
  | nested _ _ ih =>
      exact nested_sameAnswers hsame.guard fun depth =>
        ih ((placing env).frame depth s.loopDepth s.isRelaxed (Discipline.filled hs))
  | inLoop _ ih =>
      exact around_sameAnswers
        (ih ((placing env).frame s.depth (s.loopDepth + 1) s.isRelaxed hs))
  | terminators isRelaxed _ ih =>
      let relax : State → State := fun s => { s with isRelaxed }
      exact @around_sameAnswers _ _ _ _ relax _ s
        (ih ((placing env).frame s.depth s.loopDepth isRelaxed hs))
  | size hlive hstage _ _ ih =>
      rcases (placing env).sizeOn hs hlive hstage with ⟨κ, hon⟩
      exact around_sameAnswers (ih κ hon)
  | expression => exact hg.expression s hs.1
  | operand => exact hg.operand s hs.1
  | pattern => exact hg.pattern s hs.1
  | statement _ _ hnewline _ => exact hg.statement s hs.1 (by rw [hs.2.token]; exact hnewline)
  | conditional => exact hg.conditional s hs.1
  | guest => exact indifferent_guestBody hsame.source _ _ _ s

/-- Handlers that are asked one after the other. -/
theorem sameAnswers_tryHandlers {g : Grammar} (hsame : env.Resembles env')
    (hplaced : (placing env).Keeps g) (hg : KeepsAnswers env env' g) (hproper : g.Proper)
    {handlers : List Handler} (hbuiltin : ∀ h ∈ handlers, ∃ settings, h = Handler.builtin settings)
    {s : State} (hs : s.Sound env.source) (hready : s.filled = s)
    (hnewline : s.token.kind ≠ .newline) :
    tryHandlers g s.token s.cursor handlers env' s =
      tryHandlers g s.token s.cursor handlers env s := by
  induction handlers generalizing s with
  | nil => rfl
  | cons handler rest ih =>
      rcases hbuiltin handler List.mem_cons_self with ⟨settings, rfl⟩
      unfold tryHandlers
      refine bind_sameAnswers (nested_sameAnswers hsame.guard fun depth => ?_)
        fun answer t hrun => ?_
      · have hstart : (placing env).inv
            (View.start fun n => (s.buffer.tokenAt (s.cursor + n)).kind) (s.filled.atDepth depth) :=
          (placing env).frame depth s.loopDepth s.isRelaxed (Discipline.filled ⟨hs, s.sees⟩)
        exact sameAnswers_of_alike hsame hplaced hg (alike_builtin
          (γ := View.start fun n => (s.buffer.tokenAt (s.cursor + n)).kind) hproper rfl
          fun _ => hnewline) hstart
      -- A handler that answers is the last that is asked. One that declines has only read, so the
      -- induction goes on.
      · cases answer with
        | some statement =>
            change (if (!t.isRelaxed) = true then expectTerminator >>= fun _ => pure statement
              else pure statement : Parse Statement) env' t = (if (!t.isRelaxed) = true then
              expectTerminator >>= fun _ => pure statement else pure statement : Parse Statement)
              env t
            exact Indifferent.ite (indifferent_expectTerminator.bind fun _ => indifferent_pure _)
              (indifferent_pure _) t
        | none =>
            have hreads : s.Reads t := (quiet_builtin settings g).nested env s t hrun
            have hnext := ih (fun h hmem => hbuiltin h (List.mem_cons_of_mem _ hmem))
              (hs.reads hreads) (hreads.filled_eq hready) (by rw [hreads.token_eq]; exact hnewline)
            rw [hreads.token_eq] at hnext
            rcases hreads with ⟨n, rfl⟩
            exact hnext

/-- A reordered list of handlers comes to the same statement. Every candidate is asked in the
    state that dispatch began with, and the index sorts them in the same way. -/
theorem sameAnswers_dispatch {registry : Registry} (hbuiltin : registry.IsBuiltin) {g : Grammar}
    (hsame : env.Resembles env') (hplaced : (placing env).Keeps g)
    (hg : KeepsAnswers env env' g) (hproper : g.Proper) {s : State} (hs : s.Sound env.source)
    (hnewline : s.token.kind ≠ .newline) :
    dispatch registry g env' s = dispatch registry g env s := by
  rcases dispatch_cases registry g s with ⟨u, hu, hrun | ⟨hready, rest, hrun⟩⟩
  · rw [hrun, hrun]
    rfl
  · rw [hrun, hrun]
    exact sameAnswers_tryHandlers hsame hplaced hg hproper (fun h => isBuiltin_asked hbuiltin)
      (hs.reads hu) hready (by rw [hu.token_eq]; exact hnewline)

/-- No level of the grammar tells tables with the same answers apart. -/
theorem keepsAnswers_level {registry : Registry} (hbuiltin : registry.IsBuiltin)
    (hsame : env.Resembles env') (n : Nat) :
    KeepsAnswers env env' (Grammar.level registry n) := by
  induction n with
  | zero =>
      have hbottom : ∀ (α : Type) (s : State), (exhausted : Parse α) env' s = exhausted env s :=
        fun _ => indifferent_exhausted hsame.guard
      exact ⟨fun s _ => hbottom _ s, fun s _ => hbottom _ s, fun s _ => hbottom _ s,
        fun s _ _ => hbottom _ s, fun s _ => hbottom _ s⟩
  | succ n ih =>
      have hproper := Grammar.proper_level hbuiltin n
      have hplaced := (placing env).keeps_level hbuiltin n
      have hderived : ∀ {α : Type} {p : Parse α} {m : α → α} {Q : (Nat → Kind) → α → View → Prop},
          (∀ κ, Alike (Position.IsPlace env.source.toList) True ⟨0, 0⟩ (Grammar.level registry n)
            (Grammar.level registry n) ((View.start κ).seeing κ) m p p (Q κ)) →
          ∀ s : State, s.Sound env.source → p env' s = p env s :=
        fun h s hs => sameAnswers_of_alike hsame hplaced ih (h _) ⟨hs, s.sees⟩
      exact {
        expression := hderived fun κ => alike_expression hproper
        operand := hderived fun κ => alike_operand hproper
        pattern := hderived fun κ => alike_pattern hproper
        statement := fun s hs hnewline =>
          sameAnswers_dispatch hbuiltin hsame hplaced ih hproper hs hnewline
        conditional := hderived fun κ => alike_conditional hproper rfl }

theorem sameAnswers_run {registry : Registry} (hbuiltin : registry.IsBuiltin) (n : Nat)
    (hsame : env.Resembles env') {p : Parse α} {m : α → α}
    {Q : (Nat → Kind) → α → View → Prop}
    (h : ∀ κ, Alike (Position.IsPlace env.source.toList) True ⟨0, 0⟩ (Grammar.level registry n)
      (Grammar.level registry n) ((View.start κ).seeing κ) m p p (Q κ)) :
    run p env' = run p env := by
  have hstart := sameAnswers_of_alike hsame ((placing env).keeps_level hbuiltin n)
    (keepsAnswers_level hbuiltin hsame n) (h _) ⟨State.sound_initial env.source, State.sees _⟩
  rw [run, run, runFrom, runFrom, hsame.source, hstart]

/-- Whole texts are parsed alike over tables with the same answers. -/
theorem sameAnswers_texts {registry : Registry} (hbuiltin : registry.IsBuiltin) (n : Nat)
    (hsame : env.Resembles env') :
    let g := Grammar.level registry n
    run (program g) env' = run (program g) env ∧
      run (wholeText g.expression) env' =
        run (wholeText g.expression) env ∧
      run (wholeText g.pattern) env' = run (wholeText g.pattern) env := by
  have hproper := Grammar.proper_level hbuiltin n
  refine ⟨?_, ?_, ?_⟩
  · exact sameAnswers_run hbuiltin n hsame fun κ => alike_program (γ := View.start κ) rfl
  · exact sameAnswers_run hbuiltin n hsame fun κ => alike_expressionText hproper
  · exact sameAnswers_run hbuiltin n hsame fun κ => alike_patternText hproper

end Parse

/-- Validated settings may list their handlers and their languages in any order: every
    text is parsed to the same program, expression or pattern, or refused with the same
    error. -/
theorem listing_order_irrelevant (s : Settings) (handlers : List HandlerSettings)
    (languages : List Language) (hvalid : s.validate = .ok ())
    (hhandlers : handlers.Perm s.handlers) (hlanguages : languages.Perm s.languages)
    (source : String) :
    let parser := Parser.ofSettings s
    let other := Parser.ofSettings { s with handlers, languages }
    other.parse source = parser.parse source ∧
      other.parseExpression source = parser.parseExpression source ∧
      other.parsePattern source = parser.parsePattern source := by
  -- Neither the order of handlers nor that of languages shows in what a parser asks of them.
  have hagrees :
      (Registry.ofSettings s).Agrees (Registry.ofSettings { s with handlers, languages }) :=
    Registry.agrees_ofSettings hvalid hhandlers rfl
  have hgrammar := Grammar.level_eq_of_agrees hagrees (4 * source.utf8ByteSize + 8)
  have hsame : ((Parser.ofSettings s).env source).Resembles
      ((Parser.ofSettings { s with handlers, languages }).env source) :=
    ⟨rfl, rfl, (LanguageTable.same_ofList hvalid hlanguages).symm⟩
  have htexts := Parse.sameAnswers_texts (Registry.isBuiltin_ofSettings s)
    (4 * source.utf8ByteSize + 8) hsame
  dsimp only at htexts
  intro parser other
  have hother : other.grammar source = parser.grammar source := hgrammar.symm
  unfold Parser.parse Parser.parseExpression Parser.parsePattern
  rw [hother]
  exact htexts

/-- All handlers and languages of the language as it stands, last to first. A guest call
    stands at the start of the text, for which several handlers may be asked. -/
theorem listing_order_irrelevant_reversed :
    Settings.defaults.validate = .ok () ∧
      HandlerSettings.defaults.reverse.Perm Settings.defaults.handlers ∧
      Language.defaults.reverse.Perm Settings.defaults.languages ∧
      let parser := Parser.ofSettings Settings.defaults
      let other := Parser.ofSettings { Settings.defaults with
        handlers := HandlerSettings.defaults.reverse, languages := Language.defaults.reverse }
      other.parse "js.f(1)" = parser.parse "js.f(1)" ∧
        other.parseExpression "js.f(1)" = parser.parseExpression "js.f(1)" ∧
        other.parsePattern "js.f(1)" = parser.parsePattern "js.f(1)" :=
  have hvalid : Settings.defaults.validate = .ok () := by decide +kernel
  have hhandlers : HandlerSettings.defaults.reverse.Perm Settings.defaults.handlers :=
    List.reverse_perm _
  have hlanguages : Language.defaults.reverse.Perm Settings.defaults.languages :=
    List.reverse_perm _
  ⟨hvalid, hhandlers, hlanguages, listing_order_irrelevant Settings.defaults
    HandlerSettings.defaults.reverse Language.defaults.reverse hvalid hhandlers hlanguages
    "js.f(1)"⟩

end PolyScript
