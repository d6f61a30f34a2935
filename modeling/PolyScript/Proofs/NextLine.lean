import PolyScript.Proofs.Rounds

/-!
# Beginning on a New Line

A text that is put on a line of its own, behind other lines, is read as it would be by
itself. Two things have to be seen to. The newline before the text takes all the empty
lines at the beginning of the text along, so a parse of the text by itself may have to
skip a newline that the other parse never comes to. And no text that parses begins with
a pipe operator or an `else`, so none of them continues the line before.

## Main definitions

* `Excerpt.lastLines`: A text that is put behind other lines.
* `Parse.Tidy`: A text in which nothing goes wrong.

## Theorems

* `Parse.exists_abreast_nextLine`: The parse of a text and one that begins on a new line.
* `Parse.Tidy.begins`: What a text does not begin with.
-/

namespace PolyScript

/-- A text that is put behind other lines. -/
def Excerpt.lastLines {context source : String} {lines : List Char}
    (h : context.toList = lines ++ '\n' :: source.toList) : Excerpt where
  source := source
  context := context
  before := lines ++ ['\n']
  tail := []
  context_eq := by simp [h]
  lineStart := .inr ⟨lines, rfl⟩
  lineEnd := .inl rfl
  fresh := fun _ htail => by cases htail

namespace Registry

/-- By default, handlers for assignments take no tokens but names. -/
theorem unasked_defaults {t : Token} (ht : t.kind ≠ .identifier ∧ t.kind ≠ .language)
    {settings : HandlerSettings}
    (hmem : Handler.builtin settings ∈ (ofSettings Settings.defaults).handlers.toList)
    (hconstruct : settings.construct = .assignment) :
    Handler.leadingFilter settings t = false ∧ settings.fallback = false := by
  have hall : ∀ h ∈ (ofSettings Settings.defaults).handlers.toList,
      h.settings.construct = .assignment → h.settings.fallback = false ∧
        ∀ p ∈ h.settings.patterns, p.offset = 0 ∧ (p.kind = .identifier ∨ p.kind = .language) := by
    decide +kernel
  rcases hall _ hmem hconstruct with ⟨hfallback, hpatterns⟩
  refine ⟨List.any_eq_false.2 fun p hp haccepts => ?_, hfallback⟩
  rcases hpatterns p hp with ⟨hoffset, hkind⟩
  simp only [hoffset, TokenPattern.accepts, Nat.lt_irrefl, decide_false, Bool.false_or,
    Bool.and_eq_true, decide_eq_true_eq] at haccepts
  rw [haccepts.1] at ht
  exact hkind.elim ht.1 ht.2

/-- At a token that is no name, no handler for assignments is asked by default. -/
theorem excusedAt_defaults {t : Token} (ht : t.kind ≠ .identifier ∧ t.kind ≠ .language) :
    (ofSettings Settings.defaults).ExcusedAt t := by
  intro settings hmem hasked hconstruct
  rcases unasked_defaults ht hmem hconstruct with ⟨hfilter, hfallback⟩
  rcases hasked with hasked | hasked
  · rw [hfilter] at hasked
    cases hasked
  · rw [hfallback] at hasked
    cases hasked

end Registry

namespace Parse

open Lexer

variable {e : Excerpt} {guard : Guard} {s s' t : State}

/-! ### Texts in which nothing goes wrong -/

/-- A text has no lexical error, and its brackets are balanced. -/
def Tidy (source : String) : Prop := (Lexer.ofSource source).Clear tidy 0

/-- A text that parses to a program without guest code is tidy. -/
theorem tidy_of_run {registry : Registry} (hbuiltin : registry.IsBuiltin) {env : Env}
    (hlanguages : env.languages = .ofList Language.defaults) {levels : Nat} {p : Program}
    (hrun : run (program (Grammar.level registry levels)) env = .ok p)
    (hcode : statementsHaveCode p.statements = false) : Tidy env.source := by
  rcases program_clean hbuiltin hlanguages hrun hcode with ⟨ts, hyields, hbalance⟩
  exact ⟨ts, hyields, fun _ _ => ⟨fun _ => trivial, fun _ => trivial⟩, hbalance⟩

/-- So is a text that is an expression. -/
theorem tidy_of_expression {registry : Registry} (hbuiltin : registry.IsBuiltin) {env : Env}
    (hlanguages : env.languages = .ofList Language.defaults) {levels : Nat} {a : Expr}
    (hrun : run (wholeText (Grammar.level registry levels).expression) env = .ok a) :
    Tidy env.source := by
  rcases expressionText_clean hbuiltin hlanguages hrun with ⟨ts, hyields, hbalance⟩
  exact ⟨ts, hyields, fun _ _ => ⟨fun _ => trivial, fun _ => trivial⟩, hbalance⟩

theorem Tidy.start (h : Tidy e.source) (guard : Guard) :
    ∃ κ, (e.watch guard).inv ((View.start κ).seeing κ) (State.initial e.source) := by
  have hlx : (Lexer.ofSource e.source).Within e.source := ⟨rfl, [], rfl, rfl⟩
  refine ⟨fun n => ((State.initial e.source).buffer.tokenAt (0 + n)).kind,
    ⟨State.sound_initial e.source, State.sees _⟩, fun h => (by cases h),
    fun _ => ⟨Lexer.ofSource e.source, tidy, 0, ?_⟩⟩
  exact ⟨⟨State.at_initial e.source, hlx, .same, .clear h, fun h => (by cases h)⟩,
    Int.zero_add 0, fun _ => h, fun _ => rfl, fun h => absurd rfl h⟩

/-! ### The first token of a line -/

/-- Behind the newline that a text may begin with, the lexer stands behind all white
    space. -/
structure State.Begins (source : String) (s : State) (lx : Lexer) : Prop where
  reached : s = State.initial source ∨
    ((State.initial source).token.kind = .newline ∧ s = (State.initial source).advanced)
  stands : s.At lx
  sound : s.Sound source
  within : lx.Within source
  mode : lx.sizeMode = false
  place : lx.tokenStart = skipBlank true false source.toList Position.start

/-- A state and a lexer from which the first statement of a text is read. The initial state is
    one, unless a token for the blank lines in front comes first. -/
theorem exists_begins (source : String) : ∃ s lx, State.Begins source s lx := by
  have hlx : (Lexer.ofSource source).Within source := ⟨rfl, [], rfl, rfl⟩
  have hsound := State.sound_initial source
  have hat := State.at_initial source
  have hlines := skipBlank_lines false source.toList Position.start
  change _ = skipBlank true false (Lexer.ofSource source).tokenStart.rest
    (Lexer.ofSource source).tokenStart.here at hlines
  -- A line end at the beginning is a token by itself, and the parse begins behind it.
  by_cases hline : (Lexer.ofSource source).tokenStart.rest.head? = some '\n'
  · obtain ⟨rest, hrest⟩ : ∃ rest, (Lexer.ofSource source).tokenStart.rest = '\n' :: rest := by
      cases hcs : (Lexer.ofSource source).tokenStart.rest with
      | nil => rw [hcs] at hline; cases hline
      | cons c rest => rw [hcs] at hline; cases hline; exact ⟨rest, rfl⟩
    have hnext : (Lexer.ofSource source).next =
        (.ok ⟨.newline, "\n", (Lexer.ofSource source).tokenStart.here,
          (Lexer.ofSource source).tokenStart.here.offset + 1⟩,
        { Lexer.ofSource source with
          cursor := skipBlank true false source.toList Position.start }) := by
      rw [next_eq, hlines, hrest]
      rfl
    refine ⟨_, _, .inr ⟨?_, rfl⟩, hat.advanced hsound hnext rfl, hsound.advanced,
      hlx.next_ok hnext, rfl, skipBlank_skipBlank true false source.toList Position.start⟩
    rw [hat.token_ok hsound hnext]
  · refine ⟨_, _, .inl rfl, hat, hsound, hlx, rfl, ?_⟩
    rw [hlines]
    exact (skipBlank_stay (skipBlank_skipBlank false false source.toList Position.start) hline).symm

variable {lx : Lexer}

/-- Where a text begins on a new line of a longer one, the lexers are in step. -/
theorem State.Begins.retells {context source : String} {lines : List Char}
    {h : context.toList = lines ++ '\n' :: source.toList} (hs : s.Begins source lx) {mx : Lexer}
    (hcursor : mx.cursor = skipBlank true false source.toList (Position.after (lines ++ ['\n'])))
    (hmode : mx.sizeMode = false) : lx.Retells (Excerpt.lastLines h).shift [] mx := by
  refine ⟨by rw [hmode, hs.mode], ?_⟩
  have hstart : mx.tokenStart = mx.cursor := by
    rw [tokenStart, hcursor]
    exact skipBlank_skipBlank true false source.toList _
  have hafter := (Excerpt.lastLines h).after_before []
  rw [List.append_nil] at hafter
  change Position.after (lines ++ ['\n']) =
    Position.start.shift (Excerpt.lastLines h).shift at hafter
  rw [hstart, hcursor, hs.place, hafter]
  have hacross := skipBlank_across (δ := (Excerpt.lastLines h).shift)
    (.inl rfl : LineEnd []) false source.toList Position.start (.inr rfl)
  rw [List.append_nil] at hacross
  exact hacross

/-- A parse of a text and one that begins on the new line where the text stands. -/
theorem exists_abreast_nextLine {context source : String} {lines : List Char}
    {h : context.toList = lines ++ '\n' :: source.toList} (htidy : Tidy source) {mx : Lexer}
    (hat : s'.At mx) (hwithin : mx.Within context) (hsound : s'.Sound context)
    (hcursor : mx.cursor = skipBlank true false source.toList (Position.after (lines ++ ['\n'])))
    (hmode : mx.sizeMode = false) (hframe : (State.initial context).Kept s') :
    ∃ s lx, s.Begins source lx ∧ Abreast (Excerpt.lastLines h) s s' := by
  rcases exists_begins source with ⟨s, lx, hbegins⟩
  rcases Tidy.start (e := Excerpt.lastLines h) htidy ⟨0, false⟩ with ⟨κ, hstart⟩
  have hclean := watch_clean hstart rfl
  refine ⟨s, lx, hbegins, lx, mx, {
    first := hbegins.stands
    second := hat
    within := hbegins.within
    within' := hwithin
    retells := hbegins.retells hcursor hmode
    sound := hbegins.sound
    sound' := hsound
    clean := ?_
    depth := ?_
    loopDepth := ?_
    relaxed := ?_ }⟩
  -- The frames are those of a parser that begins, on both sides.
  · rcases hbegins.reached with rfl | ⟨-, rfl⟩
    · exact hclean
    · exact State.clean_advanced hclean
  · rw [hframe.depth]
    rcases hbegins.reached with rfl | ⟨-, rfl⟩ <;> rfl
  · rw [hframe.loopDepth]
    rcases hbegins.reached with rfl | ⟨-, rfl⟩ <;> rfl
  · rw [hframe.isRelaxed]
    rcases hbegins.reached with rfl | ⟨-, rfl⟩ <;> rfl

/-- Skipping separators begins with the newline that a text may begin with. -/
theorem State.Begins.skips_iff {source : String} (h : s.Begins source lx) :
    (State.initial source).Skips t ↔ s.Skips t := by
  rcases h.reached with rfl | ⟨hline, rfl⟩
  · exact Iff.rfl
  · refine ⟨fun hskips => ?_, .step (by rw [hline]; rfl)⟩
    cases hskips with
    | stop hstop => rw [hline] at hstop; cases hstop
    | step _ hskips => exact hskips

/-- A text that parses does not begin with a token that continues a statement. So the statement
    on the line before is over at its line end, and is not prolonged by what follows. -/
theorem Tidy.begins {context source : String} {lines : List Char}
    (h : context.toList = lines ++ '\n' :: source.toList) (htidy : Tidy source) {env : Env}
    {levels : Nat} {as : List Statement}
    (hrounds : Rounds (Grammar.level (Registry.ofSettings Settings.defaults) levels) env
      (State.initial source) as t) {mx mx' : Lexer} {u : Token}
    (hcursor : mx.cursor = skipBlank true false source.toList (Position.after (lines ++ ['\n'])))
    (hmode : mx.sizeMode = false) (hnext : mx.next = (.ok u, mx')) :
    u.kind ≠ .pipe ∧ u.kind ≠ .kwElse := by
  rcases exists_begins source with ⟨s, lx, hbegins⟩
  have hclean : ∀ n, (s.buffer.readMore n).lexError? = none := by
    rcases Tidy.start (e := Excerpt.lastLines h) htidy ⟨0, false⟩ with ⟨κ, hstart⟩
    rcases hbegins.reached with rfl | ⟨-, rfl⟩
    · exact watch_clean hstart rfl
    · exact State.clean_advanced (watch_clean hstart rfl)
  have hretells := hbegins.retells (h := h) hcursor hmode
  rcases hbegins.stands.next_clean hbegins.sound hclean with ⟨lx', hfirst⟩
  have hkind : u.kind = s.token.kind := by
    by_cases hend : s.token.kind = .endOfInput
    · rcases hretells.next_end (.inl rfl) hfirst hend with ⟨v, _, hnext', hv⟩
      cases hnext.symm.trans hnext'
      rcases hv with ⟨-, rfl, -⟩ | ⟨_, htail, _⟩
      · rfl
      · cases htail
    · by_cases hline : s.token.kind = .newline
      · rcases hretells.next_newline (.inl rfl) hfirst hline with ⟨_, hnext', _⟩
        cases hnext.symm.trans hnext'
        rfl
      · rcases hretells.next_ok (.inl rfl) hfirst ⟨hline, hend⟩ with ⟨_, hnext', _⟩
        cases hnext.symm.trans hnext'
        rfl
  suffices hnot : ¬(s.token.kind = .pipe ∨ s.token.kind = .kwElse) by
    rw [hkind]
    exact not_or.1 hnot
  -- The first statement would have to begin with the token.
  intro hkind'
  have hplain : isSeparator s.token.kind = false ∧ s.token.kind ≠ .endOfInput ∧
      s.token.kind ≠ .identifier ∧ s.token.kind ≠ .language := by
    rcases hkind' with hkind' | hkind' <;> rw [hkind'] <;> decide
  have hskips := hbegins.skips_iff.2 (.stop hplain.1)
  have hreached : ∀ {v}, skipSeparators env (State.initial source) = .ok () v → v = s.filled :=
    fun hv => (skips_of_skipSeparators hv).unique hskips
  cases hrounds with
  | done hv hend =>
      rw [hreached hv, State.token_filled] at hend
      exact hplain.2.1 hend
  | next hv _ hstatement _ =>
      rw [hreached hv] at hstatement
      have hbuiltin := Registry.isBuiltin_ofSettings Settings.defaults
      rcases (Grammar.stopsAt_level (t := s.token) (.inr (.inr hkind')) hbuiltin
        (Registry.excusedAt_defaults hplain.2.2) levels).statement env s.filled
        s.token_filled with ⟨_, _, _, _, hfail⟩
      cases hfail.symm.trans hstatement

/-! ### Reading the last lines -/

/-- Where the end of the text has been read, no error is known. -/
theorem State.At.clean_end {source : String} {lx' : Lexer} {u : Token} (h : s.At lx)
    (hs : s.Sound source) (hnext : lx.next = (.ok u, lx')) (hend : u.isEnd = true) :
    s.filled.buffer.lexError? = none := by
  have hfeeds := h.filled hs
  rw [State.At, show s.filled.cursor = s.cursor from rfl, hs.drop_filled] at hfeeds
  generalize s.filled.buffer.tokens.toList.drop (s.cursor + 1) = rest at hfeeds
  generalize s.token = v at hfeeds
  cases hfeeds with
  | token hlx hnot =>
      cases hlx.symm.trans hnext
      rw [hend] at hnot
      cases hnot
  | done _ _ _ hnone => rw [TokenBuffer.lexError?, hnone]; rfl
  | fail hlx => cases hlx.symm.trans hnext

theorem Rounds.filled {g : Grammar} {env : Env} {as : List Statement} (h : Rounds g env s as t) :
    t.filled = t := by
  induction h with
  | done hskip _ => exact (skips_of_skipSeparators hskip).filled
  | next _ _ _ _ ih => exact ih

/-- From the beginning of the line where a text stands, the second parse reads the
    statements that the text has by itself, moved. -/
theorem rounds_lastLines {context source : String} {lines : List Char}
    (h : context.toList = lines ++ '\n' :: source.toList) (htidy : Tidy source) {n n' : Nat}
    (hle : n ≤ n') {as : List Statement} (hcode : ∀ a ∈ as, a.hasCode = false)
    (hrounds : Rounds (Grammar.level (Registry.ofSettings Settings.defaults) n)
      ⟨source, .ofList Language.defaults, guard⟩ (State.initial source) as t) {mx : Lexer}
    (hat : s'.At mx) (hwithin : mx.Within context) (hsound : s'.Sound context)
    (hcursor : mx.cursor = skipBlank true false source.toList (Position.after (lines ++ ['\n'])))
    (hmode : mx.sizeMode = false) (hframe : (State.initial context).Kept s') :
    ∃ t', Rounds (Grammar.level (Registry.ofSettings Settings.defaults) n')
        ⟨context, .ofList Language.defaults, guard⟩ s'
        (as.map (Statement.shift ⟨lines.count '\n' + 1, Position.byteCount lines + 1⟩)) t' ∧
      t'.buffer.lexError? = none := by
  rcases exists_abreast_nextLine (h := h) htidy hat hwithin hsound hcursor hmode hframe with
    ⟨s, lx, hbegins, hstep⟩
  -- The text may begin with a newline, which the longer text has skipped before.
  have hstart : ∃ κ κ', ((Excerpt.lastLines h).watch guard).inv ((View.start κ).seeing κ') s := by
    rcases Tidy.start (e := Excerpt.lastLines h) htidy guard with ⟨κ, hstart⟩
    rcases hbegins.reached with rfl | ⟨hline, rfl⟩
    · exact ⟨κ, κ, hstart⟩
    · have hκ : κ 0 = .newline := by rw [← hline]; exact ((Discipline.sees _ hstart).token).symm
      have htakes : ((View.start κ).seeing κ).Takes (κ 0) ((View.start κ).seeing κ) := .newline hκ
      exact ⟨κ, _, Discipline.take _ hstart rfl htakes⟩
  rcases hstart with ⟨κ, κ', hstart⟩
  have hbuiltin := Registry.isBuiltin_ofSettings Settings.defaults
  have hfrom : Rounds (Grammar.level (Registry.ofSettings Settings.defaults) n)
      ((Excerpt.lastLines h).first (.ofList Language.defaults) guard) s as t :=
    hrounds.of_skip fun w hw =>
      (skipSeparators_iff hbegins.stands hbegins.within hbegins.sound).2
        (hbegins.skips_iff.1 (skips_of_skipSeparators hw))
  rcases (hstep.rounds (Discipline.keeps_level hbuiltin n)
    (follows_level hbuiltin Registry.nearsighted_defaults n n' hle)
    (Grammar.made_level hbuiltin n') rfl rfl hfrom hcode hstart).1 rfl with
    ⟨t', ⟨lx', mx', hpaired⟩, hend, hrounds'⟩
  have hshift : (Excerpt.lastLines h).shift =
      ⟨lines.count '\n' + 1, Position.byteCount lines + 1⟩ := by
    simp [Excerpt.shift, Excerpt.lastLines, Position.byteCount]
    rfl
  refine ⟨t', by rw [← hshift]; exact hrounds', ?_⟩
  rcases hpaired.next' with ⟨u, mx'', hnext⟩
  -- Both texts are over here, so no error is pending.
  have hover : u.isEnd = true := by
    rcases hpaired.next with ⟨lx'', hfirst⟩
    rcases hpaired.retells.next_end (.inl rfl) hfirst hend with ⟨v, _, hnext', hv⟩
    cases hnext.symm.trans hnext'
    rcases hv with ⟨-, rfl, -⟩ | ⟨_, htail, _⟩
    · simp [Token.isEnd, hend]
    · cases htail
  have hclean := hpaired.second.clean_end hpaired.sound' hnext hover
  rw [hrounds'.filled] at hclean
  exact hclean

end Parse

end PolyScript
