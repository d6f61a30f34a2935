import PolyScript.Proofs.HandlerIndex
import PolyScript.Proofs.PipeRules

/-!
# Pipes as Statements

By default a line of expressions with pipe operators between them is a statement. All rules
that might take it make the same pipe of it, except for the rule for fields, which takes the
first expression alone. This rule is asked before the one for expressions. So a line is
rejected if its first expression begins with a field, an index or a qualified name, although
it would be accepted as the value of an assignment.

Where a dotted chain ends in a call, the rule for guest calls takes the line as well, and its
handler has the higher priority.

## Theorems

* `Registry.find?_asked`: Which of the default handlers takes the line.
* `Parse.run_pipe`: A line of expressions as a program.
* `pipes_stand_as_statements`: Pipes are statements unless a field comes first.
* `pipe_of_field_rejected`: A pipe that is no statement.
-/

namespace PolyScript

/-! ### Which rule takes the line -/

namespace Registry

open Parse

/-- The candidates of the default handlers, and their order. -/
theorem candidates_defaults {window : List Token} (hne : window ≠ []) :
    (∀ h, h ∈ (ofSettings Settings.defaults).candidates window ↔
      ∃ settings ∈ HandlerSettings.defaults, h = Handler.builtin settings ∧
        settings.fallback = false ∧ settings.matchesWindow window = true) ∧
    ((ofSettings Settings.defaults).candidates window).Pairwise fun a b =>
      a.triedBefore b = true := by
  have henabled : ∀ settings ∈ HandlerSettings.defaults, settings.enabled = true := by decide
  have hbuiltin : ∀ h ∈ HandlerSettings.defaults.map Handler.builtin,
      ∃ s, h = Handler.builtin s := by
    intro h hmem
    rcases List.mem_map.1 hmem with ⟨s, -, rfl⟩
    exact ⟨s, rfl⟩
  have hnames : ((HandlerSettings.defaults.map Handler.builtin).map
      fun h => h.settings.name).Nodup := by decide
  -- The names of the handlers differ, so the candidates are the wanted ones in their order.
  have hcandidates := (holds_ofSettings Settings.defaults).candidates_eq hbuiltin hnames hne
  rw [hcandidates]
  constructor
  · intro h
    rw [List.mem_mergeSort, List.mem_filter]
    constructor
    · rintro ⟨hmem, hwanted⟩
      rcases List.mem_map.1 hmem with ⟨settings, hsettings, rfl⟩
      simp only [isWanted, Handler.builtin, Bool.and_eq_true, Bool.not_eq_true'] at hwanted
      exact ⟨settings, hsettings, rfl, hwanted.1.2, hwanted.2⟩
    · rintro ⟨settings, hsettings, rfl, hfallback, hmatches⟩
      refine ⟨List.mem_map_of_mem hsettings, ?_⟩
      simp only [isWanted, Handler.builtin, henabled settings hsettings, hfallback, hmatches]
      rfl
  · exact List.pairwise_mergeSort
      (fun a b c => HandlerSettings.triedBefore_trans a.settings b.settings c.settings)
      (fun a b => HandlerSettings.triedBefore_total a.settings b.settings) _

/-- A default handler with a pattern that matches is a candidate. -/
theorem mem_candidates_of_accepts {window : List Token} {settings : HandlerSettings}
    (hsettings : settings ∈ HandlerSettings.defaults) (hfallback : settings.fallback = false)
    {p : TokenPattern} (hp : p ∈ settings.patterns) {t : Token}
    (ht : window[p.offset]? = some t) (hkind : t.kind = p.kind) (hvalue : p.value = none) :
    Handler.builtin settings ∈ (ofSettings Settings.defaults).candidates window := by
  have hne : window ≠ [] := by
    rintro rfl
    cases ht
  refine ((candidates_defaults hne).1 _).2 ⟨settings, hsettings, rfl, hfallback, ?_⟩
  refine HandlerSettings.matchesWindow_iff.2 ⟨p, hp, t, ht, hkind, ?_⟩
  rw [hvalue]
  exact nofun

/-- The handlers for fields and for guest calls that are asked by default, and which of them
    comes first. -/
theorem candidates_chains (first second : Token) :
    (isMemberName first.kind = true → ∃ settings, settings.construct = .fieldAccess ∧
      Handler.builtin settings ∈ (ofSettings Settings.defaults).candidates [first, second]) ∧
    (second.kind = .dot → ∃ settings, settings.construct = .languageCall ∧
      Handler.builtin settings ∈ (ofSettings Settings.defaults).candidates [first, second]) ∧
    ∀ a ∈ HandlerSettings.defaults, ∀ b ∈ HandlerSettings.defaults, a.construct = .fieldAccess →
      b.construct = .languageCall → a.triedBefore b = false := by
  refine ⟨fun hname => ?_, fun hdot => ?_, by decide⟩
  -- The default handlers are a fixed list, so the right one is found by computation.
  · have hfield : ∀ kind ∈ [Kind.identifier, .language], ∃ settings ∈ HandlerSettings.defaults,
        settings.construct = .fieldAccess ∧ settings.fallback = false ∧
          ∃ p ∈ settings.patterns, p.offset = 0 ∧ kind = p.kind ∧ p.value = none := by decide
    rcases hfield first.kind (by simpa [isMemberName] using hname) with
      ⟨settings, hsettings, hconstruct, hfallback, p, hp, hoffset, hkind, hvalue⟩
    exact ⟨settings, hconstruct, mem_candidates_of_accepts hsettings hfallback hp
      (by rw [hoffset]; rfl) hkind hvalue⟩
  · have hcall : ∃ settings ∈ HandlerSettings.defaults,
        settings.construct = .languageCall ∧ settings.fallback = false ∧
          ∃ p ∈ settings.patterns, p.offset = 1 ∧ .dot = p.kind ∧ p.value = none := by decide
    rcases hcall with ⟨settings, hsettings, hconstruct, hfallback, p, hp, hoffset, hkind, hvalue⟩
    exact ⟨settings, hconstruct, mem_candidates_of_accepts hsettings hfallback hp
      (by rw [hoffset]; rfl) (hdot.trans hkind) hvalue⟩

/-- What is found first in a sorted list comes before all else that might be found. -/
theorem found_first {α : Type} {R : α → α → Prop} {p : α → Bool} {xs : List α}
    (hsorted : xs.Pairwise R) {a b : α} (hfind : xs.find? p = some a) (hb : b ∈ xs)
    (hp : p b = true) : a = b ∨ R a b := by
  rcases List.find?_eq_some_iff_append.1 hfind with ⟨-, before, behind, rfl, hbefore⟩
  rcases List.mem_append.1 hb with hb | hb
  · have hskipped := hbefore b hb
    rw [hp] at hskipped
    cases hskipped
  · rcases List.mem_cons.1 hb with rfl | hb
    · exact .inl rfl
    · exact .inr ((List.pairwise_cons.1 (List.pairwise_append.1 hsorted).2.1).1 b hb)

/-- By default expressions are what is left when all else has declined. -/
theorem construct_eq_expression_iff : ∀ settings ∈ HandlerSettings.defaults,
    settings.construct = .expression ↔ settings.fallback = true := by decide

/-- The candidate that is the first to take a line is the rule for fields just where a field is
    read. Where none is, a guest call takes the line as well, and its rule is asked before. -/
theorem construct_eq_fieldAccess_iff {kinds : List Kind} {first second : Token}
    (hsecond : kindAt kinds 1 = .dot → second.kind = .dot) {handler : Handler}
    (hfind : ((ofSettings Settings.defaults).candidates [first, second]).find?
      (fun h => takes kinds h.settings.construct) = some handler) :
    handler.settings.construct = .fieldAccess ↔ readsField kinds = true := by
  rcases candidates_defaults (List.cons_ne_nil first [second]) with ⟨hmem, hsorted⟩
  rcases candidates_chains first second with ⟨-, hcall, horder⟩
  rcases (hmem handler).1 (List.mem_of_find?_eq_some hfind) with
    ⟨settings, hsettings, rfl, hprimary, -⟩
  have htakes : takes kinds settings.construct = true := by
    simpa [Handler.builtin] using List.find?_some hfind
  change settings.construct = .fieldAccess ↔ _
  constructor
  · intro hconstruct
    rw [hconstruct] at htakes
    by_contra hnot
    have hchain : takes kinds .languageCall = true := by
      simpa [readsField_eq, htakes] using hnot
    have hdot : kindAt kinds 1 = .dot := by simp_all [takes]
    rcases hcall (hsecond hdot) with ⟨other, hother, hasked⟩
    rcases (hmem _).1 hasked with ⟨_, hmem', hsame, -⟩
    cases (congrArg Handler.settings hsame : other = _)
    rcases found_first hsorted hfind hasked (by rw [← hchain, ← hother]; rfl) with hsame | hless
    · cases (congrArg Handler.settings hsame : settings = other)
      cases hconstruct.symm.trans hother
    · exact Bool.noConfusion
        ((horder settings hsettings other hmem' hconstruct hother).symm.trans hless)
  · intro hreads
    have hne : settings.construct ≠ .expression := fun h => by
      rw [(construct_eq_expression_iff settings hsettings).1 h] at hprimary
      cases hprimary
    cases hconstruct : settings.construct <;> simp_all [takes, readsField]

/-- Where a field is read, its rule is a candidate that takes the line. -/
theorem readsField_eq_false_of_find? {kinds : List Kind} {first second : Token}
    (hfirst : first.kind = kindAt kinds 0)
    (hfind : ((ofSettings Settings.defaults).candidates [first, second]).find?
      (fun h => takes kinds h.settings.construct) = none) : readsField kinds = false := by
  by_contra hreads
  rw [Bool.not_eq_false, readsField_eq, Bool.and_eq_true] at hreads
  have hname : isMemberName first.kind = true := by
    rw [hfirst]
    exact (Bool.and_eq_true_iff.1 hreads.1).1
  rcases (candidates_chains first second).1 hname with ⟨settings, hconstruct, hasked⟩
  have hnone := List.find?_eq_none.1 hfind _ hasked
  rw [show (Handler.builtin settings).settings.construct = .fieldAccess from hconstruct] at hnone
  exact hnone hreads.1

/-- By default there is a fallback that takes every line, the rule for expressions. -/
theorem exists_fallback (kinds : List Kind) :
    ∃ handler, (ofSettings Settings.defaults).fallbacks.find?
      (fun h => takes kinds h.settings.construct) = some handler ∧
        handler.settings.construct = .expression := by
  have hhandlers : (ofSettings Settings.defaults).handlers.toList =
      HandlerSettings.defaults.map Handler.builtin :=
    (holds_ofSettings Settings.defaults).handlers
  have hexpression : ∃ settings ∈ HandlerSettings.defaults, settings.construct = .expression ∧
      settings.enabled = true ∧ settings.fallback = true := by decide
  rcases hexpression with ⟨settings, hsettings, hconstruct, henabled, hfallback⟩
  obtain ⟨handler, hfound⟩ : ∃ handler, (ofSettings Settings.defaults).fallbacks.find?
      (fun h => takes kinds h.settings.construct) = some handler := by
    rw [← Option.isSome_iff_exists, List.find?_isSome]
    refine ⟨Handler.builtin settings, ?_, ?_⟩
    · rw [fallbacks, List.mem_mergeSort, List.mem_filter, hhandlers]
      refine ⟨List.mem_map_of_mem hsettings, ?_⟩
      simp only [Handler.builtin, henabled, hfallback]
      rfl
    · simp only [Handler.builtin, hconstruct]
      rfl
  rcases mem_fallbacks (List.mem_of_find?_eq_some hfound) with ⟨hmem, hlast⟩
  rw [hhandlers] at hmem
  rcases List.mem_map.1 hmem with ⟨other, hother, rfl⟩
  exact ⟨_, hfound, (construct_eq_expression_iff other hother).2 hlast⟩

/-- By default the rule for fields is the first to take a line just where a field is read. Which
    handlers are asked for the line, and in which order, is known from two tokens. -/
theorem find?_asked {kinds : List Kind} {first second : Token}
    (hfirst : first.kind = kindAt kinds 0)
    (hsecond : kindAt kinds 1 = .dot → second.kind = .dot) :
    ∃ handler, ((ofSettings Settings.defaults).candidates [first, second] ++
        (ofSettings Settings.defaults).fallbacks).find?
          (fun h => takes kinds h.settings.construct) = some handler ∧
      (handler.settings.construct = .fieldAccess ↔ readsField kinds = true) := by
  cases hfind : ((ofSettings Settings.defaults).candidates [first, second]).find?
    (fun h => takes kinds h.settings.construct) with
  | some handler =>
      exact ⟨handler, by rw [List.find?_append, hfind]; rfl,
        construct_eq_fieldAccess_iff hsecond hfind⟩
  | none =>
      rcases exists_fallback kinds with ⟨handler, hfound, hexpression⟩
      refine ⟨handler, by rw [List.find?_append, hfind]; exact hfound, ?_⟩
      rw [hexpression, readsField_eq_false_of_find? hfirst hfind]
      decide

end Registry

namespace Parse

section

variable {guard : Guard} (hguard : guard.enabled = false) {line first : String}
  {rest : List String} {e : Expr} {exprs : List Expr}

include hguard

/-- What the dispatcher makes of the line. The handlers that are asked are known from the first
    two tokens, and of these the first that takes the line decides: the rule for fields rejects
    it, any other makes it a pipe. -/
theorem State.Fronts.dispatch_run (h : s.Fronts line line.toList lx)
    (hpipe : IsPipe (Registry.ofSettings Settings.defaults) guard line first rest e exprs)
    (hbrace : kindAt (Text.kinds first) 0 ≠ .leftBrace) :
    if readsField (Text.kinds first) = true then
      ∃ error t, dispatch (Registry.ofSettings Settings.defaults)
        (Grammar.level (Registry.ofSettings Settings.defaults) (4 * line.utf8ByteSize + 7))
          (defaultEnv guard line) s = .error error t
    else ∃ a t ox, dispatch (Registry.ofSettings Settings.defaults)
          (Grammar.level (Registry.ofSettings Settings.defaults) (4 * line.utf8ByteSize + 7))
            (defaultEnv guard line) s = .ok a t ∧
        a.skeleton = (pipeStatement (e :: exprs)).skeleton ∧ t.Fronts line [] ox := by
  have hbuiltin := Registry.isBuiltin_ofSettings Settings.defaults
  have hopens := h.opening hbuiltin hguard hpipe
  rcases Parse.dispatch_run (Registry.ofSettings Settings.defaults)
    (Grammar.level (Registry.ofSettings Settings.defaults) (4 * line.utf8ByteSize + 7)) s with
    ⟨u, hu, -, hasked⟩
  have hcursor : u.cursor = s.cursor := by
    rcases hu with ⟨n, rfl⟩
    rfl
  have hopen : ¬(s.buffer.tokenAt s.cursor).isEnd = true := by
    intro hend
    have hfirst := hopens.opens
    rw [← hopens.kind, show s.token.kind = .endOfInput from of_decide_eq_true hend] at hfirst
    cases hfirst
  -- The window of the default handlers is two tokens wide.
  have hwindow : s.buffer.tokensFrom s.cursor (Registry.ofSettings Settings.defaults).windowSize =
      [s.token, s.buffer.tokenAt (s.cursor + 1)] := by
    have hsize : (Registry.ofSettings Settings.defaults).windowSize = 2 := by decide +kernel
    rw [hsize, TokenBuffer.tokensFrom, if_neg hopen, TokenBuffer.tokensFrom]
    simp only [TokenBuffer.tokensFrom, ite_self]
    rfl
  -- The first handler that takes the line decides what becomes of it.
  rcases Registry.find?_asked hopens.kind
    (hopens.next .dot (by decide) (by decide)).2 with ⟨handler, hfind, hconstruct⟩
  have hrun := State.Fronts.tryHandlers_run hbuiltin hguard hpipe hbrace s.token
    (fun h hmem => isBuiltin_asked hbuiltin hmem) hfind (h.reads hu)
  rw [hcursor] at hrun
  simp only [hconstruct] at hrun
  rw [hasked, hwindow]
  exact hrun

/-- A line of expressions is a statement if no field is read at its beginning, and otherwise
    it is rejected. -/
theorem run_pipe
    (hpipe : IsPipe (Registry.ofSettings Settings.defaults) guard line first rest e exprs)
    (hbrace : kindAt (Text.kinds first) 0 ≠ .leftBrace) :
    if readsField (Text.kinds first) = true then
      ∀ p, run (program (Grammar.level (Registry.ofSettings Settings.defaults)
        (4 * line.utf8ByteSize + 8))) (defaultEnv guard line) ≠ .ok p
    else ∃ p, run (program (Grammar.level (Registry.ofSettings Settings.defaults)
          (4 * line.utf8ByteSize + 8))) (defaultEnv guard line) = .ok p ∧
        p.statements.map Statement.skeleton = [(pipeStatement (e :: exprs)).skeleton] := by
  have hinitial := State.Fronts.initial line
  have hopens := hinitial.opening (Registry.isBuiltin_ofSettings Settings.defaults) hguard hpipe
  have hopen : (State.initial line).token.kind ≠ .endOfInput ∧
      isSeparator (State.initial line).token.kind = false := by
    have hfirst := hopens.opens
    rw [← hopens.kind] at hfirst
    generalize (State.initial line).token.kind = kind at hfirst
    constructor
    · rintro rfl
      cases hfirst
    · cases kind <;> first | rfl | cases hfirst
  have hrun := hinitial.filled.dispatch_run hguard hpipe hbrace
  split
  · rename_i hreads
    rw [if_pos hreads] at hrun
    rcases hrun with ⟨error, t, hfail⟩
    intro p hparse
    rcases ok_of_run hparse with ⟨u, hprogram, -⟩
    -- A program is made in rounds, and the only round of this one fails.
    have hrounds := (rounds_of_program hprogram).1
    generalize p.statements = statements at hrounds
    cases hrounds with
    | done hskip hend =>
        rw [(skips_of_skipSeparators hskip).eq_filled hopen.2, State.token_filled] at hend
        exact hopen.1 hend
    | next hskip _ hstatement =>
        rw [(skips_of_skipSeparators hskip).eq_filled hopen.2] at hstatement
        cases hfail.symm.trans hstatement
  · rename_i hreads
    rw [if_neg hreads] at hrun
    rcases hrun with ⟨a, t, ox, hstatement, ha, ht⟩
    rcases ht.closed with ⟨hend, hclean, -⟩
    have hskip : skipSeparators (defaultEnv guard line) t = .ok () t.filled :=
      (skipSeparators_iff ht.stands ht.within ht.sound).2 (.stop (by rw [hend]; rfl))
    refine ⟨_, run_single hopen hstatement hskip (by rw [State.token_filled, hend]) hclean, ?_⟩
    simp only [List.map_cons, List.map_nil, ha]

end

/-- The parts of a line are shorter than the line. -/
theorem isPipe_pipeLine {registry : Registry} {guard : Guard} {first : String}
    {rest : List String} {e : Expr} {exprs : List Expr}
    (hlines : ∀ text ∈ first :: rest, Text.IsLine text)
    (hfirst : run (wholeText (Grammar.level registry (4 * first.utf8ByteSize + 8)).expression)
      (defaultEnv guard first) = .ok e)
    (hrest : List.Forall₂ (fun text e =>
      run (wholeText (Grammar.level registry (4 * text.utf8ByteSize + 8)).expression)
        (defaultEnv guard text) = .ok e) rest exprs)
    (hproper : rest ≠ []) :
    IsPipe registry guard (pipeLine first rest) first rest e exprs := by
  -- Each text adds its own bytes and those of the pipe before it.
  have hsum : ∀ texts : List String,
      texts.length ≤ (texts.map fun text => 4 + text.utf8ByteSize).sum ∧
        ∀ text ∈ texts,
          4 + text.utf8ByteSize ≤ (texts.map fun text => 4 + text.utf8ByteSize).sum := by
    intro texts
    induction texts with
    | nil => exact ⟨Nat.le_refl 0, nofun⟩
    | cons text texts ih =>
        rw [List.map_cons, List.sum_cons, List.length_cons]
        refine ⟨by omega, List.forall_mem_cons.2 ⟨Nat.le_add_right _ _, fun other hmem => ?_⟩⟩
        exact Nat.le_trans (ih.2 other hmem) (Nat.le_add_left _ _)
  rcases hsum rest with ⟨hlength, hparts⟩
  have hsize := byteSize_pipeLine first rest
  have hpos : 0 < rest.length := List.length_pos_iff.2 hproper
  refine ⟨toList_pipeLine first rest, ⟨hlines first List.mem_cons_self, ?_, hfirst⟩, ?_, hproper,
    by omega⟩
  · rcases List.exists_mem_of_length_pos hpos with ⟨text, hmem⟩
    have hpart := hparts text hmem
    omega
  · refine ((List.forall₂_and_left
      (p := fun text => Text.IsLine text ∧ text.utf8ByteSize < (pipeLine first rest).utf8ByteSize)
        rest exprs).2 ⟨fun text hmem => ⟨hlines text (List.mem_cons_of_mem _ hmem), ?_⟩, hrest⟩).imp
          fun _ _ h => ⟨h.1.1, h.1.2, h.2⟩
    have hpart := hparts text hmem
    omega

/-- A line of expressions, parsed without a limit on nesting. -/
theorem run_pipeLine {guard : Guard} (hguard : guard.enabled = false) {first : String}
    {rest : List String} {e : Expr} {exprs : List Expr}
    (hlines : ∀ text ∈ first :: rest, Text.IsLine text)
    (hfirst : run (wholeText (Grammar.level (Registry.ofSettings Settings.defaults)
      (4 * first.utf8ByteSize + 8)).expression) (defaultEnv guard first) = .ok e)
    (hrest : List.Forall₂ (fun text e =>
      run (wholeText (Grammar.level (Registry.ofSettings Settings.defaults)
        (4 * text.utf8ByteSize + 8)).expression) (defaultEnv guard text) = .ok e) rest exprs)
    (hproper : rest ≠ []) (hbrace : (Text.kinds first).head? ≠ some .leftBrace) :
    (readsField (Text.kinds first) = false →
      ∃ p, run (program (Grammar.level (Registry.ofSettings Settings.defaults)
          (4 * (pipeLine first rest).utf8ByteSize + 8)))
            (defaultEnv guard (pipeLine first rest)) = .ok p ∧
        p.statements.map Statement.skeleton = [(pipeStatement (e :: exprs)).skeleton]) ∧
    (readsField (Text.kinds first) = true →
      ∀ p, run (program (Grammar.level (Registry.ofSettings Settings.defaults)
        (4 * (pipeLine first rest).utf8ByteSize + 8)))
          (defaultEnv guard (pipeLine first rest)) ≠ .ok p) := by
  have hkind : kindAt (Text.kinds first) 0 ≠ .leftBrace := by
    intro hkind
    refine hbrace ?_
    generalize Text.kinds first = kinds at hkind
    cases kinds with
    | nil => cases hkind
    | cons kind kinds => exact congrArg some hkind
  have hrun := run_pipe hguard (isPipe_pipeLine hlines hfirst hrest hproper) hkind
  constructor
  · intro hreads
    rwa [if_neg (by rw [hreads]; decide)] at hrun
  · intro hreads
    rwa [if_pos hreads] at hrun

end Parse

open Parse in
/-- A line of expressions with pipe operators between them, each on one line and accepted by
    itself, of which the first does not begin with a brace. The line is a program of one
    statement, which is the pipe of what the texts are by themselves, in the foreground.
    There is one exception. If the line begins with a name, and behind it there is an index
    or a dotted chain that does not end in a call, then it is rejected: the rule for fields
    has taken the first text as the whole statement. -/
theorem pipes_stand_as_statements {first : String} {rest : List String} {e : Expr}
    {exprs : List Expr} (hlines : ∀ text ∈ first :: rest, Text.IsLine text)
    (hfirst : (Parser.ofSettings Settings.unlimited).parseExpression first = .ok e)
    (hrest : List.Forall₂
      (fun text e => (Parser.ofSettings Settings.unlimited).parseExpression text = .ok e)
      rest exprs)
    (hproper : rest ≠ []) (hbrace : (Text.kinds first).head? ≠ some .leftBrace) :
    (readsField (Text.kinds first) = false →
      ∃ p, (Parser.ofSettings Settings.unlimited).parse (pipeLine first rest) = .ok p ∧
        p.statements.map Statement.skeleton = [(pipeStatement (e :: exprs)).skeleton]) ∧
    (readsField (Text.kinds first) = true →
      ∀ p, (Parser.ofSettings Settings.unlimited).parse (pipeLine first rest) ≠ .ok p) := by
  exact Parse.run_pipeLine rfl hlines hfirst hrest hproper hbrace

open Parse in
/-- Only the first text matters: a field may be read behind it. -/
theorem pipes_stand_as_statements_name :
    let parser := Parser.ofSettings Settings.unlimited
    (∀ text ∈ ["a", "x.y", "js.f(1)"], Text.IsLine text) ∧
      ∃ a b c, parser.parseExpression "a" = .ok a ∧ parser.parseExpression "x.y" = .ok b ∧
        parser.parseExpression "js.f(1)" = .ok c ∧ ["x.y", "js.f(1)"] ≠ [] ∧
        (Text.kinds "a").head? ≠ some .leftBrace ∧ readsField (Text.kinds "a") = false ∧
        ∃ p, parser.parse (pipeLine "a" ["x.y", "js.f(1)"]) = .ok p ∧
          p.statements.map Statement.skeleton = [(pipeStatement [a, b, c]).skeleton] := by
  intro parser
  have hlines : ∀ text ∈ ["a", "x.y", "js.f(1)"], Text.IsLine text := by decide +kernel
  rcases parser.parsesExpression "a" (by decide +kernel) with ⟨a, ha⟩
  rcases parser.parsesExpression "x.y" (by decide +kernel) with ⟨b, hb⟩
  rcases parser.parsesExpression "js.f(1)" (by decide +kernel) with ⟨c, hc⟩
  have hbrace : (Text.kinds "a").head? ≠ some .leftBrace := by decide +kernel
  have hreads : readsField (Text.kinds "a") = false := by decide +kernel
  have hproper : ["x.y", "js.f(1)"] ≠ [] := List.cons_ne_nil _ _
  refine ⟨hlines, a, b, c, ha, hb, hc, hproper, hbrace, hreads, ?_⟩
  exact (pipes_stand_as_statements hlines ha (.cons hb (.cons hc .nil)) hproper hbrace).1 hreads

open Parse in
/-- A field that is read at the beginning of a pipe. Both texts are accepted by themselves,
    and so is the line as the value of an assignment. -/
theorem pipe_of_field_rejected :
    let parser := Parser.ofSettings Settings.unlimited
    (∀ text ∈ ["x.y", "f(1)"], Text.IsLine text) ∧
      (∃ e, parser.parseExpression "x.y" = .ok e) ∧
      (∃ e, parser.parseExpression "f(1)" = .ok e) ∧
      (Text.kinds "x.y").head? ≠ some .leftBrace ∧
      (∃ p, parser.parse ("v = " ++ pipeLine "x.y" ["f(1)"]) = .ok p) ∧
      ∀ p, parser.parse (pipeLine "x.y" ["f(1)"]) ≠ .ok p := by
  intro parser
  have hlines : ∀ text ∈ ["x.y", "f(1)"], Text.IsLine text := by decide +kernel
  have hrejected : (parser.parseInOrder (pipeLine "x.y" ["f(1)"])).toOption.isNone = true := by
    decide +kernel
  rcases parser.accepts_of_inOrder ("v = " ++ pipeLine "x.y" ["f(1)"]) (fun _ => true)
    (by decide +kernel) with ⟨p, hvalue, -⟩
  refine ⟨hlines, parser.parsesExpression "x.y" (by decide +kernel),
    parser.parsesExpression "f(1)" (by decide +kernel), by decide +kernel, ⟨p, hvalue⟩,
    fun p hparse => ?_⟩
  rw [parser.parseInOrder_eq, hparse] at hrejected
  cases hrejected

end PolyScript
