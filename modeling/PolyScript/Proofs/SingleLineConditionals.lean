import PolyScript.Proofs.InOrder
import PolyScript.Proofs.SingleLine

/-!
# Conditionals on a Single Line

A conditional with both of its branches on one line is made of three texts: a condition and
two statements. Each is parsed in the whole as it is parsed alone, with one exception. The
look-ahead for an assignment goes past the `else`. If the first statement begins with a name
and is not an assignment itself, then an assignment sign in the second one is taken for its
own, and the line is rejected.

## Theorems

* `single_line_conditional`: A conditional on a single line.
* `single_line_assignment_mistaken`: An assignment behind the `else` that is mistaken.
-/

namespace PolyScript

/-- The default settings, with any depth of nesting allowed. -/
def Settings.unlimited : Settings := { defaults with guardEnabled := false }

/-- A text without line ends, and outside of its string literals without semicolons and
    comments. -/
structure Text.IsLine (text : String) : Prop where
  online : '\n' ∉ text.toList
  unbroken : isUnbroken none text.toList = true

instance (text : String) : Decidable (Text.IsLine text) :=
  decidable_of_iff ('\n' ∉ text.toList ∧ Text.isUnbroken none text.toList = true)
    ⟨fun h => ⟨h.1, h.2⟩, fun h => ⟨h.1, h.2⟩⟩

/-- On such a text there are no separators. -/
theorem Text.IsLine.head_ne {text : String} (h : IsLine text) :
    (dropBlank text.toList).head? ≠ some ';' := by
  intro hhead
  have hunbroken := Lexer.isUnbroken_dropBlank h.unbroken
  generalize dropBlank text.toList = cs at hhead hunbroken
  cases cs with
  | nil => cases hhead
  | cons c cs =>
      cases hhead
      cases hunbroken

/-- A text begins with a name. -/
def Text.BeginsWithName (text : String) : Prop :=
  ∃ t lx, (Lexer.ofSource text).next = (.ok t, lx) ∧ (t.kind = .identifier ∨ t.kind = .language)

/-- An assignment sign is seen in a text outside of all brackets, before the first
    statement of the text ends. -/
def Text.ShowsAssign (text : String) : Prop := (Lexer.ofSource text).Sights true 0 true

/-- A condition and the two statements that depend on it, on one line. -/
def conditionalLine (condition first second : String) : String :=
  "if " ++ condition ++ ": " ++ first ++ " else: " ++ second

namespace Parse

open Lexer

variable {env : Env} {g : Grammar} {s s' t t₁ t₂ t₃ : State} {a b : Statement} {e : Expr}

/-! ### Branches -/

/-- The state where terminators are enforced, or are not. -/
def State.eased (s : State) (isRelaxed : Bool) : State := { s with isRelaxed }

@[simp] theorem State.token_eased (s : State) (isRelaxed : Bool) :
    (s.eased isRelaxed).token = s.token := rfl

theorem State.advanced_eased (s : State) (isRelaxed : Bool) :
    (s.eased isRelaxed).advanced = s.advanced.eased isRelaxed := rfl

/-- The state behind a colon, where terminators are not enforced. -/
def State.behindColon (s : State) : State := s.advanced.filled.eased true

theorem State.behindColon_eased (s : State) (isRelaxed : Bool) :
    (s.eased isRelaxed).behindColon = s.behindColon := rfl

theorem State.behindColon_filled (s : State) : s.filled.behindColon = s.behindColon := by
  rw [behindColon, State.advanced_filled, behindColon]

/-- Behind a colon the state stands in front of the branch. -/
theorem State.Before.behindColon {line : String} {rest : List Char}
    (h : s.Before line (':' :: ' ' :: rest)) :
    s.token.kind = .colon ∧ s.behindColon.Before line rest := by
  rcases h.next (leads_colon _) (by decide) with ⟨hcolon, hbehind⟩
  exact ⟨hcolon, (hbehind.filled.withFrame s.advanced.filled.depth true).behind_space⟩

theorem around_of_ok {α : Type} {before after : State → State} {p : Parse α} {x : α}
    (h : p env (before s) = .ok x t) : around before after p env s = .ok x (after t) := by
  rw [around, h]

/-- A statement after a colon. -/
theorem body_run_colon (hcolon : s.token.kind = .colon)
    (hline : s.behindColon.token.kind ≠ .newline)
    (hrun : g.statement env s.behindColon = .ok a t) :
    body g env s = .ok (.mk [a] s.token.position) (t.eased s.isRelaxed) := by
  have hrelaxed : relaxed g.statement env s.advanced.filled = .ok a (t.eased s.isRelaxed) := by
    rw [relaxed, withTerminators_run]
    exact around_of_ok hrun
  rw [State.behindColon, State.token_eased, State.token_filled] at hline
  unfold body
  rw [bind_run, check_run]
  simp only [hcolon, decide_true, if_true]
  rw [bind_run, consume_run, State.advanced_filled, State.token_filled]
  simp only
  rw [bind_run, skipNewlines_run _ _ hline]
  simp only
  rw [bind_run, hrelaxed]
  rfl

/-- An `else` on the same line, and what stands behind it. -/
theorem otherwise_run_else {block : Block} (helse : s.token.kind = .kwElse)
    (hif : s.advanced.token.kind ≠ .kwIf) (hrun : body g env s.advanced.filled = .ok block t) :
    otherwise g env s = .ok (some block) t := by
  have hline : s.token.kind ≠ .newline := by rw [helse]; decide
  unfold otherwise
  rw [bind_run, nextAfterNewlinesIs_online _ _ _ hline]
  simp only [helse, decide_true, if_true]
  rw [bind_run, skipNewlines_run _ _ (by rwa [State.token_filled])]
  simp only [State.filled_filled]
  rw [bind_run, consume_run, State.advanced_filled]
  simp only
  rw [bind_run, check_run]
  simp only [hif, decide_false, Bool.false_eq_true, if_false]
  rw [bind_run, hrun]
  rfl

/-- A conditional on one line. -/
theorem conditional_online (hif : s.token.kind = .kwIf)
    (hcondition : g.expression env s.advanced = .ok e t₁) (hcolon : t₁.token.kind = .colon)
    (hline : t₁.behindColon.token.kind ≠ .newline)
    (hthen : g.statement env t₁.behindColon = .ok a t₂)
    (helse : t₂.token.kind = .kwElse) (hcolon' : t₂.advanced.token.kind = .colon)
    (hline' : t₂.advanced.behindColon.token.kind ≠ .newline)
    (hlast : g.statement env t₂.advanced.behindColon = .ok b t₃) :
    ∃ p₁ p₂ p, conditional g env s =
      .ok (.conditional e (.mk [a] p₁) (some (.mk [b] p₂)) p) (t₃.eased t₁.isRelaxed) := by
  -- behind the first branch the parser is as strict as before it
  have hbehind : ((t₂.eased t₁.isRelaxed).advanced.filled).behindColon =
      t₂.advanced.behindColon := by
    rw [State.advanced_eased, State.behindColon_filled, State.behindColon_eased]
  have hcolon'' : (t₂.eased t₁.isRelaxed).advanced.filled.token.kind = .colon := by
    rw [State.token_filled, State.advanced_eased, State.token_eased, hcolon']
  have hotherwise := otherwise_run_else (s := t₂.eased t₁.isRelaxed) helse
    (fun hkind => by cases hcolon'.symm.trans hkind)
    (body_run_colon hcolon'' (by rw [hbehind]; exact hline') (by rw [hbehind]; exact hlast))
  refine ⟨t₁.token.position, (t₂.eased t₁.isRelaxed).advanced.filled.token.position,
    s.filled.token.position, ?_⟩
  unfold conditional
  rw [bind_run, expect_run, if_pos hif, State.advanced_filled]
  simp only
  rw [bind_run, hcondition]
  simp only
  rw [bind_run, body_run_colon hcolon hline hthen]
  simp only
  rw [bind_run, hotherwise]
  rfl

/-- If no assignment sign is seen in a text, none is seen from an `else` in front of it. -/
theorem sights_else {text line : String} (htext : ¬Text.ShowsAssign text)
    (honline : '\n' ∉ text.toList) {nx : Lexer} (hmode : nx.sizeMode = false)
    (hrest : nx.tokenStart.rest = Text.dropBlank (" else: ".toList ++ text.toList))
    (hwithin : nx.Within line) : nx.Sights true 0 false := by
  have hplain : ∀ {lx : Lexer}, lx.sizeMode = false → lx.plain = lx := by
    intro lx hlx
    rw [Lexer.plain, ← hlx]
  -- From the `else` the search passes two tokens before it comes to the text.
  rcases (leads_else text.toList).next hmode hrest with ⟨t, lx, hnext, ht, hlx, hbehind⟩
  have hrest' : lx.tokenStart.rest = Text.dropBlank (':' :: ' ' :: text.toList) := by
    rw [tokenStart_rest, hbehind]
  rcases (leads_colon (' ' :: text.toList)).next hlx hrest' with ⟨u, mx, hnext', hu, hmx, hbehind'⟩
  have hsees : mx.Sights true 0 false := by
    -- What is seen in the text alone is seen in the line, which ends where the text does.
    rcases exists_sights (Lexer.ofSource text) true 0 with ⟨b, ts, r, hyields, hb⟩
    cases b with
    | true => exact absurd ⟨ts, r, hyields, hb⟩ htext
    | false =>
        have hnothing : Parts [] := nofun
        have hcopies : (Lexer.ofSource text).Copies [] mx := by
          refine copies_of_cursor hnothing hmx honline (fun hne => absurd rfl hne) ?_
          rw [hbehind', dropBlank_space, List.append_nil]
          rfl
        rcases hcopies.yields ⟨rfl, [], rfl, rfl⟩
          ((hwithin.next_ok hnext).next_ok hnext') hyields with ⟨us, q, hus, hkinds⟩
        refine ⟨us, q, by rw [hplain hmx]; exact hus, ?_⟩
        rw [hkinds]
        exact hb
  refine .step (by rw [hplain hmode]; exact hnext) (by rw [Token.isEnd, ht]; rfl)
    (by rw [ht]; rfl) ?_
  exact .step (by rw [hplain hlx]; exact hnext') (by rw [Token.isEnd, hu]; rfl)
    (by rw [hu]; rfl) hsees

/-! ### The line -/

theorem leads_colon_space (cs : List Char) : Leads (": ".toList ++ cs) .colon (' ' :: cs) :=
  leads_colon (' ' :: cs)

theorem parts_colon (cs : List Char) : Parts (": ".toList ++ cs) := by
  have hletters : ": ".toList = [':', ' '] := rfl
  rw [hletters]
  exact parts_cons (by decide)

theorem parts_else (cs : List Char) : Parts (" else: ".toList ++ cs) := by
  have hletters : " else: ".toList = [' ', 'e', 'l', 's', 'e', ':', ' '] := rfl
  rw [hletters]
  exact parts_cons (by decide)

section

variable {condition first second : String}

theorem toList_conditionalLine : (conditionalLine condition first second).toList =
    "if ".toList ++ (condition.toList ++
      (": ".toList ++ (first.toList ++ (" else: ".toList ++ second.toList)))) := by
  simp only [conditionalLine, String.toList_append, List.append_assoc]

theorem byteSize_conditionalLine : (conditionalLine condition first second).utf8ByteSize =
    condition.utf8ByteSize + first.utf8ByteSize + second.utf8ByteSize + 12 := by
  have hsigns : "if ".utf8ByteSize = 3 ∧ ": ".utf8ByteSize = 2 ∧ " else: ".utf8ByteSize = 7 := by
    decide
  simp only [conditionalLine, String.utf8ByteSize_append, hsigns]
  omega

/-- A statement at the end of a line. -/
def lastPassage {guard : Guard} (hguard : guard.enabled = false) {text line : String}
    (hle : text.utf8ByteSize ≤ line.utf8ByteSize) : Passage :=
  passageOn hguard text line (nofun : Parts []) leads_end rfl hle

/-- The rule for conditionals at the beginning of the line. Each of the three texts is a
    passage of the line, and its parse ends at what stands behind it: a colon, the keyword, or
    the end. -/
theorem conditional_before {e : Expr} {a b : Statement} (hc : Text.IsLine condition)
    (h₁ : Text.IsLine first) (h₂ : Text.IsLine second)
    {guard : Guard} (hguard : guard.enabled = false)
    (he : run (wholeText (Grammar.level (Registry.ofSettings Settings.defaults)
      (4 * condition.utf8ByteSize + 8)).expression) (defaultEnv guard condition) = .ok e)
    (ha : run (program (Grammar.level (Registry.ofSettings Settings.defaults)
      (4 * first.utf8ByteSize + 8))) (defaultEnv guard first) = .ok ⟨[a]⟩)
    (hsimple : a.isSimple = true)
    (hb : run (program (Grammar.level (Registry.ofSettings Settings.defaults)
      (4 * second.utf8ByteSize + 8))) (defaultEnv guard second) = .ok ⟨[b]⟩)
    (hplain : a.isAssignment = true ∨ ¬Text.BeginsWithName first ∨ ¬Text.ShowsAssign second)
    {line : String} (hline : line = conditionalLine condition first second)
    (hle : second.utf8ByteSize ≤ line.utf8ByteSize)
    (hs : s.Before line line.toList) :
    ∃ e' a' b' p₁ p₂ p u v w,
      conditional (Grammar.level (Registry.ofSettings Settings.defaults)
          (4 * line.utf8ByteSize + 7)) (defaultEnv guard line) s =
        .ok (.conditional e' (.mk [a'] p₁) (some (.mk [b'] p₂)) p) u ∧
      e'.skeleton true = e.skeleton true ∧ a'.skeleton = a.skeleton ∧ b'.skeleton = b.skeleton ∧
      Tandem (lastPassage hguard hle) (.blank true) 0 v u ∧ v.isRelaxed = false ∧ v.Skips w ∧
        w.token.kind = .endOfInput ∧ w.buffer.lexError? = none := by
  have hbytes : line.utf8ByteSize =
      condition.utf8ByteSize + first.utf8ByteSize + second.utf8ByteSize + 12 := by
    rw [hline, byteSize_conditionalLine]
  rw [hline, toList_conditionalLine, ← hline] at hs
  have hbuiltin := Registry.isBuiltin_ofSettings Settings.defaults
  -- the condition
  rcases hs.next (leads_if _) (by decide) with ⟨hif, hs₁⟩
  have hlevel₁ : 4 * condition.utf8ByteSize + 8 ≤ 4 * line.utf8ByteSize + 7 := by omega
  let P₁ := passageOn hguard condition line
    (parts_colon (first.toList ++ (" else: ".toList ++ second.toList))) (leads_colon_space _) rfl
    (by omega)
  rcases State.Before.expression (P := P₁) hbuiltin rfl hs₁.behind_space (by simp [P₁, passageOn])
    hc.unbroken hc.online (by change Kind.colon ≠ .kwElse; decide) hlevel₁ he with
    ⟨e', t₁, hexpression, he', hcolon₁, ht₁⟩
  -- the first statement
  rcases ht₁.behindColon with ⟨-, hs₂⟩
  have hlevel₂ : 4 * first.utf8ByteSize + 7 ≤ 4 * line.utf8ByteSize + 6 := by omega
  let P₂ := passageOn hguard first line
    (parts_else second.toList) (leads_else _) rfl (by omega)
  rcases State.Before.simple (P := P₂) rfl hs₂ (by simp [P₂, passageOn])
    h₁.unbroken h₁.online rfl rfl hlevel₂ ha hsimple (by
      refine hplain.imp id (.imp ?_ ?_)
      · intro hname u lx hnext
        exact ⟨fun hu => hname ⟨u, lx, hnext, .inl hu⟩, fun hu => hname ⟨u, lx, hnext, .inr hu⟩⟩
      · intro hassign nx hmode hrest hwithin
        exact sights_else hassign h₂.online hmode hrest hwithin) with
    ⟨hline₁, a', t₂, hstatement, ha', helse, ht₂⟩
  -- the second statement
  rcases ht₂.next (leads_else _) (by decide) with ⟨-, hs₃⟩
  rcases hs₃.behindColon with ⟨hcolon₃, hs₄⟩
  have hlevel₃ : 4 * second.utf8ByteSize + 8 ≤ 4 * line.utf8ByteSize + 7 := by omega
  rw [← List.append_nil second.toList] at hs₄
  rcases State.Before.last (P := lastPassage hguard hle) hs₄ rfl h₂.online h₂.head_ne hlevel₃ hb
    with ⟨hline₂, b', v, t₃, w, hstatement', hb', hfinish, hrelaxed, hskips, hend, hclean⟩
  rcases conditional_online hif hexpression hcolon₁ hline₁ hstatement helse hcolon₃ hline₂
    hstatement' with ⟨p₁, p₂, p, hrun⟩
  refine ⟨e', a', b', p₁, p₂, p, _, v, w, hrun, he', ha', hb', ?_, hrelaxed, hskips, hend, hclean⟩
  refine hfinish.reframed ⟨rfl, rfl⟩ ⟨rfl, rfl⟩ hfinish.frame.1 ⟨fun h => ?_, fun h => ?_⟩
  · rw [hrelaxed] at h
    cases h
  · cases h

end

/-- At the keyword of conditionals their handler is asked first. -/
theorem candidates_if {t : Token} (ht : t.kind = .kwIf) (rest : List Token) :
    ∃ settings others, (Registry.ofSettings Settings.defaults).candidates (t :: rest) =
      Handler.builtin settings :: others ∧ settings.construct = .conditional :=
  Registry.candidates_head (priority := 100) (by decide +kernel) (by decide +kernel) ht rest

/-- What the dispatcher makes of a conditional. -/
theorem dispatch_conditional {line : String} {guard : Guard} (hguard : guard.enabled = false)
    (hs : s.Before line line.toList) (hif : s.token.kind = .kwIf) (g : Grammar) :
    ∃ s', s'.Before line line.toList ∧ ∀ a t, conditional g (defaultEnv guard line) s' = .ok a t →
      dispatch (Registry.ofSettings Settings.defaults) g (defaultEnv guard line) s =
        conclude a (defaultEnv guard line) (t.atDepth (Guard.exit t.depth)) := by
  rcases dispatch_head (fun rest => candidates_if hif rest) g with
    ⟨settings, r, hconstruct, hreads, hasked⟩
  have hbefore := (hs.reads hreads).filled
  refine ⟨r.filled.atDepth (r.depth + 1), hbefore.withFrame (r.depth + 1) r.isRelaxed,
    fun a t hrun => hasked _ a _ ?_⟩
  -- The rule checks the keyword again, at a state that has only read more.
  have htoken : (r.filled.atDepth (r.depth + 1)).token.kind = .kwIf := by
    change r.filled.token.kind = .kwIf
    rw [State.token_filled, hreads.token_eq, hif]
  have hfilled : (r.filled.atDepth (r.depth + 1)).filled = r.filled.atDepth (r.depth + 1) :=
    congrArg (State.atDepth · (r.depth + 1)) r.filled_filled
  have hparse : (Handler.builtin settings).parse g (defaultEnv guard line)
      (r.filled.atDepth (r.depth + 1)) = .ok (some a) t := by
    simp only [Handler.builtin, hconstruct, Construct.keyword?, Handler.rule]
    rw [bind_run, check_run, htoken, hfilled]
    simp only [decide_true, if_true]
    rw [Handler.certainly, bind_run, hrun]
    rfl
  rw [nested_entered (enter_of_disabled hguard _ _)]
  exact around_of_ok hparse

/-- A line of `if`, a condition and two simple statements is parsed as the conditional of what
    these are parsed as on their own, where no assignment sign in the second one is taken for one
    of the first. -/
theorem run_conditionalLine {condition first second : String} {e : Expr} {a b : Statement}
    (hc : Text.IsLine condition) (h₁ : Text.IsLine first) (h₂ : Text.IsLine second) {guard : Guard}
    (hguard : guard.enabled = false)
    (he : run (wholeText (Grammar.level (Registry.ofSettings Settings.defaults)
      (4 * condition.utf8ByteSize + 8)).expression) (defaultEnv guard condition) = .ok e)
    (ha : run (program (Grammar.level (Registry.ofSettings Settings.defaults)
      (4 * first.utf8ByteSize + 8))) (defaultEnv guard first) = .ok ⟨[a]⟩)
    (hsimple : a.isSimple = true)
    (hb : run (program (Grammar.level (Registry.ofSettings Settings.defaults)
      (4 * second.utf8ByteSize + 8))) (defaultEnv guard second) = .ok ⟨[b]⟩)
    (hplain : a.isAssignment = true ∨ ¬Text.BeginsWithName first ∨ ¬Text.ShowsAssign second)
    {line : String} (hline : line = conditionalLine condition first second) :
    ∃ p, run (program (Grammar.level (Registry.ofSettings Settings.defaults)
        (4 * line.utf8ByteSize + 8))) (defaultEnv guard line) = .ok p ∧
      p.statements.map Statement.skeleton =
        [(Statement.conditional e (.mk [a] .start) (some (.mk [b] .start)) .start).skeleton] := by
  obtain ⟨behind, hleads⟩ : ∃ behind, Leads line.toList .kwIf behind := by
    rw [hline, toList_conditionalLine]
    exact ⟨_, leads_if _⟩
  have hle : second.utf8ByteSize ≤ line.utf8ByteSize := by
    rw [hline, byteSize_conditionalLine]
    omega
  have hbefore := (State.Before.initial line).filled
  have hif : (State.initial line).token.kind = .kwIf :=
    ((State.Before.initial line).next hleads (by decide)).1
  rcases dispatch_conditional hguard hbefore (by rw [State.token_filled]; exact hif)
    (Grammar.level (Registry.ofSettings Settings.defaults) (4 * line.utf8ByteSize + 7)) with
    ⟨s, hs, hdispatch⟩
  rcases conditional_before hc h₁ h₂ hguard he ha hsimple hb hplain hline hle hs with
    ⟨e', a', b', p₁, p₂, p, u, v, w, hrun, he', ha', hb', hpair, hrelaxed, hskips, hend, hclean⟩
  -- the line is over where the second statement is
  have hlast : Tandem (lastPassage hguard hle) (.blank true) 0 v
      (u.atDepth (Guard.exit u.depth)) := by
    refine hpair.reframed ⟨rfl, rfl⟩ ⟨rfl, rfl⟩ hpair.frame.1 ⟨fun h => ?_, nofun⟩
    rw [hrelaxed] at h
    cases h
  rcases conclude_terminated (hlast.finish rfl hskips hend hclean).1 _ with ⟨t, hconclude, ht⟩
  rcases ((hlast.reads (State.Reads.refl v) ht).finish rfl hskips hend hclean).2 with
    ⟨x, hskip, hx, hxclean⟩
  have hstatement := (hdispatch _ u hrun).trans hconclude
  have hopen : (State.initial line).token.kind ≠ .endOfInput ∧
      isSeparator (State.initial line).token.kind = false := by
    rw [hif]
    decide
  refine ⟨_, run_single hopen hstatement hskip hx hxclean, ?_⟩
  simp only [List.map_cons, List.map_nil, Statement.skeleton, Block.skeleton, skeletonStatements,
    skeletonElse, he', ha', hb']

end Parse

open Parse in
/-- A conditional on one line. Its parts are texts on one line: a condition, a statement that
    is an assignment, an expression or a call in the foreground, and any other statement. The
    line is the conditional that is made of what the texts are by themselves, unless the
    first statement begins with a name and is no assignment while the second one shows an
    assignment sign. -/
theorem single_line_conditional {condition first second : String} (hc : Text.IsLine condition)
    (h₁ : Text.IsLine first) (h₂ : Text.IsLine second) {e : Expr} {a b : Statement}
    (he : (Parser.ofSettings Settings.unlimited).parseExpression condition = .ok e)
    (ha : (Parser.ofSettings Settings.unlimited).parse first = .ok ⟨[a]⟩)
    (hsimple : a.isSimple = true)
    (hb : (Parser.ofSettings Settings.unlimited).parse second = .ok ⟨[b]⟩)
    (hplain : a.isAssignment = true ∨ ¬Text.BeginsWithName first ∨ ¬Text.ShowsAssign second) :
    ∃ p, (Parser.ofSettings Settings.unlimited).parse (conditionalLine condition first second) =
        .ok p ∧
      p.statements.map Statement.skeleton =
        [(Statement.conditional e (.mk [a] .start) (some (.mk [b] .start)) .start).skeleton] := by
  exact Parse.run_conditionalLine hc h₁ h₂ rfl he ha hsimple hb hplain
    rfl

/-- A program of one statement that passes a check, found by a computation. -/
theorem Parser.single_of_inOrder (parser : Parser) (source : String) (check : Statement → Bool)
    (h : (parser.parseInOrder source).toOption.any (fun p =>
      p.statements.length = 1 && p.statements.all check) = true) :
    ∃ a, parser.parse source = .ok ⟨[a]⟩ ∧ check a = true := by
  rcases parser.accepts_of_inOrder source _ h with ⟨⟨statements⟩, hparse, hcheck⟩
  rw [Bool.and_eq_true, decide_eq_true_eq] at hcheck
  rcases List.length_eq_one_iff.1 hcheck.1 with ⟨a, rfl⟩
  exact ⟨a, hparse, List.all_eq_true.1 hcheck.2 a List.mem_cons_self⟩

theorem Parser.parsesExpression (parser : Parser) (source : String)
    (h : (parser.parseExpression source).toOption.isSome = true) :
    ∃ e, parser.parseExpression source = .ok e := by
  cases hparse : parser.parseExpression source with
  | error => rw [hparse] at h; cases h
  | ok e => exact ⟨e, rfl⟩

/-- An assignment of a text that looks like what follows it, and a second assignment. -/
theorem single_line_conditional_quoted :
    let parser := Parser.ofSettings Settings.unlimited
    Text.IsLine "a[1] " ∧ Text.IsLine "x = \"; else: #\"" ∧ Text.IsLine "y = 2" ∧
      ∃ e a b, parser.parseExpression "a[1] " = .ok e ∧
        parser.parse "x = \"; else: #\"" = .ok ⟨[a]⟩ ∧ a.isSimple = true ∧
        parser.parse "y = 2" = .ok ⟨[b]⟩ ∧ a.isAssignment = true ∧
        ∃ p, parser.parse "if a[1] : x = \"; else: #\" else: y = 2" = .ok p ∧
          p.statements.map Statement.skeleton =
            [(Statement.conditional e (.mk [a] .start) (some (.mk [b] .start))
              .start).skeleton] := by
  intro parser
  have hc : Text.IsLine "a[1] " := by decide +kernel
  have h₁ : Text.IsLine "x = \"; else: #\"" := by decide +kernel
  have h₂ : Text.IsLine "y = 2" := by decide +kernel
  rcases parser.parsesExpression "a[1] " (by decide +kernel) with ⟨e, he⟩
  rcases parser.single_of_inOrder "x = \"; else: #\"" (fun a => a.isSimple && a.isAssignment)
    (by decide +kernel) with ⟨a, ha, hcheck⟩
  rcases parser.single_of_inOrder "y = 2" (fun _ => true) (by decide +kernel) with ⟨b, hb, -⟩
  rw [Bool.and_eq_true] at hcheck
  refine ⟨hc, h₁, h₂, e, a, b, he, ha, hcheck.1, hb, hcheck.2, ?_⟩
  exact single_line_conditional hc h₁ h₂ he ha hcheck.1 hb (.inl hcheck.2)

/-- A name as the first statement takes the assignment sign of the second one for its own. -/
theorem single_line_assignment_mistaken :
    let parser := Parser.ofSettings Settings.unlimited
    Text.IsLine "a" ∧ Text.IsLine "x" ∧ Text.IsLine "y = 1" ∧
      (∃ e, parser.parseExpression "a" = .ok e) ∧
      (∃ a, parser.parse "x" = .ok ⟨[a]⟩ ∧ a.isSimple = true) ∧
      (∃ b, parser.parse "y = 1" = .ok ⟨[b]⟩) ∧
      ∀ p, parser.parse "if a: x else: y = 1" ≠ .ok p := by
  intro parser
  have hrejected : (parser.parseInOrder "if a: x else: y = 1").toOption.isNone = true := by
    decide +kernel
  rcases parser.single_of_inOrder "x" Statement.isSimple (by decide +kernel) with ⟨a, ha, hsimple⟩
  rcases parser.single_of_inOrder "y = 1" (fun _ => true) (by decide +kernel) with ⟨b, hb, -⟩
  refine ⟨by decide +kernel, by decide +kernel, by decide +kernel,
    parser.parsesExpression "a" (by decide +kernel), ⟨a, ha, hsimple⟩, ⟨b, hb⟩, fun p hparse => ?_⟩
  rw [parser.parseInOrder_eq, hparse] at hrejected
  cases hrejected

end PolyScript
