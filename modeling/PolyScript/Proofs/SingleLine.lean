import PolyScript.Proofs.EchoDispatch
import PolyScript.Proofs.GuestCode

/-!
# The Parts of a Line

A line may be made of several texts, with keywords and signs between them. Each text is
parsed in the line as it is parsed alone, if what follows it begins with a token at which an
expression ends. The parse of the line then goes on in front of what follows.

For a text that is a statement there is a condition. The look-ahead for an assignment does
not end with the text, so an assignment sign that comes later must not be mistaken for one
of this statement.

## Main definitions

* `Parse.Leads`: What a text begins with.
* `Parse.passageOn`: A text on a line.
* `Parse.State.Before`: A state stands in front of what is left of a line.

## Theorems

* `Parse.State.Before.expression`: An expression that something stands behind.
* `Parse.State.Before.simple`: A statement that an `else` stands behind.
* `Parse.State.Before.last`: A statement at the end of a line.
* `Parse.run_single`: A line that is one statement.
-/

namespace PolyScript

/-- Assignments. -/
def Statement.isAssignment : Statement → Bool
  | .assignment .. => true
  | _ => false

/-- Expressions, and calls in the foreground. -/
def Statement.isValue (s : Statement) : Bool := s.isSimple && !s.isAssignment

namespace Parse

open Lexer

variable {P : Passage} {ν : Outlook} {κ : Nat → Kind} {g g' : Grammar} {lx mx : Lexer}
  {s s' t : State} {a : Statement}

/-! ### What a statement says of the look-ahead -/

/-- An answer that is no assignment. -/
def Unassigned (answer : Option Statement) : Prop :=
  answer.all (fun statement => !statement.isAssignment) = true

theorem unassigned_of_isSimple {a : Statement} (h : a.isSimple = false) : Unassigned (some a) := by
  cases a <;> first | rfl | cases h

theorem Results.certainly {S : Statement → Prop} {p : Parse Statement} (h : Results S p)
    (hS : ∀ a, S a → Unassigned (some a)) : Results Unassigned (Handler.certainly p) :=
  .bind h fun a ha => .pure (hS a ha)

theorem results_decline : Results Unassigned decline := .pure rfl

/-- An announced rule comes to a statement that is not simple, so to no assignment. -/
theorem Announced.unassigned {ahead : Parse Bool} {p : Attempt} (h : Announced ahead p) :
    Results Unassigned p := by
  rcases h with ⟨q, rfl, hresults⟩
  refine .behind fun announced => .ite (hresults.mono ?_) results_decline
  rintro (_ | a) ha
  · rfl
  · exact unassigned_of_isSimple ha

theorem results_expressionStatement (g : Grammar) :
    Results (fun statement => Unassigned (some statement)) (expressionStatement g) :=
  .behind fun _expr => .ite (.behind fun _background => .pure rfl) (.pure rfl)

theorem results_languageCall (g : Grammar) : Results Unassigned (languageCall g) := by
  refine .behind fun _dotAhead => .ite (.behind fun _endsInCall => .ite ?_ results_decline)
    results_decline
  exact .behind fun _start => .behind fun _call => .behind fun _background => .pure rfl

theorem results_fieldAccess (g : Grammar) : Results Unassigned (fieldAccess g) :=
  .behind fun _ahead => .ite (.behind fun _expr => .pure rfl) results_decline

theorem results_builtinCall (g : Grammar) : Results Unassigned (builtinCall g) := by
  refine .behind fun _name => .ite (.behind fun _next => .ite ?_ results_decline) results_decline
  exact .bind (results_expressionStatement g) fun _ ha => .pure ha

/-- Assignments are the answers of one rule only, and all other rules decline or come to
    another statement. -/
theorem results_rule (g : Grammar) {settings : HandlerSettings}
    (h : settings.construct ≠ .assignment) : Results Unassigned (Handler.rule settings g) := by
  unfold Handler.rule
  cases hconstruct : settings.construct with
  | conditional => exact (results_conditional g).certainly fun _ => unassigned_of_isSimple
  | select => exact (results_select g).certainly fun _ => unassigned_of_isSimple
  | forIn => exact (announced_forIn g settings).unassigned
  | numericFor => exact (announced_numericFor g).unassigned
  | whileLoop => exact (results_whileLoop g).certainly fun _ => unassigned_of_isSimple
  | breakLoop | continueLoop => exact results_loopControl.certainly fun _ => unassigned_of_isSimple
  | block =>
      exact Results.certainly (S := fun s => s.isSimple = false) (.behind fun _block => .pure rfl)
        fun _ => unassigned_of_isSimple
  | codeBlock => exact announced_codeBlock.unassigned
  | assignment => exact absurd hconstruct h
  | languageCall => exact results_languageCall g
  | fieldAccess => exact results_fieldAccess g
  | builtinCall => exact results_builtinCall g
  | expression => exact (results_expressionStatement g).certainly fun _ => id

theorem results_builtin (g : Grammar) {settings : HandlerSettings}
    (h : settings.construct ≠ .assignment) :
    Results Unassigned ((Handler.builtin settings).parse g) := by
  simp only [Handler.builtin]
  split
  · exact .behind fun _keyword => .ite (results_rule g h) results_decline
  · exact results_rule g h

theorem results_assigned (g : Grammar) :
    Results (fun answer => answer.all Statement.isValue = false) (assigned g) :=
  .behind fun _target => .ite (.behind fun _assign => .behind fun _newlines =>
    .behind fun _value => .pure rfl) .throw

/-- A handler that answers with an expression has taken the look-ahead along. -/
theorem tandem_of_builtin (hg : g.Echoes P g') (hwhole : Whole P ν Statement.isValue)
    (settings : HandlerSettings) (hpair : Tandem P ν 0 s s') (hend : s.token.kind ≠ .endOfInput)
    (hvalue : a.isValue = true)
    (hrun : (Handler.builtin settings).parse g P.alone s = .ok (some a) t) :
    ∃ t', Tandem P ν 0 t t' := by
  by_cases hassignment : settings.construct = .assignment
  · exfalso
    rw [Handler.parse_assignment hassignment, assignment_eq, bind_run] at hrun
    split at hrun
    · split at hrun
      · have hbad : a.isValue = false := results_assigned g _ _ _ _ hrun
        rw [hvalue] at hbad
        cases hbad
      · cases hrun
    · cases hrun
  · rcases echoes_builtin hg hwhole hend hassignment s s' (some a) t hpair s.sees
      (only_ok.2 ⟨hrun, hvalue⟩) with ⟨hfalse, -⟩ | ⟨_, t', _, -, ht, -⟩
    · exact hfalse.elim
    · exact ⟨t', ht⟩

/-- A statement is the answer of some handler that was asked where the statement begins. -/
theorem tryHandlers_ok {env : Env} {handlers : List Handler}
    (hbuiltin : ∀ h ∈ handlers, ∃ settings, h = Handler.builtin settings) {first : Token}
    (hrun : tryHandlers g first s.cursor handlers env s = .ok a t) :
    ∃ settings u v, Handler.builtin settings ∈ handlers ∧ s.Reads u ∧
      nested ((Handler.builtin settings).parse g) env u = .ok (some a) v ∧
        conclude a env v = .ok a t := by
  induction handlers generalizing s with
  | nil => cases hrun
  | cons handler rest ih =>
      rcases hbuiltin handler List.mem_cons_self with ⟨settings, rfl⟩
      unfold tryHandlers at hrun
      rw [bind_run] at hrun
      split at hrun
      · rename_i answer u hanswer
        cases answer with
        | some statement =>
            change conclude statement env u = _ at hrun
            have hsame : a = statement := (conclude_ok hrun).1
            subst hsame
            exact ⟨settings, s, u, List.mem_cons_self, State.Reads.refl s, hanswer, hrun⟩
        -- A handler that declines gives its tokens back, so the next one stands where this one
        -- stood.
        | none =>
            have hu : s.Reads u := (quiet_builtin settings g).nested _ s u hanswer
            have hback : ({ u with cursor := s.cursor } : State) = u ∧ u.cursor = s.cursor := by
              rcases hu with ⟨n, rfl⟩
              exact ⟨rfl, rfl⟩
            change tryHandlers g first s.cursor rest _ { u with cursor := s.cursor } = _ at hrun
            rw [hback.1, ← hback.2] at hrun
            rcases ih (fun h hmem => hbuiltin h (List.mem_cons_of_mem _ hmem)) hrun with
              ⟨settings', v, w, hmem, hv, hanswer', hconclude⟩
            exact ⟨settings', v, w, List.mem_cons_of_mem _ hmem, hu.trans hv, hanswer', hconclude⟩
      · cases hrun

/-- The same of the dispatcher. -/
theorem dispatch_ok {registry : Registry} (hbuiltin : registry.IsBuiltin) {env : Env}
    (hrun : dispatch registry g env s = .ok a t) :
    ∃ settings u v, Handler.builtin settings ∈ registry.candidates
        (s.buffer.tokensFrom s.cursor registry.windowSize) ++ registry.fallbacks ∧ s.Reads u ∧
      nested ((Handler.builtin settings).parse g) env u = .ok (some a) v ∧
        conclude a env v = .ok a t := by
  rcases dispatch_run registry g s with ⟨u, hu, -, hasked⟩
  rw [hasked] at hrun
  have hcursor : u.cursor = s.cursor := by
    rcases hu with ⟨n, rfl⟩
    rfl
  -- A statement came of it, so there are tokens in the window.
  cases hwindow : s.buffer.tokensFrom s.cursor registry.windowSize with
  | nil =>
      rw [hwindow] at hrun
      cases hrun
  | cons first rest =>
      rw [hwindow, ← hcursor] at hrun
      rcases tryHandlers_ok (fun h => isBuiltin_asked hbuiltin) hrun with
        ⟨settings, v, w, hmem, hv, hanswer, hconclude⟩
      exact ⟨settings, v, w, hmem, hu.trans hv, hanswer, hconclude⟩

/-! ### Standing in front of a text -/

/-- A text begins with a token of a kind in either mode, and another text is behind it. -/
def Leads (cs : List Char) (kind : Kind) (cs' : List Char) : Prop :=
  ∀ sizeMode p, ∃ t after, scanToken sizeMode (Text.dropBlank cs) p = (.ok t, after) ∧
    t.kind = kind ∧ after.rest = cs'

theorem dropBlank_space (cs : List Char) : Text.dropBlank (' ' :: cs) = Text.dropBlank cs :=
  skipBlank_rest false false cs _ _

theorem dropBlank_solid {c : Char} {cs : List Char} (hblank : Text.isBlank c = false)
    (hcomment : startsComment (c :: cs) = false) : Text.dropBlank (c :: cs) = c :: cs := by
  rw [Text.dropBlank, skipBlank, hblank, hcomment]
  rfl

theorem Leads.space {cs cs' : List Char} {kind : Kind} (h : Leads cs kind cs') :
    Leads (' ' :: cs) kind cs' := by
  rw [Leads, dropBlank_space]
  exact h

theorem leads_colon (cs : List Char) : Leads (':' :: cs) .colon cs := by
  intro sizeMode p
  have hsymbol : symbol? (':' :: cs) = some ([':'], .colon) := rfl
  rw [dropBlank_solid (by decide) rfl]
  exact ⟨_, _, scanToken_of_scansAs (.symbol hsymbol), rfl, rfl⟩

theorem leads_pipe (cs : List Char) : Leads ('|' :: '>' :: cs) .pipe cs := by
  intro sizeMode p
  have hsymbol : symbol? ('|' :: '>' :: cs) = some (['|', '>'], .pipe) := rfl
  rw [dropBlank_solid (by decide) rfl]
  exact ⟨_, _, scanToken_of_scansAs (.symbol hsymbol), rfl, rfl⟩

/-- A reserved word of letters. -/
theorem leads_word {c d : Char} {letters cs : List Char}
    (hletters : (c :: letters).all Text.isAlphabetic = true) (hd : EndsName d) :
    Leads (c :: letters ++ d :: cs) (Kind.ofWord (String.ofList (c :: letters))) (d :: cs) := by
  rw [List.all_eq_true] at hletters
  -- Letters belong to words in both modes and `d` does not, so the mode does not matter.
  have hword : ∀ sizeMode (word : List Char), (∀ l ∈ word, Text.isAlphabetic l = true) →
      splitWord sizeMode (word ++ d :: cs) = (word, d :: cs) := by
    intro sizeMode word hletters
    induction word with
    | nil => exact splitWord_stop hd.1 fun hdash => absurd hdash hd.2
    | cons l word ih =>
        have hpart : isNamePart l = true := by
          simp [isNamePart, Text.isAlphanumeric, hletters l List.mem_cons_self]
        rw [List.cons_append, splitWord_part hpart,
          ih fun l hl => hletters l (List.mem_cons_of_mem _ hl)]
  intro sizeMode p
  have hstart : isNameStart c = true := by simp [isNameStart, hletters c List.mem_cons_self]
  have hsolid : Text.dropBlank (c :: (letters ++ d :: cs)) = c :: (letters ++ d :: cs) := by
    rw [Text.dropBlank, skipBlank_opensWord (by simp [opensWord, hstart])]
  rw [List.cons_append, hsolid]
  have hscan := scanToken_word hstart sizeMode (letters ++ d :: cs) p
  have hsplit := hword sizeMode (c :: letters) hletters
  rw [List.cons_append] at hsplit
  refine ⟨_, _, hscan, ?_, ?_⟩
  · simp only [wordToken, hsplit]
  · simp only [wordToken, hsplit]

theorem Leads.next {cs cs' : List Char} {kind : Kind} (h : Leads cs kind cs')
    (hmode : lx.sizeMode = false) (hrest : lx.tokenStart.rest = Text.dropBlank cs) :
    ∃ t lx', lx.next = (.ok t, lx') ∧ t.kind = kind ∧ lx'.sizeMode = false ∧
      lx'.cursor.rest = cs' := by
  rcases h false lx.tokenStart.here with ⟨t, after, hscan, ht, hafter⟩
  have hnext : lx.next = (.ok t, { lx with cursor := after }) := by
    rw [next_eq, hmode, hrest, hscan]
  exact ⟨t, _, hnext, ht, hmode, hafter⟩

theorem leads_if (cs : List Char) : Leads ("if ".toList ++ cs) .kwIf (' ' :: cs) := by
  have hword : Leads ('i' :: ['f'] ++ ' ' :: cs) (Kind.ofWord (String.ofList ('i' :: ['f'])))
      (' ' :: cs) := leads_word rfl ⟨by decide, by decide⟩
  have hkind : Kind.ofWord (String.ofList ('i' :: ['f'])) = .kwIf := by decide
  rw [hkind] at hword
  exact hword

theorem leads_else (cs : List Char) :
    Leads (" else: ".toList ++ cs) .kwElse (':' :: ' ' :: cs) := by
  have hword : Leads ('e' :: ['l', 's', 'e'] ++ ':' :: ' ' :: cs)
      (Kind.ofWord (String.ofList ('e' :: ['l', 's', 'e']))) (':' :: ' ' :: cs) :=
    leads_word rfl ⟨by decide, by decide⟩
  have hkind : Kind.ofWord (String.ofList ('e' :: ['l', 's', 'e'])) = .kwElse := by decide
  rw [hkind] at hword
  exact hword.space

theorem leads_end : Leads [] .endOfInput [] := fun _ _ => ⟨_, _, rfl, rfl, rfl⟩

/-- How a text is parsed with the default languages. -/
def defaultEnv (guard : Guard) (text : String) : Env := ⟨text, .ofList Language.defaults, guard⟩

/-- A text on a line and what follows it there, parsed without a limit on nesting. -/
def passageOn {guard : Guard} (hguard : guard.enabled = false) (text line : String)
    {tail behind : List Char} {stop : Kind} (hparts : Parts tail)
    (hleads : Leads tail stop behind) (hstop : stop.isStop = true)
    (hle : text.utf8ByteSize ≤ line.utf8ByteSize) : Passage where
  alone := defaultEnv guard text
  whole := defaultEnv guard line
  tail := tail
  stop := stop
  languages := rfl
  unguarded := hguard
  unguarded' := hguard
  byteSize_le := hle
  parts := hparts
  stops sizeMode p := by
    rcases hleads sizeMode p with ⟨t, after, hscan, hkind, -⟩
    exact ⟨t, after, hscan, hkind⟩
  isStop := hstop

/-- A state stands in front of what is left of a text, outside of loops. -/
structure State.Before (source : String) (rest : List Char) (s : State) : Prop where
  stands : ∃ lx : Lexer, s.At lx ∧ lx.Within source ∧ lx.sizeMode = false ∧
    Text.dropBlank lx.cursor.rest = Text.dropBlank rest
  sound : s.Sound source
  loopDepth : s.loopDepth = 0

namespace State.Before

variable {source : String} {rest rest' : List Char} {kind : Kind}

/-- White space in front of the text does not matter. -/
theorem congr (h : s.Before source rest) (hrest : Text.dropBlank rest' = Text.dropBlank rest) :
    s.Before source rest' := by
  rcases h.stands with ⟨lx, hat, hwithin, hmode, hlx⟩
  exact ⟨⟨lx, hat, hwithin, hmode, hlx.trans hrest.symm⟩, h.sound, h.loopDepth⟩

theorem behind_space (h : s.Before source (' ' :: rest)) : s.Before source rest :=
  h.congr (dropBlank_space rest).symm

theorem initial (source : String) : (State.initial source).Before source source.toList where
  stands := ⟨Lexer.ofSource source, State.at_initial source, ⟨rfl, [], rfl, rfl⟩, rfl, rfl⟩
  sound := State.sound_initial source
  loopDepth := rfl

theorem reads (h : s.Before source rest) (hs : s.Reads t) : t.Before source rest := by
  rcases h.stands with ⟨lx, hat, hlx⟩
  refine ⟨⟨lx, hat.reads h.sound hs, hlx⟩, h.sound.reads hs, ?_⟩
  rcases hs with ⟨_, rfl⟩
  exact h.loopDepth

theorem filled (h : s.Before source rest) : s.filled.Before source rest := h.reads s.reads_filled

theorem withFrame (h : s.Before source rest) (depth : Nat) (isRelaxed : Bool) :
    ({ s with depth, isRelaxed } : State).Before source rest := by
  rcases h.stands with ⟨lx, hat, hlx⟩
  exact ⟨⟨lx, hat.withFrame depth s.loopDepth isRelaxed, hlx⟩,
    ⟨h.sound.buffer, h.sound.cursor_le, h.sound.cursor_lt⟩, h.loopDepth⟩

/-- What the text begins with is the current token. -/
theorem next (h : s.Before source rest) (hleads : Leads rest kind rest')
    (hkind : kind ≠ .endOfInput) : s.token.kind = kind ∧ s.advanced.Before source rest' := by
  rcases h.stands with ⟨lx, hat, hwithin, hmode, hrest⟩
  rcases hleads.next hmode ((tokenStart_rest lx).trans hrest) with
    ⟨t, lx', hnext, ht, hmode', hafter⟩
  have htoken := hat.token_ok h.sound hnext
  refine ⟨htoken ▸ ht, ⟨lx', hat.advanced h.sound hnext ?_, hwithin.next_ok hnext, hmode',
    congrArg Text.dropBlank hafter⟩, h.sound.advanced, h.loopDepth⟩
  rw [Token.isEnd, ht]
  exact decide_eq_false hkind

/-- In front of a passage, where the text begins in the other parse. -/
theorem alongside (h : s.Before P.whole.source (P.alone.source.toList ++ P.tail))
    (hline : '\n' ∉ P.alone.source.toList)
    (hclosed : P.tail ≠ [] →
      Text.isUnbroken none P.alone.source.toList = true ∧ Tidy P.alone.source)
    (hrelaxed : P.stop = .kwElse → s.isRelaxed = true) :
    ∃ mx, Alongside P (.blank true) 0 (State.initial P.alone.source) s
      (Lexer.ofSource P.alone.source) mx := by
  rcases h.stands with ⟨mx, hat, hwithin, hmode, hrest⟩
  exact ⟨mx, {
    first := State.at_initial _
    second := hat
    sound := State.sound_initial _
    sound' := h.sound
    within := ⟨rfl, [], rfl, rfl⟩
    within' := hwithin
    copies := copies_of_cursor P.parts hmode hline (fun htail => (hclosed htail).1) hrest
    tidy := fun htail => ⟨0, .clear (hclosed htail).2⟩
    loopDepth := h.loopDepth
    relaxed := ⟨nofun, hrelaxed⟩
    sees := fun _ _ _ => trivial
    plain := fun _ => rfl }⟩

end State.Before

/-! ### Separators -/

/-- On a line, a separator is a semicolon. -/
theorem Alongside.not_separator {depth : Nat} (h : Alongside P ν depth s s' lx mx)
    (hhead : lx.tokenStart.rest.head? ≠ some ';') : isSeparator s.token.kind = false := by
  have hline := Tandem.ne_newline ⟨lx, mx, h⟩
  have hsemicolon : s.token.kind ≠ .semicolon := by
    intro hkind
    rcases h.next with ⟨lx', _, _, hnext, -⟩ | ⟨hend, -⟩
    · have hscans := scansAs_of_next hnext
      generalize lx.tokenStart.rest = cs at hscans hhead
      cases cs with
      | nil =>
          generalize s.token = u at hscans hkind
          generalize lx'.cursor = after at hscans
          cases hscans
          cases hkind
      | cons c cs => exact hhead (congrArg some (semicolon_of_scansAs hscans hkind))
    · rw [hkind] at hend
      cases hend
  simp [isSeparator, hline.1, hsemicolon]

/-- In a text that something stands behind there are no separators. -/
theorem Tandem.not_separator {depth : Nat} (h : Tandem P ν depth s s') (htail : P.tail ≠ []) :
    isSeparator s.token.kind = false := by
  rcases h with ⟨lx, mx, h⟩
  refine h.not_separator fun hhead => ?_
  have hunbroken := h.copies.unbroken htail
  generalize lx.tokenStart.rest = cs at hunbroken hhead
  cases cs with
  | nil => cases hhead
  | cons c cs =>
      cases hhead
      cases hunbroken

/-- Where there is no separator, none is skipped. -/
theorem State.Skips.eq_filled (h : s.Skips t) (hs : isSeparator s.token.kind = false) :
    t = s.filled := h.unique (.stop hs)

/-! ### The end of a passage -/

/-- Where a text is over, the other parse stands in front of what follows the passage. -/
theorem Tandem.before {depth : Nat} (h : Tandem P ν depth s s') (houter : ν.outer = true)
    (htail : P.tail ≠ []) (hend : s.token.kind = .endOfInput) (hloops : s.loopDepth = 0) :
    s'.token.kind = P.stop ∧ s'.Before P.whole.source P.tail := by
  refine ⟨by rw [h.kind, if_pos hend], ?_⟩
  rcases h with ⟨lx, mx, h⟩
  rcases h.next with ⟨_, _, _, -, -, -, hne, -⟩ | ⟨-, -, ⟨u, lx', _, _, hnext, -⟩ | ⟨_, _, hfail⟩⟩
  · exact absurd hend hne
  · have hrest := h.copies.next_end hnext (h.first.token_ok h.sound hnext ▸ hend)
    rw [tokenStart_rest] at hrest
    exact ⟨⟨mx, h.second, h.within', by rw [h.copies.mode, h.plain houter], hrest⟩, h.sound',
      by rw [h.loopDepth, hloops]⟩
  · rcases h.tidy htail with ⟨n, hazy⟩
    cases (hazy.next_error hfail).1

/-! ### Statements that are not mistaken -/

section

variable {registry : Registry} (hbuiltin : registry.IsBuiltin)

include hbuiltin

/-- A statement that is an assignment is seen to be one. -/
theorem Alongside.unmistaken_assignment {depth : Nat} (h : Alongside P ν depth s s' lx mx)
    (ha : a.isAssignment = true) (hrun : dispatch registry g P.alone s = .ok a t) :
    Unmistaken lx mx s.isRelaxed s'.isRelaxed := by
  intro ts us r r' hts _ hsight
  exfalso
  rcases dispatch_ok hbuiltin hrun with ⟨settings, u, v, -, hreads, hanswer, -⟩
  rcases ok_of_nested hanswer with ⟨-, w, hinner, -⟩
  by_cases hconstruct : settings.construct = .assignment
  · -- The look-ahead has not seen an assignment, so the handler has declined.
    have hrelaxed : (u.filled.atDepth (u.depth + 1)).isRelaxed = s.isRelaxed := by
      rcases hreads with ⟨_, rfl⟩
      rfl
    have hat : (u.filled.atDepth (u.depth + 1)).At lx :=
      (h.first.reads h.sound (hreads.trans u.reads_filled)).withFrame _ _ _
    have hsound := h.sound.reads (hreads.trans u.reads_filled)
    rcases assignmentAhead_sees hts hat
      ⟨hsound.buffer, hsound.cursor_le, hsound.cursor_lt⟩ h.within with ⟨x, -, hahead⟩
    rw [hrelaxed, hsight] at hahead
    rw [Handler.parse_assignment hconstruct, assignment_eq, bind_run, hahead] at hinner
    cases hinner
  · have hnot : Unassigned (some a) := results_builtin g hconstruct _ _ _ _ hinner
    rw [Unassigned, Option.all_some, ha] at hnot
    cases hnot

/-- A statement that ends with a value is not mistaken if nothing is seen from its end. The
    search for an assignment sign has to get through the statement first, and comes out of its
    brackets where it ends. -/
theorem Alongside.unmistaken_value (hg : g.Echoes P g') (hproper : g.StopsAtEnd)
    (hstop : P.stop ≠ .pipe) (htail : P.tail ≠ []) (h : Alongside P (.blank true) 0 s s' lx mx)
    (ha : a.isValue = true) (hrun : dispatch registry g P.alone s = .ok a t)
    (hover : isSeparator t.token.kind = false → t.token.kind = .endOfInput)
    (hrelaxed : s'.isRelaxed = true)
    (hbehind : ∀ nx : Lexer, nx.sizeMode = false → nx.tokenStart.rest = Text.dropBlank P.tail →
      nx.Within P.whole.source → nx.Sights true 0 false) :
    Unmistaken lx mx s.isRelaxed s'.isRelaxed := by
  have hend : s.token.kind ≠ .endOfInput := by
    intro hend
    rcases stopsAt_dispatch hbuiltin (Registry.excusedAt_end hend registry) (.inl hend)
      (hproper s.token hend).expression _ s rfl with ⟨_, _, _, _, hfail⟩
    cases hfail.symm.trans hrun
  have hpair : Tandem P ⟨fun isRelaxed => mx.Sights isRelaxed 0, true⟩ 0 s s' :=
    ⟨lx, mx, { h with sees := fun _ _ hb => hb, plain := fun _ => h.plain rfl }⟩
  have hwhole : Whole P ⟨fun isRelaxed => mx.Sights isRelaxed 0, true⟩ Statement.isValue :=
    ⟨.inr fun s hs => (Bool.and_eq_true_iff.1 hs).1, hstop⟩
  rcases dispatch_ok hbuiltin hrun with ⟨settings, u, v, -, hreads, hanswer, hconclude⟩
  rcases ok_of_nested hanswer with ⟨-, w, hinner, rfl⟩
  have hfilled := hreads.trans u.reads_filled
  have hstart : Tandem P ⟨fun isRelaxed => mx.Sights isRelaxed 0, true⟩ 0
      (u.filled.atDepth (u.depth + 1)) s' := by
    refine (hpair.reads hfilled (State.Reads.refl s')).reframed ⟨rfl, rfl⟩ ⟨rfl, rfl⟩ ?_ ?_
    · rcases hreads with ⟨_, rfl⟩
      exact h.loopDepth
    · rcases hreads with ⟨_, rfl⟩
      exact h.relaxed
  have htoken : (u.filled.atDepth (u.depth + 1)).token = s.token :=
    (State.Reframes.token ⟨rfl, rfl⟩).trans hfilled.token_eq
  rcases tandem_of_builtin hg hwhole settings hstart (htoken ▸ hend) ha hinner with ⟨t', hfinish⟩
  -- The statement is over, so what is seen from there is what is seen behind the passage.
  have hwend : w.token.kind = .endOfInput := by
    have hsame : t.token = w.token := (conclude_ok hconclude).2.1.token_eq
    rw [← hsame]
    exact hover (hsame ▸ hfinish.not_separator htail)
  rcases hfinish with ⟨nx, ox, hfinish⟩
  have hsees : mx.Sights true 0 false := by
    refine hfinish.sees true false (hbehind ox ?_ ?_ hfinish.within')
    · rw [hfinish.copies.mode, hfinish.plain rfl]
    · rcases hfinish.next with
        ⟨_, _, _, -, -, -, hne, -⟩ | ⟨-, -, ⟨x, _, _, _, hnext, -⟩ | ⟨_, _, hfail⟩⟩
      · exact absurd hwend hne
      · exact hfinish.copies.next_end hnext (hfinish.first.token_ok hfinish.sound hnext ▸ hwend)
      · rcases hfinish.tidy htail with ⟨n, hazy⟩
        cases (hazy.next_error hfail).1
  intro ts us r r' _ hus _
  rcases hsees with ⟨vs, q, hvs, hsight⟩
  have hplain : mx.plain = mx := by
    have hmode : mx.sizeMode = false := by rw [h.copies.mode, h.plain rfl]
    rw [Lexer.plain, ← hmode]
  rw [hplain] at hvs
  rw [hrelaxed, ← (hvs.unique hus).1]
  exact hsight

end

/-- Where a statement does not begin with a name, no handler for assignments is asked. -/
theorem not_asksFor_defaults {t : Token} (ht : t.kind ≠ .identifier ∧ t.kind ≠ .language)
    (rest : List Token) :
    ¬(Registry.ofSettings Settings.defaults).AsksFor .assignment (t :: rest) := by
  rintro ⟨handler, hmem, hconstruct⟩
  rcases isBuiltin_asked (Registry.isBuiltin_ofSettings Settings.defaults) hmem with ⟨settings, rfl⟩
  rcases List.mem_append.1 hmem with hmem | hmem
  · have hmem := Registry.mem_candidates hmem
    have hnot := (Registry.unasked_defaults ht hmem.1 hconstruct).1
    rw [show Handler.leadingFilter settings t = true from hmem.2] at hnot
    cases hnot
  · have hmem := Registry.mem_fallbacks hmem
    have hnot := (Registry.unasked_defaults ht hmem.1 hconstruct).2
    rw [show settings.fallback = true from hmem.2] at hnot
    cases hnot

/-- So a text that does not begin with a name is not asked about assignments. -/
theorem Alongside.not_asksFor {depth : Nat} (h : Alongside P ν depth s s' lx mx)
    (hplain : ∀ u lx', lx.next = (.ok u, lx') → u.kind ≠ .identifier ∧ u.kind ≠ .language) :
    ¬(Registry.ofSettings Settings.defaults).AsksFor .assignment
      (s.buffer.tokensFrom s.cursor (Registry.ofSettings Settings.defaults).windowSize) := by
  rcases tokensFrom_head s (Registry.windowSize_pos Settings.defaults) with ⟨rest, hwindow⟩
  rw [hwindow]
  refine not_asksFor_defaults ?_ rest
  rcases h.next with ⟨lx', _, _, hnext, -⟩ | ⟨hend, -⟩
  · exact hplain _ _ hnext
  · rw [hend]
    decide

/-! ### The parts of a line -/

section

variable {registry : Registry} (hbuiltin : registry.IsBuiltin)
  (hlanguages : P.alone.languages = .ofList Language.defaults)

include hbuiltin hlanguages

/-- An expression that something stands behind. -/
theorem State.Before.expression
    (h : s'.Before P.whole.source (P.alone.source.toList ++ P.tail)) (htail : P.tail ≠ [])
    (hunbroken : Text.isUnbroken none P.alone.source.toList = true)
    (hline : '\n' ∉ P.alone.source.toList) (hstop : P.stop ≠ .kwElse) {n n' : Nat} (hle : n ≤ n')
    {e : Expr}
    (hrun : run (wholeText (Grammar.level registry n).expression) P.alone = .ok e) :
    ∃ e' t', (Grammar.level registry n').expression P.whole s' = .ok e' t' ∧
      e'.skeleton true = e.skeleton true ∧ t'.token.kind = P.stop ∧
        t'.Before P.whole.source P.tail := by
  rcases h.alongside hline (fun _ => ⟨hunbroken, tidy_of_expression hbuiltin hlanguages hrun⟩)
    (fun helse => absurd helse hstop) with ⟨mx, halong⟩
  have hpair : Tandem P (.blank true) 0 (State.initial P.alone.source) s' := ⟨_, _, halong⟩
  rcases ok_of_run hrun with ⟨_, hwhole, -⟩
  rcases wholeText_ok hwhole with ⟨u, v, w, hskip, hexpression, hskip', hend, -⟩
  -- Alone, the expression is all there is between the separators.
  rw [(skips_of_skipSeparators hskip).eq_filled (hpair.not_separator htail)] at hexpression
  rcases (Grammar.echoesExpressions_level hbuiltin hle).expression (.blank true) _ 0 _ s' e v
    (hpair.reads (State.reads_filled _) (State.Reads.refl s')) (State.sees _) hexpression with
    ⟨hfalse, -⟩ | ⟨e', t', _, hexpression', hfinish, -, htwin⟩
  · exact hfalse.elim
  -- Where the text alone ends, the line goes on with the token that stops it.
  have hv : v.token.kind = .endOfInput := by
    rw [(skips_of_skipSeparators hskip').eq_filled (hfinish.not_separator htail),
      State.token_filled] at hend
    exact hend
  -- Loops are counted back to what they were, and at the start there are none.
  have hloops : v.loopDepth = 0 :=
    ((Grammar.made_level hbuiltin n).expression.kept_ok hexpression).loopDepth
  rcases hfinish.before rfl htail hv hloops with ⟨hkind, hbefore⟩
  exact ⟨e', t', hexpression', htwin, hkind, hbefore⟩

omit hbuiltin hlanguages in
/-- The only statement of a text. -/
theorem rounds_single {env : Env} (hrounds : Rounds g env s [a] t) :
    ∃ u v, s.Skips u ∧ u.token.kind ≠ .endOfInput ∧ g.statement env u = .ok a v ∧ v.Skips t ∧
      t.token.kind = .endOfInput := by
  cases hrounds with
  | next hskip hne hstatement hrest =>
      cases hrest with
      | done hskip' hend =>
          exact ⟨_, _, skips_of_skipSeparators hskip, hne, hstatement,
            skips_of_skipSeparators hskip', hend⟩

end

theorem hasCode_of_isSimple (h : a.isSimple = true) : statementsHaveCode [a] = false := by
  cases a <;> first | rfl | cases h

/-- A statement that an `else` stands behind. It is parsed in the line as it is by itself,
    because it is simple and so does not look for an `else` of its own, and because no search for
    an assignment sign succeeds only in the rest of the line. -/
theorem State.Before.simple (hlanguages : P.alone.languages = .ofList Language.defaults)
    (h : s'.Before P.whole.source (P.alone.source.toList ++ P.tail)) (htail : P.tail ≠ [])
    (hunbroken : Text.isUnbroken none P.alone.source.toList = true)
    (hline : '\n' ∉ P.alone.source.toList) (hstop : P.stop = .kwElse)
    (hrelaxed : s'.isRelaxed = true) {n n' : Nat} (hle : n ≤ n')
    (hrun : run (program (Grammar.level (Registry.ofSettings Settings.defaults) (n + 1))) P.alone =
      .ok ⟨[a]⟩) (ha : a.isSimple = true)
    (hplain : a.isAssignment = true ∨
      (∀ u lx, (Lexer.ofSource P.alone.source).next = (.ok u, lx) →
        u.kind ≠ .identifier ∧ u.kind ≠ .language) ∨
      ∀ nx : Lexer, nx.sizeMode = false → nx.tokenStart.rest = Text.dropBlank P.tail →
        nx.Within P.whole.source → nx.Sights true 0 false) :
    s'.token.kind ≠ .newline ∧ ∃ b t',
      (Grammar.level (Registry.ofSettings Settings.defaults) (n' + 1)).statement P.whole s' =
        .ok b t' ∧ b.skeleton = a.skeleton ∧ t'.token.kind = .kwElse ∧
          t'.Before P.whole.source P.tail := by
  have hbuiltin := Registry.isBuiltin_ofSettings Settings.defaults
  rcases h.alongside hline (fun _ => ⟨hunbroken,
    tidy_of_run hbuiltin hlanguages hrun (hasCode_of_isSimple ha)⟩) (fun _ => hrelaxed) with
    ⟨mx, halong⟩
  refine ⟨(Tandem.ne_newline ⟨_, _, halong⟩).2, ?_⟩
  rcases ok_of_run hrun with ⟨t, hprogram, -⟩
  -- A program of one statement is that statement with separators around it.
  rcases rounds_single (rounds_of_program hprogram).1 with
    ⟨u, v, hskip, -, hstatement, hskip', hend⟩
  rw [hskip.eq_filled (Tandem.not_separator ⟨_, _, halong⟩ htail)] at hstatement
  have halong := halong.reads (State.reads_filled _) (State.Reads.refl s')
  have hover : isSeparator v.token.kind = false → v.token.kind = .endOfInput := by
    intro hnot
    rw [hskip'.eq_filled hnot, State.token_filled] at hend
    exact hend
  have hg := Grammar.echoes_level (P := P) hbuiltin Registry.nearsighted_defaults
    Registry.unstopped_defaults hle
  have hproper := Grammar.stopsAtEnd_level hbuiltin n
  have hpipe : P.stop ≠ .pipe := by rw [hstop]; decide
  -- Whether it is an assignment is looked up ahead, and that search may run into the rest of the
  -- line.
  have hunmistaken : (Registry.ofSettings Settings.defaults).AsksFor .assignment
      ((State.initial P.alone.source).filled.buffer.tokensFrom
        (State.initial P.alone.source).filled.cursor
          (Registry.ofSettings Settings.defaults).windowSize) →
      Unmistaken (Lexer.ofSource P.alone.source) mx
        (State.initial P.alone.source).filled.isRelaxed s'.isRelaxed := by
    intro hasked
    -- It is one, or it does not begin with a name, or the search finds nothing in the rest of the
    -- line either.
    by_cases hassignment : a.isAssignment = true
    · exact halong.unmistaken_assignment hbuiltin hassignment hstatement
    rcases hplain with hplain | hplain | hplain
    · exact absurd hplain hassignment
    · exact absurd hasked (halong.not_asksFor hplain)
    · exact halong.unmistaken_value hbuiltin hg hproper hpipe htail
        (Bool.and_eq_true_iff.2 ⟨ha, by simpa using hassignment⟩) hstatement hover hrelaxed hplain
  rcases asks_dispatch hbuiltin Registry.nearsighted_defaults Registry.unstopped_defaults hg hproper
    ⟨.inr fun _ hs => hs, hpipe⟩ (.inr hstop) halong hunmistaken ha hstatement with
    ⟨b, t', hstatement', hfinish, hskeleton⟩
  have hloops : v.loopDepth = 0 :=
    ((Grammar.made_level hbuiltin (n + 1)).statement.kept_ok hstatement).loopDepth
  rcases hfinish.before rfl htail (hover (hfinish.not_separator htail)) hloops with
    ⟨hkind, hbefore⟩
  exact ⟨b, t', hstatement', hskeleton, hkind.trans hstop, hbefore⟩

/-- A statement at the end of a line. -/
theorem State.Before.last (h : s'.Before P.whole.source (P.alone.source.toList ++ P.tail))
    (hlast : P.tail = []) (hline : '\n' ∉ P.alone.source.toList)
    (hhead : (Text.dropBlank P.alone.source.toList).head? ≠ some ';') {n n' : Nat} (hle : n ≤ n')
    (hrun : run (program (Grammar.level (Registry.ofSettings Settings.defaults) n)) P.alone =
      .ok ⟨[a]⟩) :
    s'.token.kind ≠ .newline ∧ ∃ b v t' w,
      (Grammar.level (Registry.ofSettings Settings.defaults) n').statement P.whole s' =
        .ok b t' ∧ b.skeleton = a.skeleton ∧ Tandem P (.blank true) 0 v t' ∧
          v.isRelaxed = false ∧ v.Skips w ∧ w.token.kind = .endOfInput ∧
            w.buffer.lexError? = none := by
  have hbuiltin := Registry.isBuiltin_ofSettings Settings.defaults
  rcases h.alongside hline (fun htail => absurd hlast htail)
    (fun helse => absurd (helse.symm.trans (P.stop_eq hlast)) nofun) with ⟨mx, halong⟩
  refine ⟨(Tandem.ne_newline ⟨_, _, halong⟩).2, ?_⟩
  rcases ok_of_run hrun with ⟨t, hprogram, hclean⟩
  rcases rounds_single (rounds_of_program hprogram).1 with
    ⟨u, v, hskip, -, hstatement, hskip', hend⟩
  -- Neither text begins with a separator, so nothing is skipped before the statement.
  have hfirst : isSeparator (State.initial P.alone.source).token.kind = false :=
    halong.not_separator (by rw [tokenStart_rest]; exact hhead)
  rw [hskip.eq_filled hfirst] at hstatement
  rcases (Grammar.echoes_level (P := P) hbuiltin Registry.nearsighted_defaults
    Registry.unstopped_defaults hle).statement hlast _ _ s' a v
    ⟨_, _, halong.reads (State.reads_filled _) (State.Reads.refl s')⟩ (State.sees _) hstatement with
    ⟨hfalse, -⟩ | ⟨b, t', _, hstatement', hfinish, -, htwin⟩
  · exact hfalse.elim
  -- How statements are ended is kept as it was at the start, since a statement gives it back.
  have hrelaxed : v.isRelaxed = false :=
    ((Grammar.made_level hbuiltin n).statement.kept_ok hstatement).isRelaxed
  exact ⟨b, v, t', t, hstatement', htwin, hfinish, hrelaxed, hskip', hend, hclean⟩

/-- At the end of a line both texts are over. The end of the first text is also the end of the
    second one, so separators are skipped on both sides and no error is left. -/
theorem Tandem.finish (hlast : P.tail = []) (h : Tandem P (.blank true) 0 s s')
    (hskips : s.Skips t) (hend : t.token.kind = .endOfInput) (hclean : t.buffer.lexError? = none) :
    s'.token.kind.isTerminator = true ∧ ∃ t', skipSeparators P.whole s' = .ok () t' ∧
      t'.token.kind = .endOfInput ∧ t'.buffer.lexError? = none := by
  -- With nothing behind the text, both sides see tokens of the same kind.
  have hsame : ∀ {s s' : State}, Tandem P (.blank true) 0 s s' → s'.token.kind = s.token.kind := by
    intro s s' h
    rw [h.kind, P.stop_eq hlast]
    split
    · exact Eq.symm ‹_›
    · rfl
  refine ⟨?_, ?_⟩
  · rw [hsame h]
    cases hseparator : isSeparator s.token.kind with
    | true =>
        cases hkind : s.token.kind <;>
          first | rfl | (rw [hkind] at hseparator; cases hseparator)
    | false =>
        rw [hskips.eq_filled hseparator, State.token_filled] at hend
        rw [hend]
        rfl
  · have hskip : skipSeparators P.alone s = .ok () t := by
      rcases h with ⟨lx, mx, h⟩
      exact (skipSeparators_iff h.first h.within h.sound).2 hskips
    rcases echoes_skipSeparators s s' () t h s.sees hskip with
      ⟨hfalse, -⟩ | ⟨_, t', _, hskip', ht, -, -⟩
    · exact hfalse.elim
    refine ⟨t', hskip', (hsame ht).trans hend, ?_⟩
    rcases ht with ⟨lx, mx, ht⟩
    -- The end of the text alone is the end of the line; an error would have been noted.
    rcases ht.next with ⟨_, _, _, -, -, -, hne, -⟩ | ⟨-, -, ⟨_, _, u, _, -, hnext'⟩ | ⟨e, _, hfail⟩⟩
    · exact absurd hend hne
    · have hover : u.isEnd = true := by
        rw [← ht.second.token_ok ht.sound' hnext', Token.isEnd, hsame ⟨_, _, ht⟩, hend]
        rfl
      have hover := ht.second.clean_end ht.sound' hnext' hover
      rwa [(skips_of_skipSeparators hskip').filled] at hover
    · rcases (ht.first.token_error ht.sound hfail).2 with ⟨i, hfailure⟩
      rw [hskips.filled] at hfailure
      rw [TokenBuffer.lexError?, hfailure] at hclean
      cases hclean

/-- A statement is concluded at the end of a line. -/
theorem conclude_terminated {env : Env} (h : s.token.kind.isTerminator = true) (a : Statement) :
    ∃ t, conclude a env s = .ok a t ∧ s.Reads t := by
  rw [conclude_run, h]
  split
  · exact ⟨s, rfl, State.Reads.refl s⟩
  · exact ⟨s.filled, rfl, s.reads_filled⟩

/-- A line that is one statement. -/
theorem run_single {env : Env}
    (hopen : (State.initial env.source).token.kind ≠ .endOfInput ∧
      isSeparator (State.initial env.source).token.kind = false)
    (hstatement : g.statement env (State.initial env.source).filled = .ok a s)
    (hskip : skipSeparators env s = .ok () t) (hend : t.token.kind = .endOfInput)
    (hclean : t.buffer.lexError? = none) : run (program g) env = .ok ⟨[a]⟩ := by
  have hstart : skipSeparators env (State.initial env.source) =
      .ok () (State.initial env.source).filled :=
    (skipSeparators_iff (State.at_initial env.source) ⟨rfl, [], rfl, rfl⟩
      (State.sound_initial env.source)).2 (.stop hopen.2)
  have hrounds : Rounds g env (State.initial env.source) [a] t :=
    .next hstart (by rw [State.token_filled]; exact hopen.1) hstatement (.done hskip hend)
  have hprogram := program_of_rounds hrounds (Nat.succ_le_succ (Nat.zero_le _))
  rw [run_of_ok hprogram, hclean]
  rfl

end Parse

end PolyScript
