import PolyScript.Proofs.OrderedChoice
import PolyScript.Proofs.PipeLines

/-!
# Rules for Pipes as Statements

A line of expressions may be a statement. There are four rules that might take it, and which
of them do is decided by the tokens that the first expression begins with. The rules for
calls and for expressions all come to the same pipe. The rule for fields takes no more than
the first expression, so it fails at the operator behind it. All other rules decline.

What the tokens are is known of the first text by itself. A look-ahead on the line sees the
same tokens, up to the end of the text, where there is the operator. That no guest code
begins on the line has another reason: the text is an expression, and no expression begins
with the tag of a language unless there is a dot behind it.

## Main definitions

* `Text.kinds`: The kinds of the tokens of a text.
* `Parse.readsField`: A field is read where an expression begins.
* `Parse.takes`: The rules that answer, by what an expression begins with.
* `Parse.IsPipe`: A line of expressions.

## Theorems

* `Parse.chainEndsInCall_run`: The look along a dotted chain.
* `Parse.State.Fronts.opening`: What is seen from in front of the line.
* `Parse.State.Fronts.builtin_declines`, `Parse.State.Fronts.builtin_answers`,
  `Parse.State.Fronts.fieldAccess_run`: What one handler makes of the line.
* `Parse.State.Fronts.tryHandlers_run`: What many handlers make of it.
-/

namespace PolyScript

open Lexer

/-- The kinds of the tokens of a text, read in plain mode. -/
def Text.kinds (text : String) : List Kind := (Lexer.ofSource text).eager.1.map Token.kind

namespace Parse

/-- Dots and member names lead to an opening parenthesis. -/
def leadsToCall : List Kind → Bool
  | .leftParen :: _ => true
  | .dot :: kind :: rest => isMemberName kind && leadsToCall rest
  | _ => false

/-- What stands at the places of a list, and the end behind it. -/
def kindAt (kinds : List Kind) (n : Nat) : Kind := kinds[n]?.getD .endOfInput

/-- A name comes first, and behind it an index, or a dotted chain that does not end in a call. -/
def readsField (kinds : List Kind) : Bool :=
  isMemberName (kindAt kinds 0) && (kindAt kinds 1 = .leftBracket ||
    kindAt kinds 1 = .dot && !leadsToCall kinds.tail)

/-- Whether the rule for a construct answers where an expression begins with tokens of these
    kinds. -/
def takes (kinds : List Kind) : Construct → Bool
  | .languageCall =>
    isMemberName (kindAt kinds 0) && kindAt kinds 1 = .dot && leadsToCall kinds.tail
  | .fieldAccess =>
    isMemberName (kindAt kinds 0) && (kindAt kinds 1 = .dot || kindAt kinds 1 = .leftBracket)
  | .builtinCall => kindAt kinds 0 = .identifier && kindAt kinds 1 = .leftParen
  | .expression => true
  | _ => false

/-- Where a field is read, the rule for fields answers and the rule for guest calls does not. -/
theorem readsField_eq (kinds : List Kind) :
    readsField kinds = (takes kinds .fieldAccess && !takes kinds .languageCall) := by
  unfold readsField takes
  by_cases hdot : kindAt kinds 1 = .dot
  · rw [hdot]
    cases isMemberName (kindAt kinds 0) <;> simp
  · simp [hdot]

variable {s t u : State} {lx mx : Lexer} {env : Env} {g : Grammar} {κ : Nat → Kind}

/-! ### What an expression begins with -/

/-- Kinds of tokens that an expression may begin with. -/
def opensExpression (kind : Kind) : Bool :=
  kind.isLiteral || isMemberName kind || (UnaryOp.ofKind? kind).isSome ||
    [Kind.leftParen, .leftBracket, .leftBrace, .bitOpen].contains kind

theorem stopsAt_expression_of_closed {t : Token} (h : opensExpression t.kind = false)
    (g : Grammar) : StopsAt t (Parse.expression g) := by
  have hprimary : StopsAt t (primary g) := by
    refine stopsAt_current ?_
    cases hkind : t.kind <;> first | exact stopsAt_throw rfl | (rw [hkind] at h; cases h)
  have hunary : UnaryOp.ofKind? t.kind = none := by
    cases hkind : t.kind <;> first | rfl | (rw [hkind] at h; cases h)
  have hoperand : StopsAt t (operand g) := by
    refine stopsAt_peekKind ?_
    rw [hunary]
    exact hprimary.bind _
  exact (StopsAt.bind (hoperand.bind _ : StopsAt t (operation g)) _).nested

/-- A parser that succeeds under a condition only, whatever it goes on with. -/
theorem Tracks.requires {α β : Type} {p : Parse α} {f : α → Parse β} {C : Prop}
    (h : Tracks κ p fun _ _ => C) : Tracks κ (p >>= f) fun _ _ => C := by
  intro env s t b hs hrun
  rw [bind_run] at hrun
  split at hrun
  · rename_i a u hp
    rcases h env s u a hs hp with ⟨-, -, hC⟩
    exact ⟨_, t.sees, hC⟩
  · cases hrun

theorem Tracks.current {α : Type} {f : Token → Parse α} {Q : α → (Nat → Kind) → Prop}
    (h : ∀ t : Token, t.kind = κ 0 → Tracks κ (f t) Q) : Tracks κ (Parse.current >>= f) Q := by
  intro env s t a hs hrun
  exact h s.token hs.token env _ t a (hs.reads s.reads_filled) hrun

theorem Tracks.fails {α : Type} {p : Parse α} {Q : α → (Nat → Kind) → Prop}
    (h : ∀ env s a t, p env s ≠ .ok a t) : Tracks κ p Q :=
  fun env s t a _ hrun => absurd hrun (h env s a t)

/-- Nothing refers to a language but what goes on with a dot. -/
theorem tracks_reference (hκ : κ 0 = .language) :
    Tracks κ (reference g) fun _ _ => κ 1 = .dot := by
  refine .current fun t ht => .bind (R := fun _ κ' => κ' = κ)
    (fun env s u table hs hrun => ?_) fun table κ' hκ' => ?_
  · cases hrun
    exact ⟨κ, hs, rfl⟩
  · subst hκ'
    refine .peek 1 ?_
    by_cases hdot : κ' 1 = .dot
    · exact fun _ _ u _ _ _ => ⟨_, u.sees, hdot⟩
    · have hlanguage : t.kind = .language := ht.trans hκ
      generalize κ' 1 = next at hdot
      refine .fails fun env s a u hrun => ?_
      cases next <;> simp only [hlanguage, decide_true, decide_false, reduceCtorEq, Bool.and_false,
        Bool.false_eq_true, if_false, if_true] at hrun
      all_goals first | exact hdot rfl | cases hrun

/-- An expression that begins with the name of a language succeeds only if a dot follows. A name
    of this kind cannot stand alone. -/
theorem tracks_expression (hκ : κ 0 = .language) :
    Tracks κ (Parse.expression g) fun _ _ => κ 1 = .dot := by
  have hprimary : Tracks κ (primary g) fun _ _ => κ 1 = .dot := by
    refine .current fun t ht => ?_
    rw [hκ] at ht
    rw [ht]
    exact tracks_reference hκ
  have hoperand : Tracks κ (operand g) fun _ _ => κ 1 = .dot := by
    refine .peek 0 ?_
    rw [hκ]
    exact hprimary.requires
  have hoperation : Tracks κ (operation g) fun _ _ => κ 1 = .dot := hoperand.requires
  intro env s t e hs hrun
  rcases ok_of_nested hrun with ⟨-, u, hinner, -⟩
  have hsees : (s.filled.atDepth (s.depth + 1)).Sees κ := fun n => hs.reads s.reads_filled n
  rcases hoperation.requires env _ u e hsees hinner with ⟨-, -, hdot⟩
  exact ⟨_, t.sees, hdot⟩

/-! ### Dotted chains -/

/-- A tape leads to a call if its kinds do. -/
theorem calls_iff {source : String} {τ : Tape source} {kinds : List Kind}
    (h : ∀ n, (τ.token n).kind = kindAt kinds n) : τ.Calls ↔ leadsToCall kinds = true := by
  -- By the recursion of `leadsToCall`, which takes a dot and a name at a time.
  fun_induction leadsToCall kinds generalizing τ with
  | case1 => exact iff_of_true (.here (h 0)) rfl
  | case2 kind rest ih =>
      have hname : τ.tail.head.kind = kind := h 1
      by_cases hmember : isMemberName kind = true
      · have htail (n : Nat) : (τ.tail.tail.token n).kind = kindAt rest n := by
          change (τ.token (1 + (1 + n))).kind = _
          rw [show 1 + (1 + n) = n + 2 by omega]
          exact h (n + 2)
        rw [Tape.calls_member (h 0) (by rw [hname]; exact hmember), ih htail, hmember,
          Bool.true_and]
      · rw [Tape.calls_other fun hboth => hmember (hname ▸ hboth.2),
          show τ.head.kind = .dot from h 0]
        simp [hmember]
  | case3 kinds hparen hdot =>
      -- A call begins with a parenthesis or with a dot and a name, and here is neither.
      refine iff_of_false (fun hcalls => ?_) Bool.false_ne_true
      cases kinds with
      | nil => rcases hcalls.head with hkind | hkind <;> cases hkind.symm.trans (h 0)
      | cons kind rest =>
          cases hcalls with
          | here hkind => exact hparen rest (by rw [← hkind]; exact congrArg (· :: rest) (h 0).symm)
          | member hkind hmember =>
              cases rest with
              | nil =>
                  rw [show τ.tail.head.kind = .endOfInput from h 1] at hmember
                  cases hmember
              | cons next rest =>
                  refine hdot next rest ?_
                  rw [← hkind]
                  exact congrArg (· :: next :: rest) (h 0).symm

/-- The look along a chain, where it is known what is ahead. -/
theorem chainEndsInCall_run (hs : s.Sound env.source) {kind : Kind} {kinds : List Kind}
    (hsees : s.Sees (kindAt (kind :: kinds))) :
    ∃ t, s.Reads t ∧ chainEndsInCall env s = .ok (leadsToCall kinds) t := by
  rcases hs.offers with ⟨τ, hτ⟩
  have hruns : Runs env False τ (chainEndsInCall >>= fun b => Pure.pure b) fun b _ =>
      b = true ↔ τ.tail.Calls := runs_chainEndsInCall fun b hb => Runs.pure hb
  rw [bind_pure] at hruns
  have htail (n : Nat) : (τ.tail.token n).kind = kindAt kinds n := by
    change (τ.token (1 + n)).kind = _
    rw [← hτ.2, Nat.add_comm 1 n]
    exact hsees (n + 1)
  rcases scans_chainEndsInCall env s with ⟨b, t, hreads, hrun⟩ | ⟨t, -, hfail⟩
  · rcases hruns.ok hτ (hrun env.guard) with ⟨_, -, hb⟩
    rw [calls_iff htail] at hb
    exact ⟨t, hreads, by rw [hrun env.guard, Bool.eq_iff_iff.2 hb]⟩
  · exact (hruns.error hτ (hfail env.guard) ⟨_, _, rfl⟩).elim

/-! ### Rules that decline -/

section

variable {guard : Guard} {line : String}

/-- No code of a language begins at a plain name, or at a language tag with a dot behind it. -/
theorem codeBlockAhead_run
    (hdot : s.token.kind = .language → (s.buffer.tokenAt (s.cursor + 1)).kind = .dot)
    (hname : s.token.kind = .identifier → Kind.ofWord s.token.text ≠ .language) :
    ∃ t, s.Reads t ∧ codeBlockAhead (defaultEnv guard line) s = .ok false t := by
  have hreads : s.Reads { s.filled with buffer := s.filled.buffer.fill (s.filled.cursor + 1) } :=
    s.reads_filled.trans ⟨_, rfl⟩
  -- Of a tag with a dot behind it the table makes no block, and a plain name is no tag.
  have hnone (name : String) (next : Kind) (h : next = .dot ∨ Kind.ofWord name ≠ .language) :
      ((LanguageTable.ofList Language.defaults).constructFor? name next false =
        some .codeBlock) = False := by
    refine eq_false ?_
    unfold LanguageTable.constructFor?
    split
    · nofun
    · rename_i canonical hresolve
      rw [h.resolve_right fun hne => hne (ofWord_of_resolve? hresolve)]
      split <;> nofun
  refine ⟨_, hreads, ?_⟩
  unfold codeBlockAhead
  rw [bind_run, current_run]
  simp only
  rw [bind_run, peekKind_run]
  simp only
  rw [show s.filled.buffer.tokenAt (s.filled.cursor + 1) = s.buffer.tokenAt (s.cursor + 1) from
    TokenBuffer.tokenAt_fill _ _ _, bind_run, show ∀ u, languages (defaultEnv guard line) u =
      .ok (.ofList Language.defaults) u from fun _ => rfl]
  simp only
  cases hkind : s.token.kind with
  | language =>
      rw [hdot hkind]
      simp only [hnone s.token.text .dot (.inl rfl), if_false]
      split <;> rfl
  | identifier =>
      simp only [hnone s.token.text _ (.inr (hname hkind)), if_false]
      rfl
  | _ => rfl

end

/-! ### In front of the line -/

theorem sees_kinds (text : String) : (State.initial text).Sees (kindAt (Text.kinds text)) := by
  intro n
  rw [(State.at_initial text).tokenAt_eager (State.sound_initial text) n, TokenList.get, kindAt,
    Text.kinds, List.getElem?_map]
  rcases (Lexer.ofSource text).eager_last_isEnd with ⟨u, hlast, hend⟩
  cases (Lexer.ofSource text).eager.1[n]? with
  | some t => rfl
  | none =>
      rw [hlast]
      exact of_decide_eq_true hend

/-- The line from in front of its first text, where the tokens of the text have these kinds. -/
structure State.Opens (env : Env) (kinds : List Kind) (s : State) : Prop where
  kind : s.token.kind = kindAt kinds 0
  opens : opensExpression (kindAt kinds 0) = true
  next : ∀ kind : Kind, kind ≠ .pipe → kind ≠ .endOfInput →
    ((s.buffer.tokenAt (s.cursor + 1)).kind = kind ↔ kindAt kinds 1 = kind)
  tag : kindAt kinds 0 = .language → kindAt kinds 1 = .dot
  plain : kindAt kinds 0 = .identifier → Kind.ofWord s.token.text = .identifier
  chain : isMemberName (kindAt kinds 0) = true →
    ∃ t, s.Reads t ∧ chainEndsInCall env s = .ok (leadsToCall kinds.tail) t

/-- The statement that is a pipe of these stages, in the foreground. -/
def pipeStatement (stages : List Expr) : Statement :=
  .languageCall (.pipe stages (List.replicate (stages.length - 1) pipeSign) .start) false .start

/-- A line of texts with pipe operators between them, each of which is an expression by
    itself. -/
structure IsPipe (registry : Registry) (guard : Guard) (line first : String) (rest : List String)
    (e : Expr) (exprs : List Expr) : Prop where
  split : line.toList = first.toList ++ pipeTail rest
  first : IsStage registry guard line first e
  stages : List.Forall₂ (IsStage registry guard line) rest exprs
  proper : rest ≠ []
  length_le : rest.length ≤ line.utf8ByteSize

section

variable {registry : Registry} (hbuiltin : registry.IsBuiltin) {guard : Guard}
  (hguard : guard.enabled = false) {line first : String} {rest : List String} {e : Expr}
  {exprs : List Expr}

include hbuiltin hguard

/-- What a text begins with that is an expression. -/
theorem IsStage.opens (hfirst : IsStage registry guard line first e) :
    opensExpression (kindAt (Text.kinds first) 0) = true ∧
      (kindAt (Text.kinds first) 0 = .language → kindAt (Text.kinds first) 1 = .dot) := by
  rcases over_of_expression hbuiltin hguard hfirst.online hfirst.parses with ⟨v, hrun, -, -⟩
  have hsees := (sees_kinds first).reads (State.initial first).reads_filled
  constructor
  · by_contra hclosed
    have hkind := hsees.token
    rcases stopsAt_expression_of_closed (t := (State.initial first).filled.token)
      (by rw [hkind]; exact Bool.eq_false_iff.2 hclosed)
      (Grammar.delay fun _ => Grammar.level registry (4 * first.utf8ByteSize + 7)) _ _ rfl with
      ⟨_, _, -, -, hfail⟩
    cases hfail.symm.trans hrun
  · intro hlanguage
    rcases tracks_expression hlanguage _ _ v e hsees hrun with ⟨-, -, hdot⟩
    exact hdot

/-- What is seen on the line from in front of the first text. The rules look two tokens ahead, or
    along a dotted chain, and none of these looks goes past the first pipe. -/
theorem State.Fronts.opening (h : s.Fronts line line.toList mx)
    (hpipe : IsPipe registry guard line first rest e exprs) :
    s.Opens (defaultEnv guard line) (Text.kinds first) := by
  obtain ⟨second, texts, rfl⟩ := List.exists_cons_of_ne_nil hpipe.proper
  rw [hpipe.split] at h
  have hfirst := hpipe.first
  -- The line is the first text with the pipe and the others behind it.
  have halong := h.alongside hguard hfirst.online (tidy_of_expression hbuiltin rfl hfirst.parses)
    (parts_cons (by decide)) (leads_pipe _).space rfl (by decide) (Nat.le_of_lt hfirst.shorter)
  have hsees := (sees_kinds first).reads (State.initial first).reads_filled
  rcases hfirst.opens hbuiltin hguard with ⟨hopens, htag⟩
  have hend : kindAt (Text.kinds first) 0 ≠ .endOfInput := by
    intro hend
    rw [hend] at hopens
    cases hopens
  have hkind : s.token.kind = kindAt (Text.kinds first) 0 := by
    rw [Tandem.kind ⟨_, _, halong⟩, hsees.token]
    exact if_neg hend
  refine ⟨hkind, hopens, fun kind hpipe hover => ?_, htag, fun hname => ?_, fun hname => ?_⟩
  -- If the first text is over after one token, the line goes on with a pipe.
  · have hnext := Tandem.ahead ⟨_, _, halong⟩ hsees 1 fun i hi => by rwa [Nat.lt_one_iff.1 hi]
    rw [hnext]
    split
    · rename_i hkinds
      rw [hkinds]
      exact iff_of_false hpipe.symm hover.symm
    · rfl
  · rcases halong.next with ⟨_, u, _, -, hnext, htoken, -⟩ | ⟨hover, -⟩
    · rw [htoken]
      exact next_identifier hnext (by rw [← htoken, hkind, hname])
    · exact absurd (hsees.token.symm.trans hover) hend
  · obtain ⟨kind, kinds, hkinds⟩ : ∃ kind kinds, Text.kinds first = kind :: kinds :=
      List.exists_cons_of_ne_nil fun hnil => hend (by rw [hnil]; rfl)
    rw [hkinds] at hsees hname ⊢
    have hsound : (State.initial first).filled.Sound (defaultEnv guard first).source :=
      (State.sound_initial first).filled
    rcases chainEndsInCall_run hsound hsees with ⟨t, -, hrun⟩
    -- The scan for a call gives on the line the answer that it gives on the first text alone.
    rcases echoes_chainEndsInCall (shape_of_memberName hname) (Q := fun b b' _ => b' = b)
      (fun _ => rfl) _ s _ t ⟨_, _, halong⟩ hsees hrun with
      ⟨hfalse, -⟩ | ⟨_, t', _, hrun', -, -, rfl⟩
    · exact hfalse.elim
    · refine ⟨t', ?_, hrun'⟩
      rcases scans_chainEndsInCall (defaultEnv guard line) s with ⟨_, u, hu, hok⟩ | ⟨_, -, hfail⟩
      · cases (hok guard).symm.trans hrun'
        exact hu
      · cases (hfail guard).symm.trans hrun'

omit hbuiltin hguard in
/-- At the end of the line there is no ampersand. -/
theorem State.Fronts.foreground (h : s.Fronts line [] lx) (env : Env) :
    backgroundMarker env s = .ok false s.filled := by
  have hmark : s.token.kind ≠ .ampersand := by
    rw [h.closed.1]
    decide
  rw [backgroundMarker_run, if_neg hmark]

/-- From in front of the line the rule for pipes makes a pipe of it. -/
theorem State.Fronts.call (h : s.Fronts line line.toList lx)
    (hpipe : IsPipe registry guard line first rest e exprs) :
    ∃ call t ox,
      Parse.pipeExpression (Grammar.level registry (4 * line.utf8ByteSize + 7))
        (defaultEnv guard line) s = .ok call t ∧ isGuestCall call = true ∧
      (∀ p, (Statement.languageCall call false p).skeleton =
        (pipeStatement (e :: exprs)).skeleton) ∧ t.Fronts line [] ox := by
  rw [hpipe.split] at h
  rcases h.pipeExpression hbuiltin hguard hpipe.first hpipe.stages hpipe.proper hpipe.length_le with
    ⟨-, e', es, ops, t, ox, hrun, hexprs, hsigns, ht⟩
  refine ⟨_, t, ox, hrun, rfl, fun p => ?_, ht⟩
  have hlength : rest.length = exprs.length := hpipe.stages.length_eq
  simp only [pipeStatement, Statement.skeleton, Expr.skeleton, hexprs, hsigns, hlength,
    List.map_replicate, List.length_cons, Nat.add_sub_cancel]
  rfl

end

/-! ### What the rules make of the line -/

/-- A look at a name and at what stands behind it. -/
theorem nameThen_run (test : Kind → Bool) (env : Env) (s : State) :
    ∃ t, s.Reads t ∧ nameThen test env s = .ok (isMemberName s.token.kind &&
      test (s.buffer.tokenAt (s.cursor + 1)).kind) t := by
  unfold nameThen
  rw [bind_run, peekKind_run]
  cases hname : isMemberName s.token.kind with
  | true =>
      have hlook : isMemberName (s.buffer.tokenAt (s.cursor + 0)).kind = true := hname
      simp only [hlook, if_true]
      rw [bind_run, peekKind_run]
      refine ⟨(s.filledTo 0).filledTo 1, (s.reads_filledTo 0).trans (State.reads_filledTo _ 1), ?_⟩
      rw [Bool.true_and, TokenBuffer.tokenAt_fill]
      rfl
  | false =>
      have hlook : isMemberName (s.buffer.tokenAt (s.cursor + 0)).kind = false := hname
      simp only [hlook, Bool.false_eq_true, if_false]
      exact ⟨s.filledTo 0, s.reads_filledTo 0, rfl⟩

/-- A statement is not concluded where something is left of its line. -/
theorem conclude_of_open (env : Env) (h : s.token.kind.isTerminator = false)
    (hstrict : s.isRelaxed = false) (a : Statement) :
    ∃ error t, conclude a env s = .error error t := by
  rw [conclude_run, hstrict, h]
  exact ⟨_, _, rfl⟩

section

variable {kinds : List Kind}

/-- The look of the rule for fields. -/
theorem State.Opens.nameThen_field (h : s.Opens env kinds) :
    ∃ t, s.Reads t ∧ nameThen (fun kind => kind = .dot || kind = .leftBracket) env s =
      .ok (takes kinds .fieldAccess) t := by
  rcases nameThen_run (fun kind => kind = .dot || kind = .leftBracket) env s with ⟨t, ht, hrun⟩
  refine ⟨t, ht, ?_⟩
  rw [hrun, h.kind, takes, decide_eq_decide.2 (h.next .dot (by decide) (by decide)),
    decide_eq_decide.2 (h.next .leftBracket (by decide) (by decide))]

/-- A rule for what begins with a keyword or a brace. -/
theorem State.Opens.not_keyword (h : s.Opens env kinds) (hbrace : kindAt kinds 0 ≠ .leftBrace)
    {construct : Construct} {kind : Kind} (hkeyword : construct.keyword? = some kind) :
    s.token.kind ≠ kind := by
  rintro rfl
  have hopens := h.opens
  rw [h.kind] at hkeyword
  generalize kindAt kinds 0 = first at *
  cases construct <;> cases hkeyword <;> first | exact hbrace rfl | cases hopens

/-- The rule for code blocks declines a line of expressions, as a dot follows where one begins
    with the name of a language. -/
theorem State.Opens.codeBlock_run {guard : Guard} {line : String}
    (h : s.Opens (defaultEnv guard line) kinds) :
    ∃ t, codeBlock (defaultEnv guard line) s = .ok none t := by
  obtain ⟨t, -, hrun⟩ : ∃ t, s.Reads t ∧ codeBlockAhead (defaultEnv guard line) s = .ok false t :=
    codeBlockAhead_run
      (fun hkind => (h.next .dot (by decide) (by decide)).2 (h.tag (h.kind ▸ hkind)))
      (fun hkind => by rw [h.plain (h.kind ▸ hkind)]; decide)
  refine ⟨t, ?_⟩
  unfold codeBlock
  rw [bind_run, hrun]
  rfl

end

section

variable {registry : Registry} (hbuiltin : registry.IsBuiltin) {guard : Guard}
  (hguard : guard.enabled = false) {line first : String} {rest : List String} {e : Expr}
  {exprs : List Expr} {c : Construct}

include hbuiltin hguard

/-- The rule for assignments declines a line that is a pipe, since no assignment sign stands on
    it outside of brackets. -/
theorem State.Fronts.assignment_run (h : s.Fronts line line.toList lx)
    (hpipe : IsPipe registry guard line first rest e exprs) (g : Grammar) :
    ∃ t, assignment g (defaultEnv guard line) s = .ok none t := by
  have hfronts := h
  rw [hpipe.split] at h
  rcases (h.pipeExpression hbuiltin hguard hpipe.first hpipe.stages hpipe.proper
    hpipe.length_le).1 with ⟨ts, r, hyields, hsees⟩
  have hplain : lx.plain = lx := by rw [Lexer.plain, ← h.mode]
  rw [hplain] at hyields
  have hsound : s.Sound (defaultEnv guard line).source := h.sound
  rcases assignmentAhead_sees hyields h.stands hsound h.within with ⟨t, -, hrun⟩
  rw [h.isRelaxed, hsees] at hrun
  refine ⟨t, ?_⟩
  rw [assignment_eq, bind_run, hrun]
  rfl

/-- The rule for expressions makes a pipe of the line. -/
theorem State.Fronts.expressionStatement_run (h : s.Fronts line line.toList lx)
    (hpipe : IsPipe registry guard line first rest e exprs) :
    ∃ a t ox, expressionStatement (Grammar.level registry (4 * line.utf8ByteSize + 7))
        (defaultEnv guard line) s = .ok a t ∧
      a.skeleton = (pipeStatement (e :: exprs)).skeleton ∧ t.Fronts line [] ox := by
  rcases h.call hbuiltin hguard hpipe with ⟨call, t, ox, hrun, hcall, hskeleton, ht⟩
  refine ⟨_, t.filled, ox, ?_, hskeleton call.position, ht.filled⟩
  unfold expressionStatement
  rw [bind_run, hrun]
  simp only [hcall, if_true]
  rw [bind_run, ht.foreground]
  rfl

/-- So does the rule for guest calls, if there is a call at the end of the chain. -/
theorem State.Fronts.languageCall_run (h : s.Fronts line line.toList lx)
    (hpipe : IsPipe registry guard line first rest e exprs) :
    if takes (Text.kinds first) .languageCall = true then
      ∃ a t ox, languageCall (Grammar.level registry (4 * line.utf8ByteSize + 7))
          (defaultEnv guard line) s = .ok (some a) t ∧
        a.skeleton = (pipeStatement (e :: exprs)).skeleton ∧ t.Fronts line [] ox
    else ∃ t, languageCall (Grammar.level registry (4 * line.utf8ByteSize + 7))
      (defaultEnv guard line) s = .ok none t := by
  have hopens := h.opening hbuiltin hguard hpipe
  -- The rule asks for a name with a dot behind it, and then whether the chain ends in a call.
  rcases nameThen_run (fun kind => kind = .dot) (defaultEnv guard line) s with ⟨t, ht, hrun⟩
  rw [hopens.kind, decide_eq_decide.2 (hopens.next .dot (by decide) (by decide))] at hrun
  unfold languageCall
  rw [bind_run, hrun, takes]
  cases hname : isMemberName (kindAt (Text.kinds first) 0) &&
    decide (kindAt (Text.kinds first) 1 = .dot) with
  | false =>
      simp only [Bool.false_and, Bool.false_eq_true, if_false]
      exact ⟨t, rfl⟩
  | true =>
      have hopening := (h.reads ht).opening hbuiltin hguard hpipe
      rcases hopening.chain (Bool.and_eq_true_iff.1 hname).1 with ⟨u, hu, hchain⟩
      simp only [if_true, Bool.true_and]
      rw [bind_run, hchain]
      cases leadsToCall (Text.kinds first).tail with
      | false => exact ⟨u, rfl⟩
      | true =>
          rcases ((h.reads ht).reads hu).filled.call hbuiltin hguard hpipe with
            ⟨call, v, ox, hcall, -, hskeleton, hv⟩
          refine ⟨_, v.filled, ox, ?_, hskeleton u.token.position, hv.filled⟩
          simp only [if_true]
          rw [bind_run, current_run]
          simp only
          rw [bind_run, hcall]
          simp only
          rw [bind_run, hv.foreground]
          rfl

/-- The rule for fields takes the first text for itself. -/
theorem State.Fronts.fieldAccess_run (h : s.Fronts line line.toList lx)
    (hpipe : IsPipe registry guard line first rest e exprs) :
    if takes (Text.kinds first) .fieldAccess = true then
      ∃ a t, fieldAccess (Grammar.level registry (4 * line.utf8ByteSize + 7))
          (defaultEnv guard line) s = .ok (some a) t ∧
        t.token.kind = .pipe ∧ t.isRelaxed = false
    else ∃ t, fieldAccess (Grammar.level registry (4 * line.utf8ByteSize + 7))
      (defaultEnv guard line) s = .ok none t := by
  rcases (h.opening hbuiltin hguard hpipe).nameThen_field with ⟨t, ht, hrun⟩
  unfold fieldAccess
  rw [bind_run, hrun]
  cases takes (Text.kinds first) .fieldAccess with
  | false => exact ⟨t, rfl⟩
  | true =>
      have hfronts := h.reads ht
      rw [hpipe.split] at hfronts
      -- The first text is an expression, and the rule stops behind it.
      rcases hfronts.stage hbuiltin hguard hpipe.first with ⟨-, e', u, ox, hexpression, -, hu, -⟩
      refine ⟨.expression e' e'.position, u, ?_, ?_, hu.isRelaxed⟩
      · simp only [if_true]
        rw [bind_run, hexpression]
        rfl
      -- Another text follows, and so the pipe between them is the next token.
      · obtain ⟨second, texts, rfl⟩ := List.exists_cons_of_ne_nil hpipe.proper
        exact (hu.next (leads_pipe _).space (by decide)).1

/-- A builtin call at the beginning of the line. -/
theorem State.Fronts.builtinCall_run (h : s.Fronts line line.toList lx)
    (hpipe : IsPipe registry guard line first rest e exprs) :
    if takes (Text.kinds first) .builtinCall = true then
      ∃ a t ox, builtinCall (Grammar.level registry (4 * line.utf8ByteSize + 7))
          (defaultEnv guard line) s = .ok (some a) t ∧
        a.skeleton = (pipeStatement (e :: exprs)).skeleton ∧ t.Fronts line [] ox
    else ∃ t, builtinCall (Grammar.level registry (4 * line.utf8ByteSize + 7))
      (defaultEnv guard line) s = .ok none t := by
  have hopens := h.opening hbuiltin hguard hpipe
  unfold builtinCall takes
  rw [bind_run, check_run, hopens.kind]
  cases decide (kindAt (Text.kinds first) 0 = .identifier) with
  | false => exact ⟨s.filled, rfl⟩
  | true =>
      simp only [if_true, Bool.true_and]
      have hlook : peekKind 1 (defaultEnv guard line) s.filled =
          .ok (s.buffer.tokenAt (s.cursor + 1)).kind (s.filled.filledTo 1) := by
        rw [peekKind_run, State.filled, TokenBuffer.tokenAt_fill]
        rfl
      rw [bind_run, hlook]
      -- Whether it is a call is seen at the second token.
      simp only [hopens.next .leftParen (by decide) (by decide), decide_eq_true_eq]
      split
      · rcases (h.filled.reads (s.filled.reads_filledTo 1)).expressionStatement_run hbuiltin hguard
          hpipe with ⟨a, t, ox, hrun, ha, ht⟩
        refine ⟨a, t, ox, ?_, ha, ht⟩
        rw [bind_run, hrun]
        rfl
      · exact ⟨_, rfl⟩

/-- A handler whose rule does not take the line declines. -/
theorem State.Fronts.builtin_declines (h : s.Fronts line line.toList lx)
    (hpipe : IsPipe registry guard line first rest e exprs)
    (hbrace : kindAt (Text.kinds first) 0 ≠ .leftBrace) {settings : HandlerSettings}
    (htakes : takes (Text.kinds first) settings.construct = false) :
    ∃ t, (Handler.builtin settings).parse (Grammar.level registry (4 * line.utf8ByteSize + 7))
      (defaultEnv guard line) s = .ok none t := by
  have hopens := h.opening hbuiltin hguard hpipe
  simp only [Handler.builtin]
  -- A rule with a keyword declines at the first token. The others look further, each in its own
  -- way.
  cases hkeyword : settings.construct.keyword? with
  | some kind =>
      refine ⟨s.filled, ?_⟩
      simp only
      rw [bind_run, check_run, decide_eq_false (hopens.not_keyword hbrace hkeyword)]
      rfl
  | none =>
      simp only [Handler.rule]
      cases hconstruct : settings.construct <;> rw [hconstruct] at hkeyword htakes
      case codeBlock => exact hopens.codeBlock_run
      case assignment => exact h.assignment_run hbuiltin hguard hpipe _
      case languageCall =>
        have hrun := h.languageCall_run hbuiltin hguard hpipe
        rwa [htakes] at hrun
      case fieldAccess =>
        have hrun := h.fieldAccess_run hbuiltin hguard hpipe
        rwa [htakes] at hrun
      case builtinCall =>
        have hrun := h.builtinCall_run hbuiltin hguard hpipe
        rwa [htakes] at hrun
      case expression => cases htakes
      all_goals cases hkeyword

/-- A handler whose rule takes the line answers with the pipe, unless it is for fields. -/
theorem State.Fronts.builtin_answers (h : s.Fronts line line.toList lx)
    (hpipe : IsPipe registry guard line first rest e exprs) {settings : HandlerSettings}
    (htakes : takes (Text.kinds first) settings.construct = true)
    (hfield : settings.construct ≠ .fieldAccess) :
    ∃ a t ox, (Handler.builtin settings).parse
        (Grammar.level registry (4 * line.utf8ByteSize + 7)) (defaultEnv guard line) s =
          .ok (some a) t ∧
      a.skeleton = (pipeStatement (e :: exprs)).skeleton ∧ t.Fronts line [] ox := by
  simp only [Handler.builtin, Handler.rule]
  -- Apart from the rule for fields, three rules take a line that begins with an expression.
  cases hconstruct : settings.construct <;> rw [hconstruct] at hfield htakes
  case languageCall =>
    have hrun := h.languageCall_run hbuiltin hguard hpipe
    rwa [htakes] at hrun
  case builtinCall =>
    have hrun := h.builtinCall_run hbuiltin hguard hpipe
    rwa [htakes] at hrun
  case expression =>
    rcases h.expressionStatement_run hbuiltin hguard hpipe with ⟨a, t, ox, hrun, ha, ht⟩
    refine ⟨a, t, ox, ?_, ha, ht⟩
    simp only [Construct.keyword?, Handler.certainly]
    rw [bind_run, hrun]
    rfl
  case fieldAccess => exact absurd rfl hfield
  all_goals cases htakes

omit hbuiltin in
theorem nested_of_ok {α : Type} {p : Parse α} {a : α}
    (h : p (defaultEnv guard line) (s.filled.atDepth (s.depth + 1)) = .ok a t) :
    nested p (defaultEnv guard line) s = .ok a (t.atDepth (Guard.exit t.depth)) := by
  rw [nested_entered (enter_of_disabled hguard _ _)]
  exact around_of_ok h

/-- Handlers that are asked one after the other: the first one whose rule takes the line makes
    a pipe of it, or fails at the operator if it is for fields. -/
theorem State.Fronts.tryHandlers_run (hpipe : IsPipe registry guard line first rest e exprs)
    (hbrace : kindAt (Text.kinds first) 0 ≠ .leftBrace) (token : Token) {handlers : List Handler}
    (hhandlers : ∀ h ∈ handlers, ∃ settings, h = Handler.builtin settings) {handler : Handler}
    (hfind : handlers.find? (fun h => takes (Text.kinds first) h.settings.construct) =
      some handler) (h : s.Fronts line line.toList lx) :
    if handler.settings.construct = .fieldAccess then
      ∃ error t, tryHandlers (Grammar.level registry (4 * line.utf8ByteSize + 7)) token s.cursor
        handlers (defaultEnv guard line) s = .error error t
    else ∃ a t ox, tryHandlers (Grammar.level registry (4 * line.utf8ByteSize + 7)) token s.cursor
          handlers (defaultEnv guard line) s = .ok a t ∧
        a.skeleton = (pipeStatement (e :: exprs)).skeleton ∧ t.Fronts line [] ox := by
  -- By induction on the handlers. A handler that declines has only read ahead.
  induction handlers generalizing s with
  | nil => cases hfind
  | cons next others ih =>
      have hnext := hhandlers next List.mem_cons_self
      rw [tryHandlers_cons token hnext]
      rcases hnext with ⟨settings, rfl⟩
      have hinner : (s.filled.atDepth (s.depth + 1)).Fronts line line.toList lx :=
        h.filled.atDepth _
      cases htakes : takes (Text.kinds first) settings.construct with
      | false =>
          rw [List.find?_cons_of_neg (by simpa [Handler.builtin] using htakes)] at hfind
          rcases hinner.builtin_declines hbuiltin hguard hpipe hbrace htakes with ⟨t, hrun⟩
          have hnested := nested_of_ok hguard hrun
          rw [hnested]
          exact ih (fun h hmem => hhandlers h (List.mem_cons_of_mem _ hmem)) hfind
            (h.reads ((quiet_builtin settings _).nested _ s _ hnested))
      | true =>
          rw [List.find?_cons_of_pos (by simpa [Handler.builtin] using htakes)] at hfind
          cases hfind
          split
          · rename_i hfield
            have hfield' : settings.construct = .fieldAccess := hfield
            have hrun := hinner.fieldAccess_run hbuiltin hguard hpipe
            rw [hfield'] at htakes
            rw [htakes] at hrun
            rcases hrun with ⟨a, t, hrun, ht, hstrict⟩
            have hparse : (Handler.builtin settings).parse
                (Grammar.level registry (4 * line.utf8ByteSize + 7)) (defaultEnv guard line)
                (s.filled.atDepth (s.depth + 1)) = .ok (some a) t := by
              simp only [Handler.builtin, Handler.rule, hfield']
              exact hrun
            rcases conclude_of_open (s := t.atDepth (Guard.exit t.depth)) (defaultEnv guard line)
              (congrArg Kind.isTerminator ht) hstrict a with ⟨error, u, hconclude⟩
            exact ⟨error, u, by rw [nested_of_ok hguard hparse]; exact hconclude⟩
          · rename_i hfield
            rcases hinner.builtin_answers hbuiltin hguard hpipe htakes hfield with
              ⟨a, t, ox, hrun, ha, ht⟩
            have hfinish := ht.atDepth (Guard.exit t.depth)
            rcases conclude_terminated (by rw [hfinish.closed.1]; rfl) a with
              ⟨u, hconclude, hu⟩
            exact ⟨a, u, ox, by rw [nested_of_ok hguard hrun]; exact hconclude, ha,
              hfinish.reads hu⟩

end

end Parse

end PolyScript
