import PolyScript.Proofs.AtEnd

/-!
# What Parsers Are Made Of

A parser is a function, so nothing in its type says what happens on the way from
the state it is given to the state it leaves. `Parse.Made` supplies that: it lists
the operations that touch a state and the ways to combine parsers, and a
derivation of it takes a parser apart into these.

The list is short on purpose. A parser may look at its state and its environment,
read tokens, move its cursor and resume elsewhere in the text. It has no operation
that writes the nesting depth, the loop depth or the terminator mode: these change
only inside the wrappers, each of which is a way to combine. Nor may it raise the
error about loop control at will; the one rule that does is listed by itself.

Unlike a derivation of `Parse.Alike`, which follows a text that is at hand, one of
`Parse.Made` covers every state, also those that no parse comes to. All rules of
the grammar are taken apart here, so that the facts which hold for such reasons
need an induction each and no further look at the rules.

## Main definitions

* `ParseError.isOutsideLoop`: The error of loop control outside of a loop.
* `Parse.Made`: A parser is put together from the listed operations.
* `Grammar.Made`: The same of all parts of a grammar.

## Theorems

* `Parse.made_expression`, `Parse.made_pattern`, `Parse.made_conditional`,
  `Parse.made_dispatch`: The rules.
* `Grammar.made_level`: Every level of the grammar.
* `Parse.made_program`: Whole programs.
-/

namespace PolyScript

/-- Whether an error is about loop control outside of a loop. -/
def ParseError.isOutsideLoop : ParseError → Bool
  | .outsideLoop .. => true
  | _ => false

namespace Parse

/-- A parser is put together from operations that leave nesting depth, loop depth
    and terminator mode alone, and from the wrappers that change them for a
    while. -/
inductive Made : {α : Type} → Parse α → Prop
  | pure {α : Type} (a : α) : Made (pure a)
  | bind {α β : Type} {p : Parse α} {f : α → Parse β} :
    Made p → (∀ a, Made (f a)) → Made (p >>= f)
  | throw {α : Type} {e : ParseError} : e.isOutsideLoop = false → Made (throw e : Parse α)
  | read : Made (read : Parse Env)
  | get : Made (get : Parse State)
  | peek (n : Nat) : Made (peek n)
  | consume : Made consume
  | window (count : Nat) : Made (window count)
  | setCursor (index : Nat) : Made (setCursor index)
  | resumeAt (p : Position) : Made (resumeAt p)
  | nested {α : Type} {p : Parse α} : Made p → Made (nested p)
  | inLoop {α : Type} {p : Parse α} : Made p → Made (inLoop p)
  | withTerminators {α : Type} {p : Parse α} (isRelaxed : Bool) :
    Made p → Made (withTerminators isRelaxed p)
  | inSizeMode {α : Type} {p : Parse α} : Made p → Made (inSizeMode p)
  | loopControl : Made loopControl

end Parse

/-- All parts of a grammar are put together in this way. -/
structure Grammar.Made (g : Grammar) : Prop where
  expression : Parse.Made g.expression
  operand : Parse.Made g.operand
  pattern : Parse.Made g.pattern
  statement : Parse.Made g.statement
  conditional : Parse.Made g.conditional

namespace Parse

variable {α β : Type} {g : Grammar}

/-! ### Forms -/

theorem made_peekKind (n : Nat) : Made (peekKind n) := .bind (.peek n) fun _ => .pure _

theorem made_check (kind : Kind) : Made (check kind) := .bind (made_peekKind 0) fun _ => .pure _

theorem made_languages : Made languages := .bind .read fun _ => .pure _

theorem made_unexpected (expected : String) : Made (unexpected expected : Parse α) :=
  .bind (.peek 0) fun _ => .throw rfl

theorem Made.ite {c : Prop} [Decidable c] {p q : Parse α} (hp : Made p) (hq : Made q) :
    Made (if c then p else q) := by
  split
  · exact hp
  · exact hq

/-- A rule that asks for the kind of the current token. -/
theorem Made.ite_check {kind : Kind} {p q : Parse α} (hp : Made p) (hq : Made q) :
    Made (Parse.check kind >>= fun c => if c = true then p else q) :=
  .bind (made_check kind) fun _ => .ite hp hq

theorem made_expect (kind : Kind) : Made (expect kind) := .ite_check .consume (made_unexpected _)

theorem made_expectClosing (opening : Token) (closer : Kind) : Made
    (expectClosing opening closer) :=
  .ite_check .consume (.bind (.peek 0) fun _ => .throw rfl)

theorem made_exhausted : Made (exhausted : Parse α) :=
  .bind (.peek 0) fun _ => .bind .read fun _ => .throw rfl

theorem Made.iterate {step : α → Parse (α ⊕ β)} (h : ∀ a, Made (step a)) (n : Nat) (a : α) :
    Made (iterate step n a) := by
  induction n generalizing a with
  | zero => exact made_exhausted
  | succ n ih =>
      refine .bind (h a) fun result => ?_
      cases result with
      | inl next => exact ih next
      | inr b => exact .pure b

theorem Made.loop {step : α → Parse (α ⊕ β)} (h : ∀ a, Made (step a)) (start : α) :
    Made (loop start step) :=
  .bind .read fun _ => .iterate h _ _

theorem Made.lookahead {p : Parse α} (h : Made p) : Made (lookahead p) :=
  .bind (.bind .get fun _ => .pure _) fun _ => .bind h fun _ => .bind (.setCursor _) fun _ =>
      .pure _

theorem made_skipNewlines : Made skipNewlines :=
  .loop (fun _ => .ite_check (.bind .consume fun _ => .pure _) (.pure _)) 0

theorem made_skipSeparators : Made skipSeparators :=
  .loop (fun _ => .bind (made_peekKind 0) fun _ => .ite (.bind .consume fun _ =>
      .pure _) (.pure _)) ()

theorem made_nextAfterNewlinesIs (kind : Kind) : Made (nextAfterNewlinesIs kind) :=
  .loop (fun n => .bind (made_peekKind n) fun _ => .ite (.pure _) (.pure _)) 0

/-- A comma and the newlines after it. -/
theorem made_pastComma {f : Parse β} (h : Made f) :
    Made (consume >>= fun _ => skipNewlines >>= fun _ => f) :=
  .bind .consume fun _ => .bind made_skipNewlines fun _ => h

theorem Made.commaList {closer : Kind} {item : α → Parse α} (h : ∀ a, Made (item a)) (start : α) :
    Made (commaList closer start item) :=
  .bind made_skipNewlines fun _ => .loop (fun a => .ite_check (.pure _)
    (.bind (h a) fun _ => .bind made_skipNewlines fun _ =>
      .ite_check (made_pastComma (.pure _)) (.pure _))) start

/-! ### Expressions -/

theorem isOutsideLoop_literalOf {source : String} {t : Token} {e : ParseError}
    (h : literalOf source t = .error e) : e.isOutsideLoop = false := by
  unfold literalOf at h
  split at h
  · split at h <;> cases h
    rfl
  all_goals cases h
  rfl

theorem made_literal : Made literal := by
  refine .bind (.peek 0) fun token => .bind .read fun env => ?_
  cases h : literalOf env.source token with
  | ok expr => exact .bind .consume fun _ => .pure _
  | error e => exact .throw (isOutsideLoop_literalOf h)

theorem made_identifier : Made identifier := .bind .consume fun _ => .pure _

theorem made_memberName : Made memberName :=
  .bind (made_peekKind 0) fun _ => .ite .consume (made_unexpected _)

theorem made_memberAhead : Made memberAhead :=
  .ite_check (.bind (made_peekKind 1) fun _ => .pure _) (.pure _)

theorem made_chainEndsInCall : Made chainEndsInCall :=
  .lookahead (.bind .consume fun _ => .loop (fun _ => .bind made_memberAhead fun _ =>
    .ite (.bind .consume fun _ => .bind .consume fun _ => .pure _)
      (.bind (made_check _) fun _ => .pure _)) ())

theorem made_argument (hg : g.Made) : Made (argument g) :=
  .bind (made_peekKind 1) fun _ => .bind (made_peekKind 0) fun _ =>
    .ite made_literal (.ite (.bind .consume fun _ => .pure _) hg.expression)

theorem made_callArguments (hg : g.Made) : Made (callArguments g) :=
  .bind (made_expect _) fun _ => .bind
    (.commaList (fun _ => .bind (made_argument hg) fun _ => .pure _) _) fun _ =>
    .bind (made_expectClosing _ _) fun _ => .pure _

theorem made_segments : Made segments :=
  .loop (fun _ => .ite_check (.bind .consume fun _ => .bind made_memberName fun _ => .pure _)
    (.pure _)) []

theorem isOutsideLoop_resolveAt {table : LanguageTable} {name : String} {p : Position}
    {e : ParseError} (h : table.resolveAt name p = .error e) : e.isOutsideLoop = false := by
  unfold LanguageTable.resolveAt at h
  split at h <;> cases h
  rfl

theorem made_guestChain (hg : g.Made) : Made (guestChain g) := by
  refine .bind .consume fun head => .bind made_languages fun table => ?_
  cases h : table.resolveAt head.text head.position with
  | error e => exact .throw (isOutsideLoop_resolveAt h)
  | ok language =>
      refine .bind made_segments fun names => .ite_check ?_ ?_
      · exact .bind (made_callArguments hg) fun _ => .pure _
      · split
        · exact .pure _
        · exact made_unexpected _

theorem made_reference (hg : g.Made) : Made (reference g) := by
  refine .bind (.peek 0) fun head => .bind made_languages fun table =>
    .bind (made_peekKind 1) fun next => ?_
  split
  · exact .ite (made_guestChain hg) (.bind made_chainEndsInCall fun _ =>
      .ite (.throw rfl) made_identifier)
  · refine .ite ?_ (.ite ?_ made_identifier)
    · exact .bind .consume fun _ => .bind (made_callArguments hg) fun _ => .pure _
    · exact .bind .consume fun _ => made_unexpected _

theorem made_pipeExpression (hg : g.Made) : Made (pipeExpression g) := by
  refine .bind hg.expression fun first => .bind (.loop (fun stages => ?_) _) fun _ =>
    .ite (.pure _) (.pure _)
  refine .bind (made_nextAfterNewlinesIs _) fun _ => .ite ?_ (.pure _)
  exact .bind made_skipNewlines fun _ => .bind .consume fun _ => .bind made_skipNewlines fun _ =>
    .bind hg.expression fun _ => .pure _

theorem made_backgroundMarker : Made backgroundMarker :=
  .ite_check (.bind .consume fun _ => .bind (.peek 0) fun _ => .bind .get fun _ =>
    .ite (.pure _) (.throw rfl)) (.pure _)

theorem made_grouped (hg : g.Made) : Made (grouped g) :=
  .bind (made_expect _) fun _ => .bind made_skipNewlines fun _ => .bind hg.expression fun _ =>
    .bind made_skipNewlines fun _ => .bind (made_expectClosing _ _) fun _ => .pure _

/-! ### Bit strings -/

theorem made_segmentValue (hg : g.Made) (inPattern : Bool) : Made (segmentValue g inPattern) := by
  refine .bind (.peek 0) fun token => ?_
  split
  · exact made_literal
  · exact made_literal
  · exact .bind (made_peekKind 1) fun _ =>
      .ite (.bind .consume fun _ => .bind made_literal fun _ => .pure _) (.throw rfl)
  · exact .ite (.bind (made_peekKind 1) fun _ => .ite (made_reference hg) made_identifier)
      (made_reference hg)
  · exact made_reference hg
  · exact made_grouped hg
  · exact .ite (.bind .consume fun _ => .pure _) (.throw rfl)
  · exact .throw rfl

theorem made_segmentSize (hg : g.Made) : Made (segmentSize g) := by
  refine .bind (.peek 0) fun token => ?_
  split
  · exact made_literal
  · exact made_reference hg
  · exact made_reference hg
  · exact made_grouped hg
  · exact .throw rfl

theorem made_specifierList (start : List String) : Made (specifierList start) := by
  refine .loop (fun acc => .bind (made_expect _) fun atom => ?_) start
  have hminus : ∀ names : List String, Made (check .minus >>= fun minus =>
      if minus = true then consume >>= fun _ => pure (Sum.inl (acc ++ names))
      else pure (Sum.inr (acc ++ names)) : Parse (List String ⊕ List String)) :=
    fun names => .ite_check (.bind .consume fun _ => .pure _) (.pure _)
  refine .ite_check ?_ (.bind (.pure _) hminus)
  refine .bind .consume fun _ => .bind (.peek 0) fun value => .ite ?_ (.bind (.throw rfl) hminus)
  exact .bind .consume fun _ => .bind (.pure _) hminus

theorem made_segment (hg : g.Made) (inPattern : Bool) : Made (segment g inPattern) := by
  refine .bind (made_segmentValue hg inPattern) fun _ => .bind ?_ fun _ => .bind ?_ fun _ => .pure _
  · exact .ite_check (.bind .consume fun _ => .bind (.inSizeMode (made_segmentSize hg)) fun _ =>
      .pure _) (.pure _)
  · exact .loop (fun acc => .ite_check (.bind .consume fun _ => .bind (made_specifierList acc)
      fun _ => .pure _) (.pure _)) []

theorem made_segmentList (hg : g.Made) (inPattern : Bool) : Made (segmentList g inPattern) := by
  refine .bind made_skipNewlines fun _ => .ite_check (.pure _) (.loop (fun acc => ?_) [])
  refine .bind (made_segment hg inPattern) fun _ => .bind made_skipNewlines fun _ =>
    .ite_check (made_pastComma ?_) (.pure _)
  exact .ite_check (made_unexpected _) (.pure _)

theorem made_bitstring (hg : g.Made) (inPattern : Bool) : Made (bitstring g inPattern) :=
  .bind (made_expect _) fun _ => .nested (.bind (made_segmentList hg inPattern) fun _ =>
    .bind (.peek 0) fun _ => .ite (.bind (made_expectClosing _ _) fun _ => .pure _) (.throw rfl))

/-! ### Operators -/

theorem made_arrayLiteral (hg : g.Made) : Made (arrayLiteral g) :=
  .bind (made_expect _) fun _ => .bind
    (.commaList (fun _ => .bind hg.expression fun _ => .pure _) _) fun _ =>
    .bind (made_expectClosing _ _) fun _ => .pure _

theorem made_objectEntry (hg : g.Made) : Made (objectEntry g) := by
  refine .bind (.peek 0) fun token => ?_
  cases h : objectKey token with
  | error e =>
      refine .throw ?_
      unfold objectKey at h
      split at h <;> cases h
      rfl
  | ok key =>
      exact .bind .consume fun _ => .bind (made_expect _) fun _ => .bind made_skipNewlines fun _ =>
        .bind hg.expression fun _ => .pure _

theorem made_objectLiteral (hg : g.Made) : Made (objectLiteral g) :=
  .bind (made_expect _) fun _ => .bind
    (.commaList (fun _ => .bind (made_objectEntry hg) fun _ => .pure _) _) fun _ =>
    .bind (made_expectClosing _ _) fun _ => .pure _

/-- Primary expressions are put together from the operations, one branch for each token that may
    begin one. -/
theorem made_primary (hg : g.Made) : Made (primary g) := by
  refine .bind (.peek 0) fun token => ?_
  split
  · exact made_literal
  · exact made_literal
  · exact made_literal
  · exact made_literal
  · exact made_literal
  · exact made_reference hg
  · exact made_reference hg
  · exact made_grouped hg
  · exact made_arrayLiteral hg
  · exact made_objectLiteral hg
  · exact .bind (made_bitstring hg false) fun _ => .pure _
  · exact .throw rfl

theorem made_suffixes (hg : g.Made) (start : Expr) : Made (suffixes g start) := by
  refine .loop (fun expr => .bind (made_peekKind 0) fun kind => ?_) start
  split
  · exact .bind .consume fun _ => .bind made_skipNewlines fun _ => .bind hg.expression fun _ =>
      .bind made_skipNewlines fun _ => .bind (made_expectClosing _ _) fun _ => .pure _
  · exact .bind .consume fun _ => .bind made_memberName fun _ =>
      .ite_check (.throw rfl) (.pure _)
  · exact .pure _

theorem made_operand (hg : g.Made) : Made (operand g) := by
  refine .bind (made_peekKind 0) fun kind => ?_
  split
  · exact .bind .consume fun _ => .bind (.nested hg.operand) fun _ => .pure _
  · exact .bind (made_primary hg) fun _ => made_suffixes hg _

theorem made_binary (hg : g.Made) (levels least : Nat) : Made (binary g levels least) := by
  induction levels generalizing least with
  | zero => exact made_operand hg
  | succ levels ih =>
      refine .bind (made_operand hg) fun first => .loop (fun left => .bind (made_peekKind 0)
        fun kind => ?_) first
      split
      · exact .ite (.pure _) (.bind .consume fun _ => .bind made_skipNewlines fun _ =>
          .bind (ih _) fun _ => .pure _)
      · exact .pure _

theorem made_conditionalTail (hg : g.Made) (condition : Expr) :
    Made (conditionalTail g condition) := by
  refine .ite_check (.bind .consume fun _ => .ite_check ?_ ?_) (.pure _)
  · exact .bind .consume fun _ => .bind made_skipNewlines fun _ => .bind hg.expression fun _ =>
      .pure _
  · exact .bind made_skipNewlines fun _ => .bind hg.expression fun _ =>
      .bind made_skipNewlines fun _ => .bind (made_expect _) fun _ =>
      .bind made_skipNewlines fun _ => .bind hg.expression fun _ => .pure _

theorem made_expression (hg : g.Made) : Made (expression g) :=
  .nested (.bind (made_binary hg 7 1) fun _ => made_conditionalTail hg _)

/-! ### Patterns -/

theorem made_restPattern : Made restPattern := by
  refine .bind .consume fun dots => .bind (made_expect _) fun name =>
    .bind made_skipNewlines fun _ => ?_
  have hclosed : Made (check .rightBracket >>= fun closed =>
      if closed = true then pure name.text
      else throw (.unsupported "rest pattern"
        "'...' may only bind the last element of an array pattern" dots.position) : Parse String) :=
    .ite_check (.pure _) (.throw rfl)
  exact .ite_check (.bind .consume fun _ => .bind made_skipNewlines fun _ => hclosed) hclosed

theorem made_arrayPattern (hg : g.Made) : Made (arrayPattern g) := by
  refine .bind (made_expect _) fun _ => .bind made_skipNewlines fun _ =>
    .bind (.loop (fun elements => ?_) _) fun _ => .bind (made_expectClosing _ _) fun _ => .pure _
  refine .ite_check (.pure _) (.ite_check (.bind made_restPattern fun _ => .pure _) ?_)
  exact .bind hg.pattern fun _ => .bind made_skipNewlines fun _ =>
    .ite_check (made_pastComma (.pure _)) (.pure _)

theorem made_patternField (hg : g.Made) (fields : List PatternField) :
    Made (patternField g fields) := by
  refine .bind (.peek 0) fun key => .ite ?_ (.throw rfl)
  refine .bind .consume fun _ => .bind (made_expect _) fun _ => .bind made_skipNewlines fun _ =>
    .bind hg.pattern fun pattern => ?_
  split
  · exact .pure _
  · exact .throw rfl

theorem made_objectPattern (hg : g.Made) : Made (objectPattern g) :=
  .bind (made_expect _) fun _ => .bind (.commaList (made_patternField hg) _) fun _ =>
    .bind (made_expectClosing _ _) fun _ => .pure _

/-- Patterns are put together from the operations, one branch for each token that may begin
    one. -/
theorem made_pattern (hg : g.Made) : Made (pattern g) := by
  refine .nested (.bind (.peek 0) fun token => ?_)
  have hliteral : Made (literal >>= fun value =>
      pure (Pattern.literal (normalizeLiteral value) token.position)) :=
    .bind made_literal fun _ => .pure _
  split
  · exact hliteral
  · exact hliteral
  · exact hliteral
  · exact hliteral
  · exact hliteral
  · exact .bind (made_peekKind 1) fun _ =>
      .ite (.bind .consume fun _ => .bind made_literal fun _ => .pure _) (.throw rfl)
  · exact .bind .consume fun _ => .pure _
  · exact .bind .consume fun _ => .pure _
  · exact made_arrayPattern hg
  · exact made_objectPattern hg
  · exact .bind (made_bitstring hg true) fun _ => .pure _
  · exact .throw rfl

/-! ### Statements -/

theorem made_statements (hg : g.Made) {more : Parse Bool} (hmore : Made more) :
    Made (statements g more) :=
  .bind made_skipSeparators fun _ => .loop (fun _ => .bind hmore fun _ =>
    .ite (.bind hg.statement fun _ => .bind made_skipSeparators fun _ => .pure _) (.pure _)) []

theorem made_unlessClosed (closer : Kind) : Made (unlessClosed closer) :=
  .bind (made_peekKind 0) fun _ => .pure _

theorem made_block (hg : g.Made) : Made (block g) :=
  .bind (made_expect _) fun _ => .withTerminators false
    (.bind (made_statements hg (made_unlessClosed _)) fun _ =>
      .bind (made_expectClosing _ _) fun _ => .pure _)

theorem made_body (hg : g.Made) : Made (body g) :=
  .ite_check (.bind .consume fun _ => .bind made_skipNewlines fun _ =>
      .bind (.withTerminators true hg.statement) fun _ => .pure _)
    (.bind made_skipNewlines fun _ => made_block hg)

theorem made_otherwise (hg : g.Made) : Made (otherwise g) := by
  refine .bind (made_nextAfterNewlinesIs _) fun _ => .ite ?_ (.pure _)
  refine .bind made_skipNewlines fun _ => .bind .consume fun _ => .ite_check ?_ ?_
  · exact .bind (.nested hg.conditional) fun _ => .pure _
  · exact .bind (made_body hg) fun _ => .pure _

theorem made_conditional (hg : g.Made) : Made (conditional g) :=
  .bind (made_expect _) fun _ => .bind hg.expression fun _ => .bind (made_body hg) fun _ =>
    .bind (made_otherwise hg) fun _ => .pure _

theorem made_forInAhead : Made forInAhead := by
  refine .lookahead (.bind .consume fun _ => .loop (fun _ => .bind (made_peekKind 0) fun _ =>
    .ite (.bind .consume fun _ => .bind (made_peekKind 0) fun next => ?_) (.pure _)) ())
  split
  · exact .bind .consume fun _ => .pure _
  · exact .pure _
  · exact .pure _

theorem made_loopNames : Made loopNames :=
  .loop (fun _ => .bind .consume fun _ => .ite_check (.bind .consume fun _ => .pure _) (.pure _)) []

theorem made_forIn (hg : g.Made) (settings : HandlerSettings) : Made (forIn g settings) := by
  refine .bind made_forInAhead fun _ => .ite ?_ (.pure _)
  refine .bind .consume fun _ => .bind made_loopNames fun _ => .bind (made_expect _) fun _ =>
    .bind (made_check _) fun _ => .ite (.bind (.peek 0) fun _ => .throw rfl) ?_
  exact .bind hg.expression fun _ => .bind (.inLoop (made_body hg)) fun _ => .pure _

theorem made_numericForAhead : Made numericForAhead :=
  .bind (made_peekKind 1) fun _ => .ite (.bind (made_peekKind 2) fun _ => .pure _) (.pure _)

theorem made_stepClause (hg : g.Made) : Made (stepClause g) :=
  .ite_check (.bind .consume fun _ => .bind hg.expression fun _ => .pure _) (.pure _)

theorem made_numericFor (hg : g.Made) : Made (numericFor g) :=
  .bind made_numericForAhead fun _ => .ite (.bind .consume fun _ => .bind .consume fun _ =>
    .bind (made_expect _) fun _ => .bind hg.expression fun _ => .bind (made_expect _) fun _ =>
    .bind hg.expression fun _ => .bind (made_stepClause hg) fun _ =>
    .bind (.inLoop (made_body hg)) fun _ => .pure _) (.pure _)

theorem made_whileLoop (hg : g.Made) : Made (whileLoop g) :=
  .bind (made_expect _) fun _ => .bind hg.expression fun _ =>
    .bind (.inLoop (made_body hg)) fun _ => .pure _

theorem made_matchArm (hg : g.Made) : Made (matchArm g) := by
  refine .bind hg.pattern fun _ => .bind made_skipNewlines fun _ => .bind (made_expect _) fun _ =>
    .bind made_skipNewlines fun _ => .ite_check ?_ ?_
  · exact .bind (made_block hg) fun _ => .bind (.pure _) fun _ => .pure _
  · exact .bind (.withTerminators true hg.statement) fun _ => .pure _

theorem made_matchArms (hg : g.Made) : Made (matchArms g) := by
  refine .bind made_skipNewlines fun _ => .loop (fun acc => .bind (made_unlessClosed _) fun _ =>
    .ite (.bind (made_matchArm hg) fun arm => .bind (made_check _) fun comma => ?_) (.pure _)) []
  have hrest : Made (skipNewlines >>= fun newlines =>
      if (comma || decide (0 < newlines)) = true then pure (Sum.inl (acc ++ [arm]))
      else check .rightBrace >>= fun closed =>
        if closed = true then pure (Sum.inl (acc ++ [arm]))
        else unexpected "',' or newline between match arms" :
      Parse (List MatchArm ⊕ List MatchArm)) :=
    .bind made_skipNewlines fun _ => .ite (.pure _) (.ite_check (.pure _) (made_unexpected _))
  exact .ite (.bind .consume fun _ => hrest) hrest

theorem made_select (hg : g.Made) : Made (select g) :=
  .bind (made_expect _) fun _ => .bind hg.expression fun _ => .bind made_skipNewlines fun _ =>
    .bind (made_expect _) fun _ => .bind (made_matchArms hg) fun _ =>
    .bind (made_expectClosing _ _) fun _ => .pure _

/-! ### Guest code -/

theorem made_capturesThenBrace : Made capturesThenBrace := by
  refine .lookahead (.bind .consume fun _ => .ite_check (.bind .consume fun _ => .bind ?_ fun _ =>
    .ite_check (.bind .consume fun _ => made_check _) (.pure _)) (made_check _))
  exact .loop (fun _ => .bind (made_peekKind 0) fun _ => .ite (.bind .consume fun _ => .pure _)
    (.pure _)) ()

theorem made_captures : Made captures := by
  refine .ite_check (.bind .consume fun _ => .bind (.loop (fun acc => ?_) []) fun _ =>
    .bind (made_expectClosing _ _) fun _ => .pure _) (.pure _)
  exact .ite_check (.bind .consume fun _ => .ite_check (.bind .consume fun _ => .pure _) (.pure _))
    (.pure _)

theorem made_codeBlockAhead : Made codeBlockAhead := by
  refine .bind (.peek 0) fun head => .bind (made_peekKind 1) fun next =>
    .bind made_languages fun table => ?_
  dsimp only
  split
  · exact .ite (.pure _) (.ite (.pure _) (.ite (.throw rfl) (.pure _)))
  · exact .ite made_capturesThenBrace (.pure _)
  · exact .pure _

theorem made_codeBlock : Made codeBlock := by
  refine .bind made_codeBlockAhead fun _ => .ite (.bind (.peek 0) fun head =>
    .bind made_languages fun table => ?_) (.pure _)
  cases h : table.resolveAt head.text head.position with
  | error e => exact .throw (isOutsideLoop_resolveAt h)
  | ok language =>
      refine .bind .consume fun _ => .bind made_captures fun _ =>
          .bind (made_expect _) fun opening =>
        .bind .read fun env => ?_
      dsimp only
      split
      · exact .throw rfl
      · exact .bind (.resumeAt _) fun _ => .pure _

/-! ### Assignments and calls -/

theorem made_assignmentAhead : Made assignmentAhead := by
  refine .bind .get fun s => .lookahead (.loop (fun depth => .bind (made_peekKind 0) fun kind =>
      ?_) 0)
  split
  · exact .pure _
  · exact .pure _
  · exact .bind .consume fun _ => .pure _

theorem made_assignment (hg : g.Made) : Made (assignment g) :=
  .bind made_assignmentAhead fun _ => .ite (.bind (made_operand hg) fun _ =>
    .ite (.bind (made_expect _) fun _ => .bind made_skipNewlines fun _ =>
      .bind (made_pipeExpression hg) fun _ => .pure _) (.throw rfl)) (.pure _)

theorem made_nameThen (test : Kind → Bool) : Made (nameThen test) :=
  .bind (made_peekKind 0) fun _ => .ite (.bind (made_peekKind 1) fun _ => .pure _) (.pure _)

theorem made_languageCall (hg : g.Made) : Made (languageCall g) :=
  .bind (made_nameThen _) fun _ => .ite (.bind made_chainEndsInCall fun _ =>
    .ite (.bind (.peek 0) fun _ => .bind (made_pipeExpression hg) fun _ =>
      .bind made_backgroundMarker fun _ => .pure _) (.pure _)) (.pure _)

theorem made_fieldAccess (hg : g.Made) : Made (fieldAccess g) :=
  .bind (made_nameThen _) fun _ => .ite (.bind hg.expression fun _ => .pure _) (.pure _)

theorem made_expressionStatement (hg : g.Made) : Made (expressionStatement g) :=
  .bind (made_pipeExpression hg) fun _ => .ite (.bind made_backgroundMarker fun _ => .pure _)
    (.pure _)

theorem made_builtinCall (hg : g.Made) : Made (builtinCall g) :=
  .ite_check (.bind (made_peekKind 1) fun _ =>
    .ite (.bind (made_expressionStatement hg) fun _ => .pure _) (.pure _)) (.pure _)

/-! ### Dispatching -/

theorem made_certainly {p : Parse Statement} (h : Made p) : Made (Handler.certainly p) :=
  .bind h fun _ => .pure _

/-- The rules of all handlers are put together from the operations, so what holds along these
    holds for every handler. -/
theorem made_rule (hg : g.Made) (settings : HandlerSettings) : Made (Handler.rule settings g) := by
  unfold Handler.rule
  cases settings.construct with
  | conditional => exact made_certainly (made_conditional hg)
  | select => exact made_certainly (made_select hg)
  | forIn => exact made_forIn hg settings
  | numericFor => exact made_numericFor hg
  | whileLoop => exact made_certainly (made_whileLoop hg)
  | breakLoop | continueLoop => exact made_certainly .loopControl
  | block => exact made_certainly (.bind (made_block hg) fun _ => .pure _)
  | codeBlock => exact made_codeBlock
  | assignment => exact made_assignment hg
  | languageCall => exact made_languageCall hg
  | fieldAccess => exact made_fieldAccess hg
  | builtinCall => exact made_builtinCall hg
  | expression => exact made_certainly (made_expressionStatement hg)

theorem made_builtin (hg : g.Made) (settings : HandlerSettings) :
    Made ((Handler.builtin settings).parse g) := by
  unfold Handler.builtin
  dsimp only
  split
  · exact .ite_check (made_rule hg settings) (.pure _)
  · exact made_rule hg settings

/-- A list of built-in handlers, tried in turn, is put together from the operations. Each one
    starts over from the same cursor. -/
theorem made_tryHandlers (hg : g.Made) (first : Token) (start : Nat) {handlers : List Handler}
    (hbuiltin : ∀ h ∈ handlers, ∃ settings, h = Handler.builtin settings) :
    Made (tryHandlers g first start handlers) := by
  induction handlers with
  | nil => exact .throw rfl
  | cons handler rest ih =>
      rcases hbuiltin handler List.mem_cons_self with ⟨settings, rfl⟩
      refine .bind (.nested (made_builtin hg settings)) fun answer => ?_
      cases answer with
      | some statement =>
          refine .bind .get fun s => .ite (.bind (.bind (.peek 0) fun _ => ?_) fun _ => .pure _)
            (.pure _)
          exact .ite (.pure _) (.throw rfl)
      | none =>
          exact .bind (.setCursor _) fun _ => ih fun h hmem =>
              hbuiltin h (List.mem_cons_of_mem _ hmem)

theorem made_dispatch {registry : Registry} (hbuiltin : registry.IsBuiltin) (hg : g.Made) :
    Made (dispatch registry g) := by
  refine .bind (.bind .get fun _ => .pure _) fun start => .bind (.window _) fun pending => ?_
  cases pending with
  | nil => exact made_unexpected _
  | cons first rest =>
      exact made_tryHandlers hg first start fun h hmem => isBuiltin_asked hbuiltin hmem

theorem made_program (hg : g.Made) : Made (program g) :=
  .bind (made_statements hg (.bind (made_peekKind 0) fun _ => .pure _)) fun _ => .pure _

end Parse

/-- Every level of the grammar is put together in this way. -/
theorem Grammar.made_level {registry : Registry} (hbuiltin : registry.IsBuiltin) (n : Nat) :
    (Grammar.level registry n).Made := by
  induction n with
  | zero => exact ⟨Parse.made_exhausted, Parse.made_exhausted, Parse.made_exhausted,
      Parse.made_exhausted, Parse.made_exhausted⟩
  | succ n ih => exact ⟨Parse.made_expression ih, Parse.made_operand ih, Parse.made_pattern ih,
      Parse.made_dispatch hbuiltin ih, Parse.made_conditional ih⟩

end PolyScript
