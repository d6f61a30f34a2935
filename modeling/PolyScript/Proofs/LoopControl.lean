import PolyScript.Proofs.Moments

/-!
# Loop Control

Where `break` and `continue` may stand. A parse accepts them only while a loop body
is open, and it counts the open bodies in its state. `Statement.controls` reads the
same off a finished tree: it lists the loop control words of a statement, each with
the answer to whether it stands in the body of a loop. The count and the answers
agree, so in a program that was accepted every answer is yes.

The invariant is the count. Every parser puts it back (`Parse.Made.kept`), only a
loop raises it, and only for its body; so the rules that contain statements see
their parts under the count that the position of those parts calls for. The other
direction needs no look at trees: a parser that is run while a loop is open cannot
come to the one place that raises the error.

## Main definitions

* `Statement.controls`, `Program.controls`: Loop control words, and whether each
  stands in the body of a loop.
* `Parse.Delivers`: What a parser yields under a count of open loops.

## Theorems

* `Statement.enclosed_true`: In the body of a loop everything is enclosed.
* `Parse.Made.isOutsideLoop_eq_false`: No such error while a loop is open.
* `Parse.delivers_level`: What the grammar yields is enclosed.
* `loop_control_enclosed`: Accepted programs, and parses inside of loops.
-/

namespace PolyScript

/-! ### Loop control words of a tree -/

mutual

/-- The loop control words of a statement, each with whether it stands in the body of
    a loop. The first argument says so for the statement itself. -/
def Statement.controls (inLoop : Bool) : Statement → List (Token × Bool)
  | .breakLoop token | .continueLoop token => [(token, inLoop)]
  | .conditional _ onTrue onFalse _ => onTrue.controls inLoop ++ elseControls inLoop onFalse
  | .forIn _ _ body _ | .numericFor _ _ _ _ body _ | .whileLoop _ body _ => body.controls true
  | .block body => body.controls inLoop
  | .select _ arms _ => armControls inLoop arms
  | .assignment .. | .expression .. | .codeBlock .. | .languageCall .. => []

/-- The loop control words of a block. -/
def Block.controls (inLoop : Bool) : Block → List (Token × Bool)
  | .mk statements _ => statementControls inLoop statements

/-- The loop control words of the else block of a conditional. -/
def elseControls (inLoop : Bool) : Option Block → List (Token × Bool)
  | none => []
  | some body => body.controls inLoop

/-- The loop control words of a list of statements. -/
def statementControls (inLoop : Bool) : List Statement → List (Token × Bool)
  | [] => []
  | s :: rest => s.controls inLoop ++ statementControls inLoop rest

/-- The loop control words of the arms of a match statement. -/
def armControls (inLoop : Bool) : List MatchArm → List (Token × Bool)
  | [] => []
  | .mk _ body _ :: rest => body.controls inLoop ++ armControls inLoop rest

end

/-- The loop control words of a program. -/
def Program.controls (program : Program) : List (Token × Bool) :=
  statementControls false program.statements

/-- Every word of a list stands in the body of a loop. -/
def Enclosed (controls : List (Token × Bool)) : Prop := ∀ c ∈ controls, c.2 = true

theorem enclosed_nil : Enclosed [] := fun _ h => absurd h List.not_mem_nil

theorem enclosed_append {xs ys : List (Token × Bool)} :
    Enclosed (xs ++ ys) ↔ Enclosed xs ∧ Enclosed ys := List.forall_mem_append

theorem statementControls_append (inLoop : Bool) (ss ts : List Statement) :
    statementControls inLoop (ss ++ ts) =
      statementControls inLoop ss ++ statementControls inLoop ts := by
  induction ss with
  | nil => rfl
  | cons s ss ih => simp [statementControls, ih]

theorem armControls_append (inLoop : Bool) (xs ys : List MatchArm) :
    armControls inLoop (xs ++ ys) = armControls inLoop xs ++ armControls inLoop ys := by
  induction xs with
  | nil => rfl
  | cons x xs ih => cases x; simp [armControls, ih]

mutual

/-- In the body of a loop everything is enclosed. -/
theorem Statement.enclosed_true : (s : Statement) → Enclosed (s.controls true)
  | .breakLoop _ | .continueLoop _ => List.forall_mem_singleton.2 rfl
  | .conditional _ onTrue onFalse _ =>
    enclosed_append.2 ⟨onTrue.enclosed_true, elseControls_enclosed_true onFalse⟩
  | .forIn _ _ body _ | .numericFor _ _ _ _ body _ | .whileLoop _ body _ | .block body =>
    body.enclosed_true
  | .select _ arms _ => armControls_enclosed_true arms
  | .assignment .. | .expression .. | .codeBlock .. | .languageCall .. => enclosed_nil

theorem Block.enclosed_true : (b : Block) → Enclosed (b.controls true)
  | .mk statements _ => statementControls_enclosed_true statements

theorem elseControls_enclosed_true : (b : Option Block) → Enclosed (elseControls true b)
  | none => enclosed_nil
  | some body => body.enclosed_true

theorem statementControls_enclosed_true :
    (ss : List Statement) → Enclosed (statementControls true ss)
  | [] => enclosed_nil
  | s :: rest => enclosed_append.2 ⟨s.enclosed_true, statementControls_enclosed_true rest⟩

theorem armControls_enclosed_true : (arms : List MatchArm) → Enclosed (armControls true arms)
  | [] => enclosed_nil
  | .mk _ body _ :: rest => enclosed_append.2 ⟨body.enclosed_true, armControls_enclosed_true rest⟩

end

namespace Parse

/-! ### While a loop is open -/

/-- No parser raises the error of loop control while a loop is open. The error comes from one
    operation, which checks the number of open loops, and that number never falls below what it
    was at the start. -/
theorem Made.isOutsideLoop_eq_false {α : Type} {p : Parse α} (h : Made p) {env : Env}
    {s t : State} {e : ParseError} (hloop : 0 < s.loopDepth) (hrun : p env s = .error e t) :
    e.isOutsideLoop = false := by
  induction h generalizing s t with
  | pure => cases hrun
  | @bind α β p f hp _ ihp ihf =>
      -- the first parser leaves the number of open loops as it was
      rw [bind_run] at hrun
      cases hfirst : p env s with
      | ok a u =>
          rw [hfirst] at hrun
          exact ihf a (by rw [(hp.kept_ok hfirst).loopDepth]; exact hloop) hrun
      | error e u =>
          rw [hfirst] at hrun
          cases hrun
          exact ihp hloop hfirst
  | throw he =>
      cases hrun
      exact he
  | read => cases hrun
  | get => cases hrun
  | peek => cases hrun
  | consume => cases hrun
  | window count =>
      rcases window_run count s with ⟨_, _, _, hok⟩
      rw [hok env] at hrun
      cases hrun
  | setCursor => cases hrun
  | resumeAt => cases hrun
  | nested _ ih =>
      rcases error_of_nested hrun with ⟨rfl, -⟩ | ⟨u, hinner, -⟩
      · rfl
      · exact ih (s := s.filled.atDepth (s.depth + 1)) hloop hinner
  | inLoop _ ih =>
      rcases error_of_around hrun with ⟨u, hinner, -⟩
      exact ih (Nat.succ_pos _) hinner
  | withTerminators isRelaxed _ ih =>
      rw [withTerminators_run] at hrun
      rcases error_of_around hrun with ⟨u, hinner, -⟩
      exact ih (s := { s with isRelaxed }) hloop hinner
  | inSizeMode _ ih =>
      rcases error_of_around hrun with ⟨u, hinner, -⟩
      exact ih (s := switchSizeMode true s) hloop hinner
  | loopControl =>
      rw [loopControl_run, if_neg (Nat.pos_iff_ne_zero.1 hloop)] at hrun
      cases hrun

/-! ### What parsers yield -/

/-- What a parser yields while a number of loops is open has a property, and the
    number is the same afterwards. -/
def Delivers {α : Type} (loops : Nat) (Q : α → Prop) (p : Parse α) : Prop :=
  ∀ (env : Env) (s t : State) (a : α), s.loopDepth = loops → p env s = .ok a t →
    t.loopDepth = loops ∧ Q a

namespace Delivers

variable {α β : Type} {loops : Nat} {Q : α → Prop}

theorem imp {R : α → Prop} {p : Parse α} (h : Delivers loops R p) (hQ : ∀ a, R a → Q a) :
    Delivers loops Q p := fun env s t a hs hrun =>
  ⟨(h env s t a hs hrun).1, hQ a (h env s t a hs hrun).2⟩

theorem of_made {p : Parse α} (h : Made p) : Delivers loops (fun _ => True) p :=
  fun _ _ _ _ hs hrun => ⟨(h.kept_ok hrun).loopDepth.trans hs, trivial⟩

theorem pure {a : α} (h : Q a) : Delivers loops Q (Pure.pure a) := by
  intro env s t b hs hrun
  cases hrun
  exact ⟨hs, h⟩

theorem throw (e : ParseError) : Delivers loops Q (MonadExcept.throw e) := by
  intro env s t a _ hrun
  cases hrun

/-- Two parsers in a row, where the second one relies on what the first one delivers. -/
theorem bind {R : β → Prop} {p : Parse β} {f : β → Parse α} (hp : Delivers loops R p)
    (hf : ∀ b, R b → Delivers loops Q (f b)) : Delivers loops Q (p >>= f) := by
  intro env s t a hs hrun
  rw [bind_run] at hrun
  cases hfirst : p env s with
  | ok b u =>
      rw [hfirst] at hrun
      rcases hp env s u b hs hfirst with ⟨hu, hR⟩
      exact hf b hR env u t a hu hrun
  | error e u =>
      rw [hfirst] at hrun
      cases hrun

/-- A part whose value does not matter. -/
theorem after {p : Parse β} {f : β → Parse α} (hp : Made p)
    (hf : ∀ b, Delivers loops Q (f b)) : Delivers loops Q (p >>= f) :=
  (of_made hp).bind fun b _ => hf b

theorem ite {c : Prop} [Decidable c] {p q : Parse α} (hp : Delivers loops Q p)
    (hq : Delivers loops Q q) : Delivers loops Q (if c then p else q) := by
  split
  · exact hp
  · exact hq

theorem ite_check {kind : Kind} {p q : Parse α} (hp : Delivers loops Q p)
    (hq : Delivers loops Q q) :
    Delivers loops Q (check kind >>= fun c => if c = true then p else q) :=
  after (made_check kind) fun _ => .ite hp hq

theorem unexpected (expected : String) : Delivers loops Q (unexpected expected : Parse α) :=
  after (.peek 0) fun _ => .throw _

theorem exhausted : Delivers loops Q (exhausted : Parse α) :=
  after (.peek 0) fun _ => after .read fun _ => .throw _

theorem loop {I : β → Prop} {start : β} {step : β → Parse (β ⊕ α)} (hstart : I start)
    (hstep : ∀ b, I b → Delivers loops (Sum.elim I Q) (step b)) :
    Delivers loops Q (loop start step) := by
  have hrounds : ∀ n b, I b → Delivers loops Q (iterate step n b) := by
    intro n
    induction n with
    | zero => exact fun _ _ => exhausted
    | succ n ih =>
        intro b hb
        refine (hstep b hb).bind fun result hresult => ?_
        cases result with
        | inl next => exact ih next hresult
        | inr a => exact .pure hresult
  exact after .read fun _ => hrounds _ start hstart

theorem nested {p : Parse α} (h : Delivers loops Q p) : Delivers loops Q (nested p) := by
  intro env s t a hs hrun
  rcases ok_of_nested hrun with ⟨-, u, hinner, rfl⟩
  exact h env (s.filled.atDepth (s.depth + 1)) u a hs hinner

theorem inLoop {p : Parse α} (h : Delivers (loops + 1) Q p) : Delivers loops Q (inLoop p) := by
  intro env s t a hs hrun
  rcases ok_of_around hrun with ⟨u, hinner, rfl⟩
  have hbody := h env _ u a (congrArg (· + 1) hs) hinner
  exact ⟨by simp only [hbody.1]; omega, hbody.2⟩

theorem withTerminators {p : Parse α} (h : Delivers loops Q p) (isRelaxed : Bool) :
    Delivers loops Q (withTerminators isRelaxed p) := by
  intro env s t a hs hrun
  rw [withTerminators_run] at hrun
  rcases ok_of_around hrun with ⟨u, hinner, rfl⟩
  exact h env { s with isRelaxed } u a hs hinner

end Delivers

/-! ### Statements -/

/-- A statement is enclosed as far as no loop is open around it. -/
def StatementEnclosed (loops : Nat) (s : Statement) : Prop :=
  Enclosed (s.controls (decide (0 < loops)))

/-- A block is enclosed as far as no loop is open around it. -/
def BlockEnclosed (loops : Nat) (b : Block) : Prop := Enclosed (b.controls (decide (0 < loops)))

/-- The answer of a rule that may decline is enclosed. -/
def AnswerEnclosed (loops : Nat) (answer : Option Statement) : Prop :=
  ∀ s, answer = some s → StatementEnclosed loops s

theorem answerEnclosed_some {loops : Nat} {s : Statement} (h : StatementEnclosed loops s) :
    AnswerEnclosed loops (some s) := by
  rintro _ ⟨⟩
  exact h

theorem answerEnclosed_none {loops : Nat} : AnswerEnclosed loops none := by
  rintro _ ⟨⟩

/-- The statements that a grammar yields are enclosed. -/
structure GrammarDelivers (g : Grammar) : Prop where
  made : g.Made
  statement : ∀ loops, Delivers loops (StatementEnclosed loops) g.statement
  conditional : ∀ loops, Delivers loops (StatementEnclosed loops) g.conditional

variable {g : Grammar} {loops : Nat}

theorem delivers_statements (hg : GrammarDelivers g) {more : Parse Bool} (hmore : Made more) :
    Delivers loops (fun ss => Enclosed (statementControls (decide (0 < loops)) ss))
      (statements g more) := by
  refine .after made_skipSeparators fun _ => .loop enclosed_nil fun acc hacc =>
    .after hmore fun _ => .ite ?_ (.pure hacc)
  refine (hg.statement loops).bind fun next hnext => .after made_skipSeparators fun _ => .pure ?_
  change Enclosed (statementControls _ (acc ++ [next]))
  rw [statementControls_append]
  exact enclosed_append.2 ⟨hacc, enclosed_append.2 ⟨hnext, enclosed_nil⟩⟩

theorem delivers_block (hg : GrammarDelivers g) :
    Delivers loops (BlockEnclosed loops) (block g) := by
  refine .after (made_expect _) fun opening => Delivers.withTerminators ?_ false
  exact (delivers_statements hg (made_unlessClosed _)).bind fun body hbody =>
    .after (made_expectClosing _ _) fun _ => .pure hbody

theorem delivers_body (hg : GrammarDelivers g) : Delivers loops (BlockEnclosed loops) (body g) := by
  refine .ite_check (.after .consume fun _ => .after made_skipNewlines fun _ => ?_)
    (.after made_skipNewlines fun _ => delivers_block hg)
  exact ((hg.statement loops).withTerminators true).bind fun s hs =>
    .pure (enclosed_append.2 ⟨hs, enclosed_nil⟩)

theorem delivers_otherwise (hg : GrammarDelivers g) :
    Delivers loops (fun b => Enclosed (elseControls (decide (0 < loops)) b)) (otherwise g) := by
  refine .after (made_nextAfterNewlinesIs _) fun _ => .ite ?_ (.pure enclosed_nil)
  refine .after made_skipNewlines fun _ => .after .consume fun _ => .ite_check ?_ ?_
  · exact (hg.conditional loops).nested.bind fun s hs =>
        .pure (enclosed_append.2 ⟨hs, enclosed_nil⟩)
  · exact (delivers_body hg).bind fun _ hbody => .pure hbody

theorem delivers_conditional (hg : GrammarDelivers g) :
    Delivers loops (StatementEnclosed loops) (conditional g) :=
  .after (made_expect _) fun _ => .after hg.made.expression fun _ =>
    (delivers_body hg).bind fun _ htrue => (delivers_otherwise hg).bind fun _ hfalse =>
    .pure (enclosed_append.2 ⟨htrue, hfalse⟩)

/-- The body of a loop is enclosed whatever it is. -/
theorem delivers_loopBody (hg : GrammarDelivers g) :
    Delivers loops (fun b : Block => Enclosed (b.controls true)) (inLoop (body g)) :=
  .inLoop ((delivers_body hg).imp fun b _ => b.enclosed_true)

theorem delivers_forIn (hg : GrammarDelivers g) (settings : HandlerSettings) :
    Delivers loops (AnswerEnclosed loops) (forIn g settings) := by
  refine .after made_forInAhead fun _ => .ite ?_ (.pure answerEnclosed_none)
  refine .after .consume fun _ => .after made_loopNames fun _ => .after (made_expect _) fun _ =>
    .after (made_check _) fun _ => .ite (.after (.peek 0) fun _ => .throw _) ?_
  exact .after hg.made.expression fun _ => (delivers_loopBody hg).bind fun _ hbody =>
    .pure (answerEnclosed_some hbody)

theorem delivers_numericFor (hg : GrammarDelivers g) :
    Delivers loops (AnswerEnclosed loops) (numericFor g) := by
  refine .after made_numericForAhead fun _ => .ite ?_ (.pure answerEnclosed_none)
  refine .after .consume fun _ => .after .consume fun _ => .after (made_expect _) fun _ =>
    .after hg.made.expression fun _ => .after (made_expect _) fun _ =>
    .after hg.made.expression fun _ => .after (made_stepClause hg.made) fun _ => ?_
  exact (delivers_loopBody hg).bind fun _ hbody => .pure (answerEnclosed_some hbody)

theorem delivers_whileLoop (hg : GrammarDelivers g) :
    Delivers loops (StatementEnclosed loops) (whileLoop g) :=
  .after (made_expect _) fun _ => .after hg.made.expression fun _ =>
    (delivers_loopBody hg).bind fun _ hbody => .pure hbody

/-- A loop control word is accepted only while a loop is open. -/
theorem delivers_loopControl : Delivers loops (StatementEnclosed loops) loopControl := by
  intro env s t a hs hrun
  rw [loopControl_run] at hrun
  split at hrun
  · cases hrun
  · rename_i hloop
    rw [hs] at hloop
    have henclosed : decide (0 < loops) = true := decide_eq_true (Nat.pos_of_ne_zero hloop)
    cases hrun
    refine ⟨hs, ?_⟩
    unfold StatementEnclosed
    rw [henclosed]
    exact Statement.enclosed_true _

theorem delivers_matchArm (hg : GrammarDelivers g) :
    Delivers loops (fun arm => Enclosed (armControls (decide (0 < loops)) [arm])) (matchArm g) := by
  refine .after hg.made.pattern fun _ => .after made_skipNewlines fun _ =>
    .after (made_expect _) fun _ => .after made_skipNewlines fun _ => .ite_check ?_ ?_
  · exact (delivers_block hg).bind fun b hb => Delivers.bind (R := StatementEnclosed loops)
      (.pure hb) fun _ hbody => .pure (enclosed_append.2 ⟨hbody, enclosed_nil⟩)
  · exact ((hg.statement loops).withTerminators true).bind fun _ hbody =>
      .pure (enclosed_append.2 ⟨hbody, enclosed_nil⟩)

/-- The arms of a match have their loop controls in loops, if the statements and expressions of
    the grammar do. -/
theorem delivers_matchArms (hg : GrammarDelivers g) :
    Delivers loops (fun arms =>
        Enclosed (armControls (decide (0 < loops)) arms)) (matchArms g) := by
  refine .after made_skipNewlines fun _ => .loop enclosed_nil fun acc hacc =>
    .after (made_unlessClosed _) fun _ => .ite ?_ (.pure hacc)
  refine (delivers_matchArm hg).bind fun arm harm => .after (made_check _) fun comma => ?_
  have hnext : Enclosed (armControls (decide (0 < loops)) (acc ++ [arm])) := by
    rw [armControls_append]
    exact enclosed_append.2 ⟨hacc, harm⟩
  -- What follows an arm is the same with a comma and without.
  have hrest : Delivers loops (Sum.elim (fun arms =>
      Enclosed (armControls (decide (0 < loops)) arms))
      fun arms => Enclosed (armControls (decide (0 < loops)) arms))
          (skipNewlines >>= fun newlines =>
      if (comma || decide (0 < newlines)) = true then pure (Sum.inl (acc ++ [arm]))
      else check .rightBrace >>= fun closed =>
        if closed = true then pure (Sum.inl (acc ++ [arm]))
        else unexpected "',' or newline between match arms" :
      Parse (List MatchArm ⊕ List MatchArm)) :=
    .after made_skipNewlines fun _ => .ite (.pure hnext) (.ite_check (.pure hnext) (.unexpected _))
  exact .ite (.after .consume fun _ => hrest) hrest

theorem delivers_select (hg : GrammarDelivers g) :
    Delivers loops (StatementEnclosed loops) (select g) :=
  .after (made_expect _) fun _ => .after hg.made.expression fun _ =>
    .after made_skipNewlines fun _ => .after (made_expect _) fun _ =>
    (delivers_matchArms hg).bind fun _ harms => .after (made_expectClosing _ _) fun _ => .pure harms

/-- A code block holds guest code, and so no loop control of the language. -/
theorem delivers_codeBlock : Delivers loops (AnswerEnclosed loops) codeBlock := by
  refine .after made_codeBlockAhead fun _ => .ite (.after (.peek 0) fun head =>
    .after made_languages fun table => ?_) (.pure answerEnclosed_none)
  split
  · exact .throw _
  · refine .after .consume fun _ => .after made_captures fun _ => .after (made_expect _) fun _ =>
      .after .read fun env => ?_
    dsimp only
    split
    · exact .throw _
    · exact .after (.resumeAt _) fun _ => .pure (answerEnclosed_some enclosed_nil)

theorem delivers_assignment (hg : g.Made) : Delivers loops (AnswerEnclosed loops) (assignment g) :=
  .after made_assignmentAhead fun _ => .ite (.after (made_operand hg) fun _ =>
    .ite (.after (made_expect _) fun _ => .after made_skipNewlines fun _ =>
      .after (made_pipeExpression hg) fun _ => .pure (answerEnclosed_some enclosed_nil))
      (.throw _)) (.pure answerEnclosed_none)

theorem delivers_languageCall (hg : g.Made) :
    Delivers loops (AnswerEnclosed loops) (languageCall g) :=
  .after (made_nameThen _) fun _ => .ite (.after made_chainEndsInCall fun _ =>
    .ite (.after (.peek 0) fun _ => .after (made_pipeExpression hg) fun _ =>
      .after made_backgroundMarker fun _ => .pure (answerEnclosed_some enclosed_nil))
      (.pure answerEnclosed_none)) (.pure answerEnclosed_none)

theorem delivers_fieldAccess (hg : g.Made) :
    Delivers loops (AnswerEnclosed loops) (fieldAccess g) :=
  .after (made_nameThen _) fun _ => .ite (.after hg.expression fun _ =>
    .pure (answerEnclosed_some enclosed_nil)) (.pure answerEnclosed_none)

theorem delivers_expressionStatement (hg : g.Made) :
    Delivers loops (StatementEnclosed loops) (expressionStatement g) :=
  .after (made_pipeExpression hg) fun _ => .ite (.after made_backgroundMarker fun _ =>
    .pure enclosed_nil) (.pure enclosed_nil)

theorem delivers_certainly {p : Parse Statement} (h : Delivers loops (StatementEnclosed loops) p) :
    Delivers loops (AnswerEnclosed loops) (Handler.certainly p) :=
  h.bind fun _ hs => .pure (answerEnclosed_some hs)

theorem delivers_builtinCall (hg : g.Made) :
    Delivers loops (AnswerEnclosed loops) (builtinCall g) :=
  .ite_check (.after (made_peekKind 1) fun _ =>
    .ite (delivers_certainly (delivers_expressionStatement hg)) (.pure answerEnclosed_none))
    (.pure answerEnclosed_none)

/-- The rules of all handlers keep loop controls in loops. Only the rule for `break` and
    `continue` makes one, and it checks the loop depth first. -/
theorem delivers_rule (hg : GrammarDelivers g) (settings : HandlerSettings) :
    Delivers loops (AnswerEnclosed loops) (Handler.rule settings g) := by
  unfold Handler.rule
  cases settings.construct with
  | conditional => exact delivers_certainly (delivers_conditional hg)
  | select => exact delivers_certainly (delivers_select hg)
  | forIn => exact delivers_forIn hg settings
  | numericFor => exact delivers_numericFor hg
  | whileLoop => exact delivers_certainly (delivers_whileLoop hg)
  | breakLoop | continueLoop => exact delivers_certainly delivers_loopControl
  | block => exact delivers_certainly ((delivers_block hg).bind fun _ hb => .pure hb)
  | codeBlock => exact delivers_codeBlock
  | assignment => exact delivers_assignment hg.made
  | languageCall => exact delivers_languageCall hg.made
  | fieldAccess => exact delivers_fieldAccess hg.made
  | builtinCall => exact delivers_builtinCall hg.made
  | expression => exact delivers_certainly (delivers_expressionStatement hg.made)

theorem delivers_builtin (hg : GrammarDelivers g) (settings : HandlerSettings) :
    Delivers loops (AnswerEnclosed loops) ((Handler.builtin settings).parse g) := by
  unfold Handler.builtin
  dsimp only
  split
  · exact .ite_check (delivers_rule hg settings) (.pure answerEnclosed_none)
  · exact delivers_rule hg settings

/-- Whichever of the handlers answers, the statement has its loop controls in loops, since those
    that declined have left the loop depth alone. -/
theorem delivers_tryHandlers (hg : GrammarDelivers g) (first : Token) (start : Nat)
    {handlers : List Handler}
        (hbuiltin : ∀ h ∈ handlers, ∃ settings, h = Handler.builtin settings) :
    Delivers loops (StatementEnclosed loops) (tryHandlers g first start handlers) := by
  induction handlers with
  | nil => exact .throw _
  | cons handler rest ih =>
      rcases hbuiltin handler List.mem_cons_self with ⟨settings, rfl⟩
      refine (delivers_builtin hg settings).nested.bind fun answer hanswer => ?_
      cases answer with
      | some statement =>
          have hs := hanswer statement rfl
          exact .after .get fun _ => .ite (.after (.bind (.peek 0) fun _ =>
            .ite (.pure _) (.throw rfl)) fun _ => .pure hs) (.pure hs)
      | none =>
          exact .after (.setCursor _) fun _ => ih fun h hmem =>
            hbuiltin h (List.mem_cons_of_mem _ hmem)

theorem delivers_dispatch {registry : Registry} (hbuiltin : registry.IsBuiltin)
    (hg : GrammarDelivers g) : Delivers loops (StatementEnclosed loops) (dispatch registry g) := by
  refine .after (.bind .get fun _ => .pure _) fun start => .after (.window _) fun pending => ?_
  cases pending with
  | nil => exact .unexpected _
  | cons first rest =>
      exact delivers_tryHandlers hg first start fun h hmem => isBuiltin_asked hbuiltin hmem

/-- Every level of the grammar yields enclosed statements. -/
theorem delivers_level {registry : Registry} (hbuiltin : registry.IsBuiltin) (n : Nat) :
    GrammarDelivers (Grammar.level registry n) := by
  induction n with
  | zero => exact ⟨Grammar.made_level hbuiltin 0, fun _ => .exhausted, fun _ => .exhausted⟩
  | succ n ih =>
      exact ⟨Grammar.made_level hbuiltin (n + 1), fun _ => delivers_dispatch hbuiltin ih,
        fun _ => delivers_conditional ih⟩

end Parse

/-- Under any settings, every `break` and every `continue` of an accepted program stands
    in the body of a loop, and no parse of a statement or of a program that begins
    while a loop is open raises the error of loop control. -/
theorem loop_control_enclosed (settings : Settings) (source : String) :
    let parser := Parser.ofSettings settings
    let env := parser.env source
    let grammar := parser.grammar source
    (∀ program, parser.parse source = .ok program →
      ∀ token inLoop, (token, inLoop) ∈ program.controls → inLoop = true) ∧
    ∀ s t : Parse.State, 0 < s.loopDepth → ∀ e : ParseError,
      (grammar.statement env s = .error e t ∨ Parse.program grammar env s = .error e t) →
        e.isOutsideLoop = false := by
  have hgrammar := Parse.delivers_level (Registry.isBuiltin_ofSettings settings)
    (4 * source.utf8ByteSize + 8)
  refine ⟨fun program hparse token inLoop hmem => ?_, fun s t hloop e herror => ?_⟩
  · rcases Parse.ok_of_run hparse with ⟨t, hrun, -⟩
    have hmore : Parse.Made Parse.hasMore := .bind (Parse.made_peekKind 0) fun _ => .pure _
    have hprogram : Parse.Delivers 0 (fun program => Enclosed program.controls)
        (Parse.program (Grammar.level (Registry.ofSettings settings)
          (4 * source.utf8ByteSize + 8))) :=
      (Parse.delivers_statements hgrammar hmore).bind fun _ hbody => .pure hbody
    exact (hprogram _ _ t program rfl hrun).2 _ hmem
  · rcases herror with herror | herror
    · exact hgrammar.made.statement.isOutsideLoop_eq_false hloop herror
    · exact (Parse.made_program hgrammar.made).isOutsideLoop_eq_false hloop herror

/-- A loop control word under a conditional in a loop is enclosed, and one that is
    read while a loop is open fails, if at all, for another reason. -/
theorem loop_control_enclosed_conditional :
    let source := "while a { if b { break } }"
    let parser := Parser.ofSettings Settings.defaults
    let env := parser.env source
    let grammar := parser.grammar source
    let inside : Parse.State := { Parse.State.initial "break b" with loopDepth := 1 }
    (∃ program, parser.parse source = .ok program ∧ program.controls ≠ [] ∧
        ∀ token inLoop, (token, inLoop) ∈ program.controls → inLoop = true) ∧
      0 < inside.loopDepth ∧
      ∃ e t, grammar.statement env inside = .error e t ∧ e.isOutsideLoop = false := by
  have hconclusion := loop_control_enclosed Settings.defaults "while a { if b { break } }"
  -- Both texts are evaluated; that the word is enclosed is the general theorem.
  refine ⟨?_, Nat.one_pos, ?_⟩
  · have haccepted : (match
        (Parser.ofSettings Settings.defaults).parse "while a { if b { break } }" with
        | .ok program => decide (program.controls ≠ [])
        | .error _ => false) = true := by decide +kernel
    split at haccepted
    · rename_i program hparse
      exact ⟨program, hparse, of_decide_eq_true haccepted, hconclusion.1 program hparse⟩
    · cases haccepted
  · have hrejected : (match ((Parser.ofSettings Settings.defaults).grammar
        "while a { if b { break } }").statement
          ((Parser.ofSettings Settings.defaults).env "while a { if b { break } }")
          { Parse.State.initial "break b" with loopDepth := 1 } with
        | .ok _ _ => false
        | .error _ _ => true) = true := by decide +kernel
    split at hrejected
    · cases hrejected
    · rename_i e t hrun
      exact ⟨e, t, hrun, hconclusion.2 _ t Nat.one_pos e (.inl hrun)⟩

end PolyScript
