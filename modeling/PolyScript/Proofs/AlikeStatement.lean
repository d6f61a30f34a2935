import PolyScript.Proofs.AlikeExpression

/-!
# The Composition of Statements

The derivations for the rules of statements and for what handlers do. Statements
stand outside of bit strings, never at a newline, and what they say about guest
code goes into the view: after a statement the view tells whether guest code has
been passed over.

## Main definitions

* `Parse.Attempted`: The outcome of a rule that may decline.

## Theorems

* `Parse.alike_statements`, `Parse.alike_body`, `Parse.alike_conditional`,
  `Parse.alike_select`: Statements that contain others.
* `Parse.alike_builtin`: What a handler of the language does.
-/

namespace PolyScript

namespace Parse

variable {P : Position → Prop} {C : Prop} {δ : Shift} {g g' : Grammar} {γ : View}
  {κ : Nat → Kind}

/-! ### Pipes -/

/-- A chain of pipes. Pipes stand between statements only, so the stage is free here, and each
    operand is an expression of its own. -/
theorem alike_pipeExpression (hg : g.Proper) (hstage : γ.stage = .free) :
    Alike P C δ g g' (γ.seeing κ) (Expr.shift δ) (pipeExpression g) (pipeExpression g')
      (Settled γ (Expr.Within P)) := by
  refine .parsing fun first κ₁ hfirst => ?_
  refine .bind (m := Prod.map (List.map (Expr.shift δ)) (List.map (Token.shift δ)))
    (R := Settled γ fun r => ExprsWithin P r.1 ∧ ∀ t ∈ r.2, P t.position)
    (.loop (m := Prod.map (List.map (Expr.shift δ)) (List.map (Token.shift δ)))
      (I := Settled γ fun r => ExprsWithin P r.1 ∧ ∀ t ∈ r.2, P t.position) rfl
      ⟨⟨exprsWithin_singleton hfirst, by simp⟩, κ₁, rfl⟩ ?_) ?_
  · rintro ⟨stages, operators⟩ _ ⟨⟨hstages, hoperators⟩, κ₂, rfl⟩
    -- A pipe may stand behind newlines, so it is looked for before they are taken.
    refine .bind (.scan (Q := fun b γ' => γ' = γ.seeing κ₂ ∧ (b = true → NextIs .pipe κ₂)) rfl
      (.newlines hstage (.inl rfl)) fun b hb => ⟨rfl, hb⟩) ?_
    rintro b _ ⟨rfl, hb⟩
    refine .ite (fun hnext => ?_) fun _ => .pure rfl ⟨⟨hstages, hoperators⟩, κ₂, rfl⟩
    refine (alike_skipTo (hb hnext) (by decide)).bind ?_
    rintro _ _ ⟨κ₃, rfl, hκ₃⟩
    -- The operator was seen, so the newlines before it can be taken without leaving the
    -- counterpart behind.
    refine .taking (.inl (by rw [hκ₃]; rfl)) fun operator _ hoperator => .skip _ (fun _ => ?_)
      fun _ κ₄ _ => .parsing fun stage κ₅ hnext =>
          .pure (by simp) ⟨⟨hstages.concat hnext, ?_⟩, κ₅, rfl⟩
    · exact StopsAtEnd.bind (fun t ht => (hg.stops t ht).expression) _
    · exact List.forall_mem_append.2 ⟨hoperators, List.forall_mem_singleton.2 hoperator⟩
  · rintro ⟨stages, operators⟩ _ ⟨⟨hstages, hoperators⟩, κ₂, rfl⟩
    change Alike P C δ g g' (γ.seeing κ₂) (Expr.shift δ)
      (if operators.isEmpty = true then pure first else pure
          (.pipe stages operators first.position))
      (if (operators.map (Token.shift δ)).isEmpty = true then pure (first.shift δ)
        else pure (.pipe (stages.map (Expr.shift δ)) (operators.map (Token.shift δ))
          (first.shift δ).position)) (Settled γ (Expr.Within P))
    rw [List.isEmpty_map]
    refine .ite (fun _ => .pure rfl ⟨hfirst, κ₂, rfl⟩) fun _ =>
      .pure (by simp [Expr.shift]) ⟨?_, κ₂, rfl⟩
    refine List.forall_mem_cons.2 ⟨hfirst.position, List.forall_mem_append.2 ⟨hstages, ?_⟩⟩
    exact List.forall_mem_map.2 hoperators

/-- The mark of a call in the background, which must be the last token of its statement. -/
theorem alike_backgroundMarker :
    Alike P C δ g g' (γ.seeing κ) id backgroundMarker backgroundMarker
      (Settled γ fun _ => True) := by
  refine .ite_check (by decide) (fun hampersand => ?_) fun _ => .pure rfl ⟨trivial, κ, rfl⟩
  rw [View.kind_seeing] at hampersand
  refine .taking (.inl (by rw [hampersand]; rfl)) fun _ _ _ => ?_
  refine .current (fun _ => .inr fun t u ht hu => ?_) fun next _ hP => ?_
  · simp [endsBackground, ht, hu]
  · refine .state (f := fun isRelaxed _ =>
        if endsBackground isRelaxed next.kind = true then pure true
        else throw (.unexpectedToken "newline or end of input after '&'" next))
      (h := fun isRelaxed _ => if endsBackground isRelaxed (next.shift δ).kind = true then pure true
        else throw (.unexpectedToken "newline or end of input after '&'" (next.shift δ)))
      ?_
    intro isRelaxed _
    refine .ite (fun _ => .pure rfl ⟨trivial, _, rfl⟩) fun hnot =>
      .throw (ParseError.ordinary_unexpectedToken (hP fun hend => hnot ?_) _)
    simp [endsBackground, hend]

/-! ### Blocks -/

/-- A test for further statements, which fails at the end of the text. -/
def TestsEnd (P : Position → Prop) (C : Prop) (δ : Shift) (g g' : Grammar) (more : Parse Bool) :
    Prop :=
  ∀ γ : View, Alike P C δ g g' γ id more more fun b γ' =>
    (γ' = γ.spent ∧ b = false) ∨ (γ' = γ ∧ γ.kind 0 ≠ .endOfInput)

theorem testsEnd_hasMore : TestsEnd P C δ g g' hasMore := by
  intro γ
  by_cases hend : γ.kind 0 = .endOfInput
  · exact .giveUp hend (.peekKind (fun _ => .inl rfl) (.pure rfl (.inl ⟨rfl, rfl⟩)))
  · exact .peekKind (fun h => absurd h hend) (.pure rfl (.inr ⟨rfl, hend⟩))

theorem testsEnd_unlessClosed (closer : Kind) : TestsEnd P C δ g g' (unlessClosed closer) := by
  intro γ
  by_cases hend : γ.kind 0 = .endOfInput
  · refine .giveUp hend (.peekKind (fun _ => .inl rfl) (.pure rfl (.inl ⟨rfl, ?_⟩)))
    simp
  · exact .peekKind (fun h => absurd h hend) (.pure rfl (.inr ⟨rfl, hend⟩))

/-- A loop that tests whether there is more goes on only where its next token is known. -/
theorem TestsEnd.round {α : Type} {m : α → α} {Q : α → View → Prop} {more : Parse Bool}
    (hmore : TestsEnd P C δ g g' more) {γ' : View} (hγ' : γ' = γ.spent ∨ ∃ κ, γ' = γ.seeing κ)
    {p p' q q' : Parse α}
    (hon : ∀ κ, γ' = γ.seeing κ → Alike P C δ g g' (γ.seeing κ) m p p' Q)
    (hover : ∀ γ'', (γ'' = γ.spent ∨ ∃ κ, γ'' = γ.seeing κ) → Alike P C δ g g' γ'' m q q' Q) :
    Alike P C δ g g' γ' m (more >>= fun b => if b = true then p else q)
      (more >>= fun b => if b = true then p' else q') Q := by
  refine (hmore γ').bind fun b γ'' hγ'' => ?_
  rcases hγ'' with ⟨rfl, rfl⟩ | ⟨rfl, hend⟩
  · refine hover _ ?_
    rcases hγ' with rfl | ⟨κ, rfl⟩ <;> exact .inl rfl
  · rcases hγ' with rfl | ⟨κ, rfl⟩
    · exact absurd rfl hend
    · exact .ite (fun _ => hon κ rfl) fun _ => hover _ (.inr ⟨κ, rfl⟩)

/-- Statements with separators between them, up to where the test for more of them fails. Whether
    guest code was among them is kept in the view. -/
theorem alike_statements {more : Parse Bool} (hmore : TestsEnd P C δ g g' more)
    (hstage : γ.stage = .free) :
    Alike P C δ g g' (γ.seeing κ) (List.map (Statement.shift δ)) (statements g more)
      (statements g' more) fun ss γ' =>
        Ended (γ.coding (statementsHaveCode ss)) (StatementsWithin P) ss γ' := by
  refine (alike_skipSeparators κ).bind fun _ γ₁ hγ₁ => ?_
  refine .loop (m := List.map (Statement.shift δ)) (I := fun ss γ' => γ'.kind 0 ≠ .newline ∧
    Ended (γ.coding (statementsHaveCode ss)) (StatementsWithin P) ss γ') rfl
    ⟨hγ₁.1, (by intro p hp; cases hp), ?_⟩ ?_
  · rw [statementsHaveCode, View.coding_false]
    exact hγ₁.2
  · rintro acc γ₂ ⟨hnewline, hacc, hγ₂⟩
    -- Whether another statement is read is settled by the test, and by nothing else.
    refine hmore.round hγ₂ (fun κ₃ hκ₃ => ?_) fun γ₃ hγ₃ => .pure rfl ⟨hacc, hγ₃⟩
    rw [hκ₃] at hnewline
    refine .bind (.statement (Q := fun s γ' => s.Within P ∧
      ∃ κ, γ' = (γ.coding (statementsHaveCode (acc ++ [s]))).seeing κ) (View.live_seeing _ _) hstage
      hnewline fun s κ₄ hs => ⟨hs, κ₄, ?_⟩) ?_
    · rw [statementsHaveCode_concat, ← View.coding_coding]
      rfl
    · rintro s _ ⟨hs, κ₄, rfl⟩
      refine (alike_skipSeparators κ₄).bind fun _ γ₅ hγ₅ => ?_
      exact .pure (by simp) ⟨hγ₅.1, hacc.concat hs, hγ₅.2⟩

/-- A block in braces. It may contain guest code if its statements do. -/
theorem alike_block (hstage : γ.stage = .free) :
    Alike P C δ g g' (γ.seeing κ) (Block.shift δ) (block g) (block g') fun b γ' =>
      Settled (γ.coding b.hasCode) (Block.Within P) b γ' := by
  unfold block
  refine .expectingOpener (by decide) fun opening ho => .terminators false ?_
  have hinner : (γ.entering .leftBrace).stage = .free := by
    change γ.stage.entering .leftBrace = .free
    rw [hstage]
    rfl
  refine (alike_statements (testsEnd_unlessClosed .rightBrace) hinner).bind ?_
  rintro body γ₁ ⟨hbody, hγ₁⟩
  have hinside : (γ.coding (statementsHaveCode body)).Inside .leftBrace γ₁ := by
    rcases hγ₁ with rfl | ⟨κ₁, rfl⟩ <;> exact ⟨rfl, rfl, rfl⟩
  exact .closed (by decide) hinside ho fun κ₂ =>
    .pure (by simp [Block.shift]) ⟨List.forall_mem_cons.2 ⟨ho, hbody⟩, κ₂, rfl⟩

theorem stopsAtEnd_relaxed (hg : g.Proper) : StopsAtEnd (relaxed g.statement) :=
  fun t ht => (hg.stops t ht).statement.withTerminators true

theorem alike_relaxed {κ : Nat → Kind} (hstage : γ.stage = .free) (hκ : κ 0 ≠ .newline) :
    Alike P C δ g g' (γ.seeing κ) (Statement.shift δ) (relaxed g.statement) (relaxed g'.statement)
      fun s γ' => Settled (γ.coding s.hasCode) (Statement.Within P) s γ' :=
  .terminators true (.statement (View.live_seeing _ _) hstage hκ fun _ κ' hs => ⟨hs, κ', rfl⟩)

/-- A body is one block in braces or one statement. In the second case what follows it is left
    for the statement around it. -/
theorem alike_body (hg : g.Proper) (hstage : γ.stage = .free) :
    Alike P C δ g g' (γ.seeing κ) (Block.shift δ) (body g) (body g') fun b γ' =>
      Settled (γ.coding b.hasCode) (Block.Within P) b γ' := by
  refine .ite_check (by decide) (fun hcolon => ?_) fun _ => ?_
  · rw [View.kind_seeing] at hcolon
    refine .taking (.inl (by rw [hcolon]; rfl)) fun colon _ hP => .skip _
      (fun _ => (stopsAtEnd_relaxed hg).bind _) fun _ κ₁ hκ₁ => (alike_relaxed hstage hκ₁).bind ?_
    rintro s _ ⟨hs, κ₂, rfl⟩
    refine .pure (by simp [Block.shift]) ⟨?_, κ₂, ?_⟩
    · exact List.forall_mem_cons.2 ⟨hP, statementsWithin_singleton hs⟩
    · simp [Block.hasCode, statementsHaveCode]
  · refine .skip _ (fun _ => StopsAtEnd.bind (stopsAtEnd_expect (by decide)) _) fun _ κ₁ _ =>
        alike_block hstage

/-! ### Control flow -/

/-- What stands behind an `else`, if there is one: another conditional or a body. Newlines in
    front of the `else` are looked over first and taken only if it is there. -/
theorem alike_otherwise (hg : g.Proper) (hstage : γ.stage = .free) :
    Alike P C δ g g' (γ.seeing κ) (Option.map (Block.shift δ)) (otherwise g) (otherwise g')
      fun b γ' => Settled (γ.coding (elseHasCode b)) (fun b =>
          ∀ p ∈ elsePositions b, P p) b γ' := by
  refine .bind (.scan (Q := fun b γ' => γ' = γ.seeing κ ∧ (b = true → NextIs .kwElse κ)) rfl
    (.newlines hstage (.inr rfl)) fun b hb => ⟨rfl, hb⟩) ?_
  rintro b _ ⟨rfl, hb⟩
  refine .ite (fun hnext => ?_) fun _ => .pure rfl ⟨(by intro p hp; cases hp), κ, ?_⟩
  -- The newlines in front of the keyword were only looked past so far.
  · refine (alike_skipTo (hb hnext) (by decide)).bind ?_
    rintro _ _ ⟨κ₁, rfl, hκ₁⟩
    refine .taking (.inr (by rw [hκ₁]; rfl)) fun keyword _ hP => .ite_check (by decide) (fun _ =>
        ?_) fun _ => ?_
    · refine .bind (.nested (fun t ht => (hg.stops t ht).conditional)
        (.conditional (Q := fun s γ' => Settled (γ.coding s.hasCode) (Statement.Within P) s γ')
          (View.live_seeing _ _) hstage fun _ κ' hs => ⟨hs, κ', rfl⟩)) ?_
      rintro s _ ⟨hs, κ₂, rfl⟩
      refine .pure (by simp [Block.shift]) ⟨?_, κ₂, ?_⟩
      · exact List.forall_mem_cons.2 ⟨hP, statementsWithin_singleton hs⟩
      · simp [elseHasCode, Block.hasCode, statementsHaveCode]
    · refine (alike_body hg hstage).bind ?_
      rintro b _ ⟨hb, κ₂, rfl⟩
      exact .pure rfl ⟨hb, κ₂, rfl⟩
  · rw [elseHasCode, View.coding_false]

/-- The outcome of a rule for a statement. -/
def Stated (P : Position → Prop) (γ : View) (s : Statement) (γ' : View) : Prop :=
  Settled (γ.coding s.hasCode) (Statement.Within P) s γ'

theorem stated_of_hasCode {s : Statement} (h : s.Within P) (hcode : s.hasCode = false)
    (κ : Nat → Kind) : Stated P γ s (γ.seeing κ) :=
  ⟨h, κ, by rw [hcode, View.coding_false]⟩

theorem alike_conditional (hg : g.Proper) (hstage : γ.stage = .free) :
    Alike P C δ g g' (γ.seeing κ) (Statement.shift δ) (conditional g) (conditional g')
      (Stated P γ) := by
  unfold conditional
  refine .expecting (by decide) fun keyword _ hP => .parsing fun condition κ₁ hcondition => ?_
  refine (alike_body hg hstage).bind ?_
  rintro onTrue _ ⟨honTrue, κ₂, rfl⟩
  refine (alike_otherwise hg (γ := γ.coding onTrue.hasCode) hstage).bind ?_
  rintro onFalse _ ⟨honFalse, κ₃, rfl⟩
  refine .pure (by simp [Statement.shift]) ⟨?_, κ₃, ?_⟩
  · exact List.forall_mem_cons.2 ⟨hP, List.forall_mem_append.2
      ⟨List.forall_mem_append.2 ⟨hcondition, honTrue⟩, honFalse⟩⟩
  · rw [View.coding_coding]
    rfl

/-- The outcome of a rule that may decline. -/
def Attempted (P : Position → Prop) (γ : View) (κ : Nat → Kind) :
    Option Statement → View → Prop
  | none, γ' => γ' = γ.spent ∨ γ' = γ.seeing κ
  | some s, γ' => Stated P γ s γ'

theorem alike_decline (κ : Nat → Kind) :
    Alike P C δ g g' (γ.seeing κ) (Option.map (Statement.shift δ)) decline decline
      (Attempted P γ κ) := .pure rfl (.inr rfl)

theorem LoopHead.tail {κ : Nat → Kind} {i : Nat} (h : LoopHead κ (i + 1)) :
    LoopHead (fun j => κ (j + 1)) i := by
  generalize hi : i + 1 = j at h
  induction h generalizing i with
  | last hname hin =>
      subst hi
      exact .last hname hin
  | more hname hcomma _ ih =>
      subst hi
      exact .more hname hcomma (ih rfl)

/-- The names that a loop binds, when they are known to stand there. -/
theorem alike_loopNames (h : LoopHead κ 0) :
    Alike P C δ g g' (γ.seeing κ) id loopNames loopNames (Settled γ fun _ => True) := by
  refine .loop (m := id) (I := fun _ γ' => ∃ κ, γ' = γ.seeing κ ∧ LoopHead κ 0) rfl ⟨κ, rfl, h⟩ ?_
  rintro acc _ ⟨κ, rfl, hκ⟩
  have hname : (κ 0).shape = .piece := by
    cases hκ with
    | last h _ => rcases h with h | h <;> rw [h] <;> rfl
    | more h _ _ => rcases h with h | h <;> rw [h] <;> rfl
  refine .taking (.inr hname) fun name _ _ => .ite_check (by decide) (fun hcomma => ?_) fun _ =>
    .pure rfl ⟨trivial, _, rfl⟩
  rw [View.kind_seeing] at hcomma
  refine .taking (.inl (by rw [hcomma]; rfl)) fun _ _ _ => .pure rfl ⟨_, rfl, ?_⟩
  cases hκ with
  | last _ hin => cases hin.symm.trans hcomma
  | more _ _ hrest => exact hrest.tail.tail

/-- A loop over items declines unless its names and the keyword behind them are ahead. An array
    literal is refused at its place, if the handler does not allow it. -/
theorem alike_forIn (hg : g.Proper) (hstage : γ.stage = .free) (settings : HandlerSettings)
    (hκ : κ 0 = .kwFor) :
    Alike P C δ g g' (γ.seeing κ) (Option.map (Statement.shift δ)) (forIn g settings)
      (forIn g' settings) (Attempted P γ κ) := by
  refine .bind (.scan (Q := fun b γ' => γ' = γ.seeing κ ∧ (b = true → LoopHead κ 1)) rfl
    (.forIn hκ) fun b hb => ⟨rfl, hb⟩) ?_
  rintro b _ ⟨rfl, hb⟩
  refine .ite (fun hhead => ?_) fun _ => alike_decline κ
  refine .taking (.inr (by rw [hκ]; rfl)) fun keyword _ hP => ?_
  refine (alike_loopNames (hb hhead).tail).bind ?_
  rintro names _ ⟨-, κ₁, rfl⟩
  refine .expecting (by decide) fun _ _ _ => .check (fun _ => .inr (by decide)) (.ite (fun _ =>
      ?_) fun _ => ?_)
  · exact .look (fun _ _ => ⟨_, rfl, rfl, List.forall_mem_singleton.2 (.inr rfl)⟩)
      fun _ _ _ hP => .throw (List.forall_mem_singleton.2 hP)
  · refine .parsing fun iterable κ₂ hiterable => .bind (.inLoop (alike_body hg hstage)) ?_
    rintro inner _ ⟨hinner, κ₃, rfl⟩
    refine .pure rfl ⟨?_, κ₃, rfl⟩
    exact List.forall_mem_cons.2 ⟨hP, List.forall_mem_append.2 ⟨hiterable, hinner⟩⟩

theorem alike_stepClause :
    Alike P C δ g g' (γ.seeing κ) (Option.map (Expr.shift δ)) (stepClause g) (stepClause g')
      (Settled γ fun e => ∀ p ∈ optionalPositions e, P p) := by
  refine .ite_check (by decide) (fun hcomma => ?_) fun _ =>
      .pure rfl ⟨(by intro p hp; cases hp), κ, rfl⟩
  rw [View.kind_seeing] at hcomma
  exact .taking (.inl (by rw [hcomma]; rfl)) fun _ _ _ => .parsing fun e κ₁ he =>
    .pure rfl ⟨he, κ₁, rfl⟩

theorem alike_numericForAhead (hκ : κ 0 = .kwFor) :
    Alike P C δ g g' (γ.seeing κ) id numericForAhead numericForAhead fun b γ' =>
      γ' = γ.seeing κ ∧ (b = true → κ 1 = .identifier) := by
  refine .peekNext (by rw [hκ]; decide) (fun _ => rfl) (.ite (fun hname => ?_) fun _ =>
    .pure rfl ⟨rfl, fun h => by cases h⟩)
  refine .peek 2 (.inr fun i hi => ?_) (fun _ => .inr rfl) (.pure rfl ⟨rfl, fun _ => hname⟩)
  rcases (by omega : i = 0 ∨ i = 1) with rfl | rfl
  · rw [View.kind_seeing, hκ]
    decide
  · rw [View.kind_seeing, hname]
    decide

/-- A loop over numbers declines unless a name and an assignment sign are ahead. -/
theorem alike_numericFor (hg : g.Proper) (hstage : γ.stage = .free) (hκ : κ 0 = .kwFor) :
    Alike P C δ g g' (γ.seeing κ) (Option.map (Statement.shift δ)) (numericFor g) (numericFor g')
      (Attempted P γ κ) := by
  refine (alike_numericForAhead hκ).bind ?_
  rintro b _ ⟨rfl, hb⟩
  refine .ite (fun hhead => ?_) fun _ => alike_decline κ
  refine .taking (.inr (by rw [hκ]; rfl)) fun keyword _ hP => .taking (.inr ?_) fun name _ _ => ?_
  · rw [hb hhead]
    rfl
  · refine .expecting (by decide) fun _ _ _ => .parsing fun first κ₁ hfirst =>
        .expecting (by decide) fun _ _ _ =>
      .parsing fun last κ₂ hlast => alike_stepClause.bind ?_
    rintro step _ ⟨hstep, κ₃, rfl⟩
    refine .bind (.inLoop (alike_body hg hstage)) ?_
    rintro inner _ ⟨hinner, κ₄, rfl⟩
    refine .pure (by simp [Statement.shift]) ⟨?_, κ₄, rfl⟩
    exact List.forall_mem_cons.2 ⟨hP, List.forall_mem_append.2 ⟨List.forall_mem_append.2
      ⟨List.forall_mem_append.2 ⟨hfirst, hlast⟩, hstep⟩, hinner⟩⟩

theorem alike_whileLoop (hg : g.Proper) (hstage : γ.stage = .free) :
    Alike P C δ g g' (γ.seeing κ) (Statement.shift δ) (whileLoop g) (whileLoop g')
      (Stated P γ) := by
  unfold whileLoop
  refine .expecting (by decide) fun keyword _ hP => .parsing fun condition κ₁ hcondition =>
    .bind (.inLoop (alike_body hg hstage)) ?_
  rintro inner _ ⟨hinner, κ₂, rfl⟩
  refine .pure rfl ⟨?_, κ₂, rfl⟩
  exact List.forall_mem_cons.2 ⟨hP, List.forall_mem_append.2 ⟨hcondition, hinner⟩⟩

/-- Leaving or continuing a loop. Whether there is one is in the state, which is the same in both
    parses. -/
theorem alike_loopControl (hκ : κ 0 = .kwBreak ∨ κ 0 = .kwContinue) :
    Alike P C δ g g' (γ.seeing κ) (Statement.shift δ) loopControl loopControl (Stated P γ) := by
  have hpiece : (κ 0).shape = .piece := by rcases hκ with h | h <;> rw [h] <;> rfl
  have hend := (Kind.ne_of_piece hpiece).2
  refine .glance hend fun token _ hP => ?_
  -- How many loops are open is read from the states, which have it in common.
  refine .state (f := fun _ loopDepth =>
      if loopDepth = 0 then throw (.outsideLoop token.text token.position)
      else do
        let token ← consume
        if token.kind = .kwBreak then return Statement.breakLoop token
        else return Statement.continueLoop token)
    (h := fun _ loopDepth =>
      if loopDepth = 0 then throw (.outsideLoop (token.shift δ).text (token.shift δ).position)
      else do
        let token ← consume
        if token.kind = .kwBreak then return Statement.breakLoop token
        else return Statement.continueLoop token) ?_
  intro _ loopDepth
  refine .ite (fun _ => .throw (List.forall_mem_singleton.2 hP)) fun _ =>
    .taking (.inr hpiece) fun t _ hP => ?_
  have hbreak : (Statement.breakLoop t).Within P := List.forall_mem_singleton.2 hP
  have hcontinue : (Statement.continueLoop t).Within P := List.forall_mem_singleton.2 hP
  exact .ite (fun _ => .pure rfl (stated_of_hasCode hbreak rfl _))
    fun _ => .pure rfl (stated_of_hasCode hcontinue rfl _)

/-! ### Matching -/

/-- One arm of a match statement. Its statement may end at a comma or a brace, which is why its
    terminators are relaxed. -/
theorem alike_matchArm (hg : g.Proper) (hstage : γ.stage = .free) :
    Alike P C δ g g' (γ.seeing κ) (MatchArm.shift δ) (matchArm g) (matchArm g') fun a γ' =>
      Settled (γ.coding a.hasCode) (fun a => ArmsWithin P [a]) a γ' := by
  refine .bind (.pattern (Q := Settled γ (Pattern.Within P)) (View.live_seeing _ _)
    fun p κ' hp => ⟨hp, κ', rfl⟩) ?_
  rintro pattern _ ⟨hpattern, κ₁, rfl⟩
  have harm : ∀ body : Statement, body.Within P →
      ArmsWithin P [.mk pattern body pattern.position] := by
    intro body hbody p hp
    simp only [armPositions, List.append_nil] at hp
    exact List.forall_mem_cons.2 ⟨hpattern.position, List.forall_mem_append.2
        ⟨hpattern, hbody⟩⟩ p hp
  refine .skip _ (fun _ => StopsAtEnd.bind (stopsAtEnd_expect (by decide)) _) fun _ κ₂ _ =>
      .expecting (by decide) fun _ _ _ =>
    .skip _ (fun _ t ht => ?_) fun _ κ₃ hκ₃ => .ite_check (by decide) (fun _ => ?_) fun _ => ?_
  · exact stopsAt_check_ne (by rw [ht]; decide) ((stopsAtEnd_relaxed hg t ht).bind _)
  · refine (alike_block hstage).bind ?_
    rintro b _ ⟨hb, κ₄, rfl⟩
    exact .pure (by simp [MatchArm.shift, Statement.shift]) ⟨harm (.block b) hb, κ₄, rfl⟩
  · refine (alike_relaxed hstage hκ₃).bind ?_
    rintro body _ ⟨hbody, κ₄, rfl⟩
    exact .pure (by simp [MatchArm.shift]) ⟨harm body hbody, κ₄, rfl⟩

/-- Arms with commas or newlines between them. If the text ends behind an arm then the parse
    fails, so nothing has to be foreseen there. -/
theorem alike_matchArms (hg : g.Proper) (hstage : γ.stage = .free) :
    Alike P C δ g g' (γ.seeing κ) (List.map (MatchArm.shift δ)) (matchArms g) (matchArms g')
      fun arms γ' => Ended (γ.coding (armsHaveCode arms)) (ArmsWithin P) arms γ' := by
  refine alike_skipNewlines.bind fun _ γ₁ hskipped => ?_
  refine .loop (m := List.map (MatchArm.shift δ))
    (I := fun arms γ' => Ended (γ.coding (armsHaveCode arms)) (ArmsWithin P) arms γ') rfl
    ⟨(by intro p hp; cases hp), ?_⟩ ?_
  · rw [armsHaveCode, View.coding_false]
    exact (hskipped.ended (.inr ⟨κ, rfl⟩)).2
  · rintro acc γ₂ ⟨hacc, hγ₂⟩
    refine (testsEnd_unlessClosed .rightBrace).round hγ₂ (fun κ₃ _ => ?_) fun γ₃ hγ₃ =>
      .pure rfl ⟨hacc, hγ₃⟩
    refine (alike_matchArm hg (γ := γ.coding (armsHaveCode acc)) hstage).bind ?_
    rintro arm _ ⟨harm, κ₄, rfl⟩
    rw [View.coding_coding, ← armsHaveCode_concat]
    -- What follows an arm, with or without a comma.
    have hrest : ∀ (comma : Bool) κ₅,
        Alike P C δ g g' ((γ.coding (armsHaveCode (acc ++ [arm]))).seeing κ₅)
        (Sum.map (List.map (MatchArm.shift δ)) (List.map (MatchArm.shift δ)))
        (do
          let newlines ← skipNewlines
          if comma || 0 < newlines then return .inl (acc ++ [arm])
          else if ← check .rightBrace then return .inl (acc ++ [arm])
          else unexpected "',' or newline between match arms")
        (do
          let newlines ← skipNewlines
          if comma || 0 < newlines then return .inl (acc.map (MatchArm.shift δ) ++ [arm.shift δ])
          else if ← check .rightBrace then
            return .inl (acc.map (MatchArm.shift δ) ++ [arm.shift δ])
          else unexpected "',' or newline between match arms")
        fun r γ' => Sum.elim
          (fun arms => Ended (γ.coding (armsHaveCode arms)) (ArmsWithin P) arms γ')
          (fun arms => Ended (γ.coding (armsHaveCode arms)) (ArmsWithin P) arms γ') r := by
      intro comma κ₅
      refine alike_skipNewlines.bind fun newlines γ₆ hskipped => ?_
      have hγ₆ := (hskipped.ended (.inr ⟨κ₅, rfl⟩)).2
      refine .ite (fun _ => .pure (by simp) ⟨hacc.concat harm, hγ₆⟩) fun _ =>
        .ite_check (by decide) (fun _ => .pure (by simp) ⟨hacc.concat harm, hγ₆⟩) fun _ =>
            alike_unexpected _
    refine .check (fun _ => .inr (by decide)) (.ite (fun hcomma => ?_) fun _ => hrest _ κ₄)
    rw [decide_eq_true_eq, View.kind_seeing] at hcomma
    exact .taking (.inl (by rw [hcomma]; rfl)) fun _ _ _ => hrest _ _

/-- A match statement, which contains guest code if one of its arms does. -/
theorem alike_select (hg : g.Proper) (hstage : γ.stage = .free) :
    Alike P C δ g g' (γ.seeing κ) (Statement.shift δ) (select g) (select g') (Stated P γ) := by
  unfold select
  refine .expecting (by decide) fun keyword _ hP => .parsing fun scrutinee κ₁ hscrutinee => ?_
  refine .skip _ (fun _ => StopsAtEnd.bind (stopsAtEnd_expect (by decide)) _) fun _ κ₂ _ =>
    .expectingOpener (by decide) fun opening ho => ?_
  have hinner : (γ.entering .leftBrace).stage = .free := by
    change γ.stage.entering .leftBrace = .free
    rw [hstage]
    rfl
  refine (alike_matchArms hg hinner).bind ?_
  rintro arms γ₃ ⟨harms, hγ₃⟩
  have hinside : (γ.coding (armsHaveCode arms)).Inside .leftBrace γ₃ := by
    rcases hγ₃ with rfl | ⟨κ₃, rfl⟩ <;> exact ⟨rfl, rfl, rfl⟩
  refine .closed (by decide) hinside ho fun κ₄ => .pure (by simp [Statement.shift]) ⟨?_, κ₄, rfl⟩
  exact List.forall_mem_cons.2 ⟨hP, List.forall_mem_append.2 ⟨hscrutinee, harms⟩⟩

/-! ### Guest code -/

/-- The names in parentheses behind the tag of a language, if there are any. -/
theorem alike_captures :
    Alike P C δ g g' (γ.seeing κ) id captures captures (Settled γ fun _ => True) := by
  refine .ite_check (by decide) (fun hparen => ?_) fun _ => .pure rfl ⟨trivial, κ, rfl⟩
  refine .opening (by decide) hparen fun opening ho => ?_
  refine .bind (m := id) (R := Settled (γ.entering .leftParen) fun _ => True)
    (.loop (m := id) (I := Settled (γ.entering .leftParen) fun _ =>
        True) rfl ⟨trivial, _, rfl⟩ ?_) ?_
  · rintro acc _ ⟨-, κ₁, rfl⟩
    refine .ite_check (by decide) (fun hname => ?_) fun _ => .pure rfl ⟨trivial, κ₁, rfl⟩
    rw [View.kind_seeing] at hname
    refine .taking (.inr (by rw [hname]; rfl)) fun name _ _ =>
        .ite_check (by decide) (fun hcomma => ?_)
      fun _ => .pure rfl ⟨trivial, _, rfl⟩
    rw [View.kind_seeing] at hcomma
    exact .taking (.inl (by rw [hcomma]; rfl)) fun _ _ _ => .pure rfl ⟨trivial, _, rfl⟩
  · rintro names _ ⟨-, κ₁, rfl⟩
    exact .closed (by decide) (show γ.Inside .leftParen _ from ⟨rfl, rfl, rfl⟩) ho fun κ₂ =>
      .pure rfl ⟨trivial, κ₂, rfl⟩

/-- Neither a newline nor the end of the text makes a language name introduce
    anything. -/
theorem constructFor?_end (table : LanguageTable) (name : String) (endsInCall : Bool) :
    table.constructFor? name .newline endsInCall = none ∧
      table.constructFor? name .endOfInput endsInCall = none := by
  unfold LanguageTable.constructFor?
  cases table.resolve? name with
  | none => exact ⟨rfl, rfl⟩
  | some canonical =>
      dsimp only
      cases table.languages.find? fun l => l.name = canonical <;> exact ⟨rfl, rfl⟩

/-- The look-ahead for guest code. Where it succeeds a tag is the current token, and it has only
    read in any case. -/
theorem alike_codeBlockAhead (hκ : κ 0 ≠ .newline) :
    Alike P C δ g g' (γ.seeing κ) id codeBlockAhead codeBlockAhead fun b γ' =>
      (γ' = γ.spent ∧ b = false) ∨ (γ' = γ.seeing κ ∧ (b = true → (κ 0).shape = .piece)) := by
  -- At the end of the text the answer is no, and the counterpart gets it as well.
  by_cases hend : κ 0 = .endOfInput
  · refine .giveUp hend (.current (fun _ => .inl rfl) fun head hhead hP => ?_)
    refine .peek 1 (.inl rfl) (fun _ => .inl rfl)
      (.languages (fun table table' hsame => ?_) fun table => ?_)
    · simp only [hsame.constructFor?, hsame.isLanguage]
    rw [View.kind_spent] at hhead
    simp only [Token.shift_kind, hhead]
    exact .pure rfl (.inl ⟨rfl, rfl⟩)
  · refine .glance hend ?_
    rintro ⟨kind, text, position, stop⟩ (hkind : kind = κ 0) hP
    have hfalse : Alike P C δ g g' (γ.seeing κ) id (pure false) (pure false) fun b γ' =>
        (γ' = γ.spent ∧ b = false) ∨ (γ' = γ.seeing κ ∧ (b = true → (κ 0).shape = .piece)) :=
      .pure rfl (.inr ⟨rfl, fun h => by cases h⟩)
    refine .peekNext ⟨hκ, hend⟩ (fun _ => ?_)
      (.languages (fun table table' hsame => ?_) fun table => ?_)
    -- The token behind the head may be the end of one text and a newline in the other. The table
    -- does not tell them apart.
    · refine congrArg (languages >>= ·) (funext fun table => ?_)
      rcases constructFor?_end table text false with ⟨hnewline, hendOfInput⟩
      simp [Token.shift, hnewline, hendOfInput]
    · simp only [hsame.constructFor?, hsame.isLanguage]
    · cases kind with
      | language =>
          refine .ite (fun _ => .pure rfl (.inr ⟨rfl, fun _ => by rw [← hkind]; rfl⟩)) fun _ =>
            .ite (fun _ => hfalse) fun _ => .ite (fun _ => .throw ?_) fun _ => hfalse
          exact List.forall_mem_singleton.2 hP
      | identifier =>
          have hpiece : (κ 0).shape = .piece := by rw [← hkind]; rfl
          refine .ite (fun _ => ?_) fun _ => hfalse
          exact .scan rfl (.captures hpiece) fun b _ => .inr ⟨rfl, fun _ => hpiece⟩
      | _ => exact hfalse

/-- The rule for code blocks, with what comes behind its look-ahead written as one branch. -/
theorem codeBlock_eq : codeBlock = (do
    if ← codeBlockAhead then
      let head ← current
      match (← languages).resolveAt head.text head.position with
      | .error e => throw e
      | .ok language =>
        let _ ← consume
        let names ← captures
        guestBody language names head.position
    else decline) := rfl

/-- A block of guest code. Its body is no sequence of tokens, so behind it nothing is foreseen
    and the view says that guest code has been passed over. -/
theorem alike_codeBlock (hstage : γ.stage = .free) (hκ : κ 0 ≠ .newline) :
    Alike P C δ g g' (γ.seeing κ) (Option.map (Statement.shift δ)) codeBlock codeBlock
      (Attempted P γ κ) := by
  rw [codeBlock_eq]
  refine .bind (.allowed (View.live_seeing _ _) hstage (alike_codeBlockAhead hκ)
    (Q := fun b γ' => ((γ' = γ.spent ∧ b = false) ∨
      (γ' = γ.seeing κ ∧ (b = true → (κ 0).shape = .piece))) ∧ (b = true → C))
    fun b γ' hγ' hb => ⟨hγ', hb⟩) ?_
  rintro b γ' ⟨hγ', hallowed⟩
  refine .ite (fun hb => ?_) fun _ => .pure rfl ?_
  -- Code is there only where the counterpart is still in step, and only if it is allowed.
  · rcases hγ' with ⟨-, hfalse⟩ | ⟨rfl, hpiece⟩
    · cases hfalse.symm.trans hb
    have hshape := hpiece hb
    have hend := (Kind.ne_of_piece hshape).2
    refine .glance hend fun head _ hP => .languages (fun table table' hsame => ?_) fun table => ?_
    · simp only [hsame.resolveAt]
    unfold LanguageTable.resolveAt
    rw [Token.shift_text]
    cases table.resolve? head.text with
    | none => exact .throw (List.forall_mem_singleton.2 hP)
    | some language =>
        refine .taking (.inr hshape) fun _ _ _ => alike_captures.bind ?_
        rintro names _ ⟨-, κ₁, rfl⟩
        refine .guest (hallowed hb) (View.live_seeing _ _) hstage hP fun s κ₂ hs hcode =>
            ⟨hs, κ₂, ?_⟩
        rw [hcode]
        rfl
  · rcases hγ' with ⟨rfl, -⟩ | ⟨rfl, -⟩
    · exact .inl rfl
    · exact .inr rfl

/-! ### Assignments and expressions -/

/-- An assignment declines unless its sign is ahead of the end of the statement. Its target is
    parsed before the sign and refused if nothing can be assigned to it. -/
theorem alike_assignment (hg : g.Proper) (hstage : γ.stage = .free) :
    Alike P C δ g g' (γ.seeing κ) (Option.map (Statement.shift δ)) (assignment g) (assignment g')
      (Attempted P γ κ) := by
  refine .bind (.scan (Q := fun _ γ' => γ' = γ.seeing κ) rfl .assignment fun _ _ => rfl) ?_
  rintro b _ rfl
  refine .ite (fun _ => ?_) fun _ => alike_decline κ
  refine (alike_operand hg).bind ?_
  rintro target _ ⟨htarget, κ₁, rfl⟩
  rw [Expr.shift_isAssignable]
  refine .ite (fun _ => .expecting (by decide) fun _ _ _ => .skip _ (fun _ => ?_) fun _ κ₂ _ =>
      ?_) fun _ => ?_
  · exact StopsAtEnd.bind (StopsAtEnd.bind (fun t ht => (hg.stops t ht).expression) _) _
  · refine (alike_pipeExpression hg hstage).bind ?_
    rintro value _ ⟨hvalue, κ₃, rfl⟩
    refine .pure (by simp [Statement.shift]) (stated_of_hasCode ?_ rfl κ₃)
    exact List.forall_mem_cons.2 ⟨htarget.position, List.forall_mem_append.2 ⟨htarget, hvalue⟩⟩
  · exact .throw (List.forall_mem_singleton.2 htarget.position)

theorem alike_nameThen {test : Kind → Bool} (htest : test .newline = test .endOfInput) :
    Alike P C δ g g' (γ.seeing κ) id (nameThen test) (nameThen test) fun b γ' =>
      γ' = γ.seeing κ ∧ (b = true → (κ 0).shape = .piece) := by
  refine .peekKind (fun _ => .inr rfl) (.ite (fun hname => ?_) fun _ =>
    .pure rfl ⟨rfl, fun h => by cases h⟩)
  have hshape : (κ 0).shape = .piece := shape_of_memberName hname
  refine .peekNext ?_ (fun _ => by rw [htest]) (.pure rfl ⟨rfl, fun _ => hshape⟩)
  exact Kind.ne_of_piece hshape

/-- A call into a guest language declines unless a chain of names ends in parentheses. -/
theorem alike_languageCall (hg : g.Proper) (hstage : γ.stage = .free) :
    Alike P C δ g g' (γ.seeing κ) (Option.map (Statement.shift δ)) (languageCall g)
      (languageCall g') (Attempted P γ κ) := by
  refine (alike_nameThen rfl).bind ?_
  rintro b _ ⟨rfl, hb⟩
  refine .ite (fun hname => ?_) fun _ => alike_decline κ
  have hshape := hb hname
  have hend := (Kind.ne_of_piece hshape).2
  refine .bind (.scan (Q := fun _ γ' => γ' = γ.seeing κ) rfl (.call hshape) fun _ _ => rfl) ?_
  rintro call _ rfl
  refine .ite (fun _ => ?_) fun _ => alike_decline κ
  refine .glance hend fun start _ hP => (alike_pipeExpression hg hstage).bind ?_
  rintro e _ ⟨he, κ₁, rfl⟩
  refine alike_backgroundMarker.bind ?_
  rintro background _ ⟨-, κ₂, rfl⟩
  have hcall : (Statement.languageCall e background start.position).Within P :=
    List.forall_mem_cons.2 ⟨hP, he⟩
  exact .pure rfl (stated_of_hasCode hcall rfl κ₂)

theorem alike_fieldAccess :
    Alike P C δ g g' (γ.seeing κ) (Option.map (Statement.shift δ)) (fieldAccess g)
      (fieldAccess g') (Attempted P γ κ) := by
  refine (alike_nameThen rfl).bind ?_
  rintro b _ ⟨rfl, -⟩
  refine .ite (fun _ => .parsing fun e κ₁ he => .pure (by simp [Statement.shift])
    (stated_of_hasCode ?_ rfl κ₁)) fun _ => alike_decline κ
  exact List.forall_mem_cons.2 ⟨he.position, he⟩

theorem alike_expressionStatement (hg : g.Proper) (hstage : γ.stage = .free) :
    Alike P C δ g g' (γ.seeing κ) (Statement.shift δ) (expressionStatement g)
      (expressionStatement g') (Stated P γ) := by
  refine (alike_pipeExpression hg hstage).bind ?_
  rintro e _ ⟨he, κ₁, rfl⟩
  rw [isGuestCall_shift]
  refine .ite (fun _ => alike_backgroundMarker.bind ?_) fun _ =>
    .pure (by simp [Statement.shift]) (stated_of_hasCode ?_ rfl κ₁)
  · rintro background _ ⟨-, κ₂, rfl⟩
    refine .pure (by simp [Statement.shift]) (stated_of_hasCode ?_ rfl κ₂)
    exact List.forall_mem_cons.2 ⟨he.position, he⟩
  · exact List.forall_mem_cons.2 ⟨he.position, he⟩

theorem alike_certainly {p q : Parse Statement}
    (h : Alike P C δ g g' (γ.seeing κ) (Statement.shift δ) p q (Stated P γ)) :
    Alike P C δ g g' (γ.seeing κ) (Option.map (Statement.shift δ)) (Handler.certainly p)
      (Handler.certainly q) (Attempted P γ κ) :=
  h.bind fun _ _ hs => .pure rfl hs

theorem alike_builtinCall (hg : g.Proper) (hstage : γ.stage = .free) :
    Alike P C δ g g' (γ.seeing κ) (Option.map (Statement.shift δ)) (builtinCall g)
      (builtinCall g') (Attempted P γ κ) := by
  refine .ite_check (by decide) (fun hname => ?_) fun _ => alike_decline κ
  rw [View.kind_seeing] at hname
  refine .peekNext (by rw [hname]; decide) (fun _ => rfl) (.ite (fun _ => ?_) fun _ =>
    alike_decline κ)
  exact (alike_expressionStatement hg hstage).bind fun _ _ hs => .pure rfl hs

/-! ### Handlers -/

/-- Each rule of a handler, by the construct in its settings. A keyword that the construct has is
    already seen when its rule is run. -/
theorem alike_rule (hg : g.Proper) (hstage : γ.stage = .free) {settings : HandlerSettings}
    (hκ : settings.construct = .codeBlock → κ 0 ≠ .newline)
    (hkeyword : ∀ kind, settings.construct.keyword? = some kind → κ 0 = kind) :
    Alike P C δ g g' (γ.seeing κ) (Option.map (Statement.shift δ)) (Handler.rule settings g)
      (Handler.rule settings g') (Attempted P γ κ) := by
  unfold Handler.rule
  -- A rule with a keyword stands at it, which is known from the handler having been asked.
  cases hconstruct : settings.construct with
  | conditional => exact alike_certainly (alike_conditional hg hstage)
  | select => exact alike_certainly (alike_select hg hstage)
  | forIn => exact alike_forIn hg hstage settings (hkeyword _ (by rw [hconstruct]; rfl))
  | numericFor => exact alike_numericFor hg hstage (hkeyword _ (by rw [hconstruct]; rfl))
  | whileLoop => exact alike_certainly (alike_whileLoop hg hstage)
  | breakLoop =>
      exact alike_certainly (alike_loopControl (.inl (hkeyword _ (by rw [hconstruct]; rfl))))
  | continueLoop =>
      exact alike_certainly (alike_loopControl (.inr (hkeyword _ (by rw [hconstruct]; rfl))))
  | block =>
      refine alike_certainly ((alike_block hstage).bind ?_)
      rintro b _ ⟨hb, κ', rfl⟩
      exact .pure rfl ⟨hb, κ', rfl⟩
  | codeBlock => exact alike_codeBlock hstage (hκ hconstruct)
  | assignment => exact alike_assignment hg hstage
  | languageCall => exact alike_languageCall hg hstage
  | fieldAccess => exact alike_fieldAccess
  | builtinCall => exact alike_builtinCall hg hstage
  | expression => exact alike_certainly (alike_expressionStatement hg hstage)

/-- What a handler of the language does. -/
theorem alike_builtin (hg : g.Proper) (hstage : γ.stage = .free) {settings : HandlerSettings}
    (hκ : settings.construct = .codeBlock → κ 0 ≠ .newline) :
    Alike P C δ g g' (γ.seeing κ) (Option.map (Statement.shift δ))
      ((Handler.builtin settings).parse g) ((Handler.builtin settings).parse g')
      (Attempted P γ κ) := by
  unfold Handler.builtin
  dsimp only
  cases hkeyword : settings.construct.keyword? with
  | none => exact alike_rule hg hstage hκ fun kind hkind => by rw [hkeyword] at hkind; cases hkind
  | some kind =>
      refine .ite_check ?_ (fun hkind => alike_rule hg hstage hκ fun other hother => ?_)
        fun _ => alike_decline κ
      · cases hconstruct : settings.construct <;> rw [hconstruct] at hkeyword <;>
          cases hkeyword <;> decide
      · rw [hkeyword] at hother
        cases hother
        exact hkind

/-! ### Whole texts -/

theorem alike_program (hstage : γ.stage = .free) :
    Alike P C δ g g' (γ.seeing κ) (fun program => ⟨program.statements.map (Statement.shift δ)⟩)
      (program g) (program g') fun program γ' =>
        Ended (γ.coding (statementsHaveCode program.statements))
          (fun program => StatementsWithin P program.statements) program γ' :=
  (alike_statements testsEnd_hasMore hstage).bind fun _ _ hss => .pure rfl hss

/-- A text that is one construct, with separators around it and nothing else. -/
theorem alike_wholeText {α : Type} {m : α → α} {p q : Parse α} {V : α → Prop}
    (hstop : StopsAtEnd p)
    (h : ∀ κ, Alike P C δ g g' (γ.seeing κ) m p q (Settled γ V)) :
    Alike P C δ g g' (γ.seeing κ) m (wholeText p) (wholeText q) (Ended γ V) := by
  refine (alike_skipSeparators κ).bind fun _ γ₁ hγ₁ => ?_
  refine .revived hγ₁.2 (hstop.bind _) fun κ₁ _ => (h κ₁).bind ?_
  rintro value _ ⟨hvalue, κ₂, rfl⟩
  refine (alike_skipSeparators κ₂).bind fun _ γ₃ hγ₃ => ?_
  by_cases hend : γ₃.kind 0 = .endOfInput
  · refine .giveUp hend (.check (fun _ => .inl rfl) (.pure rfl ⟨hvalue, .inl ?_⟩))
    rcases hγ₃.2 with rfl | ⟨κ₃, rfl⟩ <;> rfl
  · refine .check (fun h => absurd h hend) ?_
    simp only [hend, decide_false, Bool.false_eq_true, if_false]
    exact alike_unexpected _

theorem alike_expressionText (hg : g.Proper) :
    Alike P C δ g g' (γ.seeing κ) (Expr.shift δ) (wholeText g.expression)
      (wholeText g'.expression) (Ended γ (Expr.Within P)) :=
  alike_wholeText (fun t ht => (hg.stops t ht).expression) fun κ' =>
    .expression (View.live_seeing _ κ') fun _ κ'' he => ⟨he, κ'', rfl⟩

theorem alike_patternText (hg : g.Proper) :
    Alike P C δ g g' (γ.seeing κ) (Pattern.shift δ) (wholeText g.pattern)
      (wholeText g'.pattern) (Ended γ (Pattern.Within P)) :=
  alike_wholeText (fun t ht => (hg.stops t ht).pattern) fun κ' =>
    .pattern (View.live_seeing _ κ') fun _ κ'' hp => ⟨hp, κ'', rfl⟩

end Parse

end PolyScript
