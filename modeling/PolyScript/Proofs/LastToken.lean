import PolyScript.Proofs.AtEnd

/-!
# Parsers at the Last Token

What a rule does with the last token of a text. An expression begins with a token
that it takes, so if only one is left, an expression that is parsed there is at
the end of the text afterwards. Whatever bracket it stands in is then never
closed, and it does not matter how it was parsed.

## Main definitions

* `Parse.StaysAtEnd`: Does not get away from the end of the text.
* `Parse.Exhausts`: Is at the end of the text once it has taken the only token.
* `Grammar.Proper`: A grammar with the properties that its rules rely on.

## Theorems

* `Parse.exhausts_expression`: An expression takes its first token.
* `Grammar.proper_level`: Every level is proper.
-/

namespace PolyScript

namespace Parse

variable {α β : Type}

/-- A parser that does not get away from the end of the text. -/
def StaysAtEnd (p : Parse α) : Prop :=
  ∀ (env : Env) (s t : State) (a : α), s.token.kind = .endOfInput → p env s = .ok a t →
    t.token.kind = .endOfInput

/-- A parser that is at the end of the text once it has taken the only token that
    was left. -/
def Exhausts (p : Parse α) : Prop :=
  ∀ (env : Env) (s t : State) (a : α), s.token.kind ≠ .endOfInput →
    (s.buffer.tokenAt (s.cursor + 1)).kind = .endOfInput → p env s = .ok a t →
    t.token.kind = .endOfInput

theorem StopsAtEnd.bind {p : Parse α} (h : StopsAtEnd p) (f : α → Parse β) :
    StopsAtEnd (p >>= f) := fun t ht => (h t ht).bind f

theorem StopsAtEnd.nested {p : Parse α} (h : StopsAtEnd p) : StopsAtEnd (nested p) :=
  fun t ht => (h t ht).nested

theorem Looks.bind_stopsAtEnd {p : Parse α} {f : α → Parse β} (hp : Looks p)
    (hf : ∀ a, StopsAtEnd (f a)) : StopsAtEnd (p >>= f) :=
  fun t ht => hp.bind_stopsAt fun a => hf a t ht

theorem stopsAtEnd_skip {f : Nat → Parse β} (h : StopsAtEnd (f 0)) :
    StopsAtEnd (skipNewlines >>= f) :=
  fun t ht => stopsAt_skipNewlines (by rw [ht]; decide) (h t ht)

theorem stopsAtEnd_expect {kind : Kind} (hkind : kind ≠ .endOfInput) :
    StopsAtEnd (expect kind) :=
  fun t ht => stopsAt_expect (by rw [ht]; exact hkind.symm)

theorem stopsAtEnd_expectClosing {opening : Token} {closer : Kind}
    (hcloser : closer ≠ .endOfInput) : StopsAtEnd (expectClosing opening closer) :=
  fun t ht =>
    stopsAt_check_ne (by rw [ht]; exact hcloser.symm) (stopsAt_current (stopsAt_throw rfl))

theorem StopsAtEnd.staysAtEnd {p : Parse α} (h : StopsAtEnd p) : StaysAtEnd p := by
  intro env s t a hs hrun
  rcases h s.token hs env s rfl with ⟨e, u, _, _, hfail⟩
  rw [hfail] at hrun
  cases hrun

theorem Looks.staysAtEnd {p : Parse α} (h : Looks p) : StaysAtEnd p := by
  intro env s t a hs hrun
  rcases h env s with ⟨b, u, hu, hlook⟩
  rw [hlook env.guard] at hrun
  cases hrun
  rw [hu.token_eq, hs]

theorem staysAtEnd_pure (a : α) : StaysAtEnd (pure a : Parse α) := (looks_pure a).staysAtEnd

/-- A parser whose answer at the end of the text is known. -/
theorem staysAtEnd_of_answers {p : Parse α} {a : α}
    (h : ∀ t : Token, t.kind = .endOfInput → AnswersAt t a p) : StaysAtEnd p := by
  intro env s t b hs hrun
  rcases h s.token hs env s rfl with ⟨u, hu, hanswer⟩
  rw [hanswer] at hrun
  cases hrun
  rw [hu.token_eq, hs]

/-- A parser that exhausts the text goes on to do so if what follows it stays at the end. -/
theorem Exhausts.bind {p : Parse α} {f : α → Parse β} (hp : Exhausts p)
    (hf : ∀ a, StaysAtEnd (f a)) : Exhausts (p >>= f) := by
  intro env s t b hs hnext hrun
  rw [bind_run] at hrun
  cases hmid : p env s with
  | ok a u =>
      rw [hmid] at hrun
      exact hf a env u t b (hp env s u a hs hnext hmid) hrun
  | error e u =>
      rw [hmid] at hrun
      cases hrun

theorem Looks.bind_exhausts {p : Parse α} {f : α → Parse β} (hp : Looks p)
    (hf : ∀ a, Exhausts (f a)) : Exhausts (p >>= f) := by
  intro env s t b hs hnext hrun
  rcases hp env s with ⟨a, u, ⟨n, rfl⟩, hlook⟩
  rw [bind_run, hlook env.guard] at hrun
  refine hf a env _ t b ?_ ?_ hrun
  · rw [State.token, TokenBuffer.tokenAt_readMore]
    exact hs
  · rw [TokenBuffer.tokenAt_readMore]
    exact hnext

/-- The same for a look at the token after the last, which is the end. -/
theorem exhausts_peekKind {f : Kind → Parse β} (h : Exhausts (f .endOfInput)) :
    Exhausts (peekKind 1 >>= f) := by
  intro env s t b hs hnext hrun
  rw [bind_run, peekKind_run, hnext] at hrun
  refine h env _ t b ?_ ?_ hrun
  · rw [State.token, TokenBuffer.tokenAt_fill]
    exact hs
  · rw [TokenBuffer.tokenAt_fill]
    exact hnext

theorem exhausts_consume : Exhausts consume := by
  intro env s t a hs hnext hrun
  rw [consume_run] at hrun
  cases hrun
  have hnot : s.token.isEnd = false := by simp [Token.isEnd, hs]
  rw [State.token, State.tokenAt_advanced, State.cursor_advanced hnot]
  exact hnext

theorem exhausts_throw (e : ParseError) : Exhausts (throw e : Parse α) := by
  intro env s t a _ _ hrun
  cases hrun

theorem exhausts_expect (kind : Kind) : Exhausts (expect kind) := by
  refine (looks_check kind).bind_exhausts fun b => ?_
  split
  · exact exhausts_consume
  · exact (looks_peek 0).bind_exhausts fun t => exhausts_throw _

theorem Exhausts.nested {p : Parse α} (h : Exhausts p) : Exhausts (nested p) := by
  intro env s t a hs hnext hrun
  rcases ok_of_nested hrun with ⟨-, u, hinner, rfl⟩
  refine h env _ u _ ?_ ?_ hinner
  · rw [← s.token_filled] at hs
    exact hs
  · rw [← TokenBuffer.tokenAt_fill s.buffer _ s.cursor] at hnext
    exact hnext

/-! ### Expressions -/

theorem exhausts_literal : Exhausts literal := by
  intro env s t a hs hnext hrun
  rw [literal_run] at hrun
  cases hliteral : literalOf env.source s.token with
  | ok expr =>
      rw [hliteral] at hrun
      cases hrun
      exact exhausts_consume env s _ s.token hs hnext (consume_run env s)
  | error e =>
      rw [hliteral] at hrun
      cases hrun

theorem exhausts_identifier : Exhausts identifier :=
  exhausts_consume.bind fun _ => staysAtEnd_pure _

theorem exhausts_reference (g : Grammar) : Exhausts (reference g) := by
  refine (looks_peek 0).bind_exhausts fun head => looks_languages.bind_exhausts fun table => ?_
  refine exhausts_peekKind ?_
  have hnot : (decide (Kind.endOfInput = Kind.leftParen) &&
      decide (head.kind = .identifier)) = false := rfl
  simp only [hnot, Bool.false_eq_true, if_false]
  split
  · exact exhausts_consume.bind fun _ => StopsAtEnd.staysAtEnd fun t _ => stopsAt_unexpected _
  · exact exhausts_identifier

/-- A list in brackets cannot begin at the end of the text. -/
theorem stopsAtEnd_commaList {closer : Kind} {start : α} {item : α → Parse α}
    (hcloser : closer ≠ .endOfInput) (hitem : ∀ a, StopsAtEnd (item a)) :
    StopsAtEnd (commaList closer start item) := by
  refine stopsAtEnd_skip fun t ht => StopsAt.loop ?_
  exact stopsAt_check_ne (by rw [ht]; exact hcloser.symm) ((hitem start t ht).bind _)

theorem stopsAtEnd_argument {g : Grammar} (hg : g.StopsAtEnd) : StopsAtEnd (argument g) := by
  refine (looks_peekKind 1).bind_stopsAtEnd fun next t ht => stopsAt_peekKind ?_
  rw [ht]
  simp only [Kind.isLiteral, Bool.and_false, Bool.false_eq_true, if_false, reduceCtorEq,
    decide_false]
  exact (hg t ht).expression

theorem exhausts_argument {g : Grammar} (hg : Exhausts g.expression) : Exhausts (argument g) :=
  exhausts_peekKind ((looks_peekKind 0).bind_exhausts fun _ => hg)

theorem stopsAtEnd_objectEntry (g : Grammar) : StopsAtEnd (objectEntry g) := by
  intro t ht
  refine stopsAt_current ?_
  have hkey : objectKey t = .error (.unexpectedToken "object key" t) := by rw [objectKey, ht]
  rw [hkey]
  exact stopsAt_throw rfl

theorem stopsAtEnd_patternField (g : Grammar) (fields : List PatternField) :
    StopsAtEnd (patternField g fields) := by
  intro t ht
  refine stopsAt_current ?_
  have hnot : isPatternKey t.kind = false := by rw [ht]; rfl
  simp only [hnot, Bool.false_eq_true, if_false]
  exact stopsAt_throw rfl

/-- An operand without suffixes takes the last token of the text, whichever rule reads it. Those
    with more than one token fail. -/
theorem exhausts_primary {g : Grammar} (hg : g.StopsAtEnd) : Exhausts (primary g) := by
  refine (looks_peek 0).bind_exhausts fun token => ?_
  have hexpression : StopsAtEnd g.expression := fun t ht => (hg t ht).expression
  split
  · exact exhausts_literal
  · exact exhausts_literal
  · exact exhausts_literal
  · exact exhausts_literal
  · exact exhausts_literal
  · exact exhausts_reference g
  · exact exhausts_reference g
  · exact (exhausts_expect _).bind fun _ =>
      (stopsAtEnd_skip (hexpression.bind _)).staysAtEnd
  · exact (exhausts_expect _).bind fun _ =>
      ((stopsAtEnd_commaList (by decide) fun _ => hexpression.bind _).bind _).staysAtEnd
  · exact (exhausts_expect _).bind fun _ =>
      ((stopsAtEnd_commaList (by decide)
        fun _ => (stopsAtEnd_objectEntry g).bind _).bind _).staysAtEnd
  · refine Exhausts.bind ((exhausts_expect _).bind fun _ => ?_) fun _ => staysAtEnd_pure _
    exact (StopsAtEnd.nested (stopsAtEnd_bits g false)).staysAtEnd
  · exact exhausts_throw _

theorem answersAt_suffixes {t : Token} (ht : t.kind = .endOfInput) (g : Grammar) (e : Expr) :
    AnswersAt t e (suffixes g e) := by
  refine AnswersAt.loop (answersAt_peekKind ?_)
  rw [ht]
  exact answersAt_pure _

theorem exhausts_operand {g : Grammar} (hg : g.StopsAtEnd) : Exhausts (operand g) := by
  refine (looks_peekKind 0).bind_exhausts fun kind => ?_
  split
  · refine exhausts_consume.bind fun _ => StopsAtEnd.staysAtEnd (StopsAtEnd.bind ?_ _)
    exact StopsAtEnd.nested fun t ht => (hg t ht).operand
  · exact (exhausts_primary hg).bind fun e =>
      staysAtEnd_of_answers fun t ht => answersAt_suffixes ht g e

theorem stopsAtEnd_binary (g : Grammar) (levels least : Nat) :
    StopsAtEnd (binary g levels least) := by
  intro t ht
  cases levels with
  | zero => exact stopsAt_operand (.inl ht) g
  | succ levels => exact (stopsAt_operand (.inl ht) g).bind _

theorem exhausts_operation {g : Grammar} (hg : g.StopsAtEnd) : Exhausts (operation g) := by
  refine (exhausts_operand hg).bind fun e => staysAtEnd_of_answers (a := e) fun t ht => ?_
  refine AnswersAt.loop (answersAt_peekKind ?_)
  rw [ht]
  exact answersAt_pure _

/-- An expression takes its first token. -/
theorem exhausts_expression {g : Grammar} (hg : g.StopsAtEnd) : Exhausts (expression g) := by
  refine Exhausts.nested ((exhausts_operation hg).bind fun e => ?_)
  refine staysAtEnd_of_answers (a := e) fun t ht => ?_
  refine answersAt_peekKind
    (f := fun kind => if decide (kind = .question) = true then _ else pure e) ?_
  rw [ht]
  exact answersAt_pure e

end Parse

namespace Grammar

/-- A grammar with the properties that its rules rely on. -/
structure Proper (g : Grammar) : Prop where
  stops : g.StopsAtEnd
  exhausts : Parse.Exhausts g.expression

theorem proper_level {registry : Registry} (hbuiltin : registry.IsBuiltin) (n : Nat) :
    (level registry n).Proper where
  stops := stopsAtEnd_level hbuiltin n
  exhausts := by
    cases n with
    | zero =>
        intro env s t a _ _ hrun
        cases hrun
    | succ n => exact Parse.exhausts_expression (stopsAtEnd_level hbuiltin n)

end Grammar

end PolyScript
