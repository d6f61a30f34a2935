import PolyScript.Proofs.AlikeStatement
import PolyScript.Proofs.DerivedExpressions

/-!
# Statements Are Derived

The rules for statements compute derivations as those for expressions do. Some of them
begin with an expression, at the very token at which they begin themselves, and so they
ask something of the grammar there as well.

Handlers are asked one after the other. One that declines has only read, so the next one
is asked on the same tape, and whatever a handler accepts is derived. Which handlers there
are makes no difference.

## Main definitions

* `Registry.AsksAhead`: Some handler looks for guest calls ahead of all else.
* `Parse.CoversAll`: All parts of a grammar are derived behind the first token of a tape.
* `Parse.Accepts`: What a rule that may decline yields is derived.
* `Parse.Scarce`: There are too few levels of the grammar for what is left of a text.
* `Parse.Conforms`: A grammar computes derivations.

## Theorems

* `Parse.runs_pipeExpression`, `Parse.runs_body`, `Parse.runs_conditional`,
  `Parse.runs_matchArms`: Parts of statements.
* `Parse.runs_builtin`: What a handler accepts is derived.
* `Parse.runs_dispatch`: Whole statements.
* `Parse.conforms_level`: All levels of the grammar compute derivations.
* `Parse.runs_program`: Whole programs.
-/

namespace PolyScript

namespace Registry

/-- Some handler that may be asked looks ahead along dotted chains to find guest calls. -/
def AsksAhead (r : Registry) : Prop :=
  ∃ h ∈ r.handlers.toList, h.settings.enabled = true ∧ h.settings.construct = .languageCall

/-- If a handler for calls is asked at a window then the registry asks for calls ahead of
    expressions. -/
theorem asksAhead_of_asked {r : Registry} {first : Token} {rest : List Token} {h : Handler}
    (hmem : h ∈ r.candidates (first :: rest) ++ r.fallbacks)
    (hconstruct : h.settings.construct = .languageCall) : r.AsksAhead := by
  rcases List.mem_append.1 hmem with hmem | hmem
  · refine ⟨h, (mem_candidates hmem).1, ?_, hconstruct⟩
    simp only [candidates, List.mem_mergeSort, List.mem_filter, isCandidate,
      Bool.and_eq_true] at hmem
    exact hmem.2.1.1.1
  · refine ⟨h, (mem_fallbacks hmem).1, ?_, hconstruct⟩
    simp only [fallbacks, List.mem_mergeSort, List.mem_filter, Bool.and_eq_true] at hmem
    exact hmem.2.1

end Registry

namespace Parse

/-- All parts of a grammar compute derivations wherever a tape begins behind the first token
    of this one. -/
structure CoversAll (env : Env) (short ahead : Prop) (τ : Tape env.source) (g : Grammar) :
    Prop extends Covers env short τ g where
  statement : ∀ {υ : Tape env.source}, τ.Before υ →
    Runs env short υ g.statement fun s χ => DerivesStatement env ahead υ (.statement s) χ
  conditional : ∀ {υ : Tape env.source}, τ.Before υ →
    Runs env short υ g.conditional fun s χ => DerivesStatement env ahead υ (.conditional s) χ

variable {α : Type} {env : Env} {short ahead : Prop} {g : Grammar} {τ υ : Tape env.source}
  {Q : α → Tape env.source → Prop}

theorem CoversAll.upTo (hg : CoversAll env short ahead τ g) (h : τ.UpTo υ) :
    CoversAll env short ahead υ g where
  toCovers := hg.toCovers.upTo h
  statement hυ := hg.statement (h.before hυ)
  conditional hυ := hg.conditional (h.before hυ)

/-! ### Pipes -/

/-- One expression, or several. The first one begins where the rule does. -/
theorem runs_pipeExpression (ahead : Prop) (hg : Covers env short τ g)
    (hfirst : Runs env short τ g.expression fun e υ => Derives env τ (.expression e) υ) :
    Runs env short τ (pipeExpression g) fun e υ => DerivesStatement env ahead τ (.pipe e) υ := by
  refine hfirst.bind fun first υ hfirst => ?_
  refine Runs.bind (R := fun (p : List Expr × List Token) χ => ∃ es, p.1 = first :: es ∧
    DerivesStatement env ahead τ (.stages p.1 p.2) χ ∧
    (p.2 = [] → Derives env τ (.expression first) χ)) ?_ ?_
  · refine Runs.loop (I := fun (p : List Expr × List Token) χ => ∃ es, p.1 = first :: es ∧
      DerivesStatement env ahead τ (.stages p.1 p.2) χ ∧
      (p.2 = [] → Derives env τ (.expression first) χ))
      ⟨[], rfl, .stage hfirst, fun _ => hfirst⟩ ?_
    rintro ⟨stages, operators⟩ χ ⟨es, rfl, hstages, hsingle⟩
    -- A pipe may stand on the next line, and the newlines before it are passed once more.
    refine Runs.nextAfterNewlinesIs fun k hk => Runs.ite (fun hpipe => ?_) fun _ =>
      Runs.pure ⟨es, rfl, hstages, hsingle⟩
    refine Runs.skipNewlines fun l hl => ?_
    obtain rfl := hk.unique hl
    refine Runs.consume (Runs.skipNewlines fun m _ => ?_)
    have hpipe : (χ.drop k).head.kind = .pipe := of_decide_eq_true hpipe
    have hbefore := (Tape.before_tail hpipe (by decide)).trans ((χ.drop k).tail.upTo_drop m)
    have hafter : τ.UpTo χ := Tape.Before.upTo hstages.advances
    refine (hg.expression ((hafter.trans (χ.upTo_drop k)).before hbefore)).bind fun e ω he => ?_
    refine Runs.pure ⟨?_, es ++ [e], rfl, ?_, fun h => absurd h (by simp)⟩
    · exact (χ.upTo_drop k).before (hbefore.trans he.before.upTo)
    · exact .stages hstages (χ.upTo_drop k) hpipe hbefore he
  · rintro ⟨stages, operators⟩ χ ⟨es, rfl, hstages, hsingle⟩
    refine Runs.ite (fun hempty => Runs.pure (.unpiped (hsingle (List.isEmpty_iff.1 hempty))))
      fun hsome => Runs.pure (.pipe hstages fun h => hsome (List.isEmpty_iff.2 h))

theorem runs_backgroundMarker : Runs env short τ backgroundMarker fun _ υ => τ.UpTo υ := by
  refine Runs.ite_check (fun _ => Runs.consume (Runs.current (Runs.get fun s => ?_)))
    fun _ => Runs.pure (.refl τ)
  exact Runs.ite (fun _ => Runs.pure τ.upTo_tail) fun _ => Runs.throw nofun

/-! ### Blocks -/

/-- Statements, as long as something that only looks says so. -/
theorem runs_statements (hstatement : ∀ {υ : Tape env.source}, τ.UpTo υ →
      Runs env short υ g.statement fun s χ => DerivesStatement env ahead υ (.statement s) χ)
    {more : Parse Bool} (hmore : ∀ χ : Tape env.source, Runs env short χ more fun _ ω => ω = χ) :
    Runs env short τ (statements g more)
      fun ss χ => DerivesStatement env ahead τ (.statements ss) χ := by
  refine Runs.skipSeparators fun χ hχ => ?_
  refine Runs.loop (I := fun ss χ => DerivesStatement env ahead τ (.statements ss) χ)
    (.noStatements hχ) fun ss χ hss => (hmore χ).still fun b => ?_
  refine Runs.ite (fun _ => ?_) fun _ => Runs.pure hss
  refine (hstatement hss.advances).bind fun s ψ hs => ?_
  exact Runs.skipSeparators fun ω hω => Runs.pure ⟨hs.before.trans hω, .statements hss hs hω⟩

theorem runs_unlessClosed (closer : Kind) :
    Runs env short τ (unlessClosed closer) fun _ υ => υ = τ :=
  Runs.peekKind 0 (Runs.pure rfl)

theorem runs_hasMore : Runs env short τ hasMore fun _ υ => υ = τ := Runs.peekKind 0 (Runs.pure rfl)

theorem runs_block (hg : CoversAll env short ahead τ g) :
    Runs env short τ (block g) fun b υ => DerivesStatement env ahead τ (.block b) υ := by
  refine Runs.expect fun hkind => Runs.withTerminators ?_ false
  have hbefore := Tape.before_tail hkind (by decide)
  refine (runs_statements (fun h => hg.statement (hbefore.trans h)) fun _ =>
    runs_unlessClosed .rightBrace).bind fun ss χ hss => ?_
  exact Runs.expectClosing fun _ => Runs.pure (.block hkind hbefore hss χ.upTo_tail)

theorem runs_body (hg : CoversAll env short ahead τ g) :
    Runs env short τ (body g) fun b υ => DerivesStatement env ahead τ (.body b) υ := by
  refine Runs.ite_check (fun hkind => ?_) fun _ => ?_
  · refine Runs.consume (Runs.skipNewlines fun k _ => ?_)
    have hbefore := (Tape.before_tail hkind (by decide)).trans (τ.tail.upTo_drop k)
    refine (Runs.withTerminators (hg.statement hbefore) true).bind fun s ω hs => ?_
    exact Runs.pure (.single hkind hbefore hs)
  · refine Runs.skipNewlines fun k hk => ?_
    exact (runs_block (hg.upTo (τ.upTo_drop k))).imp fun b υ hb => .body hk hb

/-! ### Control flow -/

/-- Behind a body, newlines and an `else` are taken together or not at all. -/
theorem runs_otherwise (hg : CoversAll env short ahead τ g) :
    Runs env short τ (otherwise g) fun b υ => DerivesStatement env ahead τ (.otherwise b) υ := by
  -- The newlines before an else are passed only if there is one.
  refine Runs.nextAfterNewlinesIs fun k hk => Runs.ite (fun hkind => ?_) fun _ =>
    Runs.pure .noElse
  refine Runs.skipNewlines fun l hl => ?_
  obtain rfl := hk.unique hl
  have hkind : (τ.drop k).head.kind = .kwElse := of_decide_eq_true hkind
  have hbefore := Tape.before_tail hkind (by decide)
  refine Runs.consume (Runs.ite_check (fun _ => ?_) fun _ => ?_)
  · refine (Runs.nested (hg.conditional ((τ.upTo_drop k).before hbefore)) hg.guard).bind
      fun s ω hs => ?_
    exact Runs.pure (.elseIf (τ.upTo_drop k) hkind hs)
  · refine (runs_body (hg.upTo ((τ.upTo_drop k).trans hbefore.upTo))).bind fun b ω hb => ?_
    exact Runs.pure (.otherwise (τ.upTo_drop k) hkind hb)

theorem runs_conditional (hg : CoversAll env short ahead τ g) :
    Runs env short τ (conditional g)
      fun s υ => DerivesStatement env ahead τ (.conditional s) υ := by
  refine Runs.expect fun hkind => ?_
  have hbefore := Tape.before_tail hkind (by decide)
  refine (hg.expression hbefore).bind fun condition υ hcondition => ?_
  have hle := hbefore.upTo.trans hcondition.before.upTo
  refine (runs_body (hg.upTo hle)).bind fun onTrue χ htrue => ?_
  have hle' : τ.UpTo χ := hle.trans (Tape.Before.upTo htrue.advances)
  refine (runs_otherwise (hg.upTo hle')).bind fun onFalse ω hfalse => ?_
  exact Runs.pure (.conditional hkind hcondition htrue hfalse)

theorem runs_forInAhead : Runs env short τ forInAhead fun _ υ => υ = τ := by
  refine Runs.lookahead scans_forInAhead (Runs.imp (R := fun _ _ => True) ?_ fun _ _ _ => rfl)
  refine Runs.consume (Runs.loop (I := fun _ _ => True) trivial fun _ υ _ => ?_)
  refine Runs.peekKind 0 (Runs.ite (fun hname => Runs.consume (Runs.peekKind 0 ?_)) fun _ =>
    Runs.pure trivial)
  have hbefore : υ.Before υ.tail := Tape.before_tail_of_ne fun hend => by
    rw [show υ.token 0 = υ.head from rfl, hend] at hname
    cases hname
  split
  · exact Runs.consume (Runs.pure ⟨hbefore.trans υ.tail.upTo_tail, trivial⟩)
  · exact Runs.pure trivial
  · exact Runs.pure trivial

theorem runs_loopNames :
    Runs env short τ loopNames fun names υ => τ.UpTo υ ∧ names ≠ [] := by
  refine Runs.loop (I := fun _ υ => τ.UpTo υ) (.refl τ) fun names υ hυ => ?_
  refine Runs.consume (Runs.ite_check (fun hcomma => Runs.consume (Runs.pure ?_)) fun _ =>
    Runs.pure ⟨hυ.trans υ.upTo_tail, by simp⟩)
  have hbefore := υ.upTo_tail.before (Tape.before_tail hcomma (by decide))
  exact ⟨hbefore, (hυ.before hbefore).upTo⟩

/-- What a rule that may decline yields is derived. -/
def Accepts (env : Env) (ahead : Prop) (τ : Tape env.source) (result : Option Statement)
    (υ : Tape env.source) : Prop :=
  ∀ s ∈ result, DerivesStatement env ahead τ (.statement s) υ

theorem Accepts.some {s : Statement} (h : DerivesStatement env ahead τ (.statement s) υ) :
    Accepts env ahead τ (some s) υ := by
  rintro _ ⟨⟩
  exact h

theorem runs_decline : Runs env short τ decline (Accepts env ahead τ) := Runs.pure nofun

theorem runs_certainly {p : Parse Statement}
    (h : Runs env short τ p fun s υ => DerivesStatement env ahead τ (.statement s) υ) :
    Runs env short τ (Handler.certainly p) (Accepts env ahead τ) :=
  h.bind fun _ _ hs => Runs.pure (.some hs)

theorem runs_forIn (hg : CoversAll env short ahead τ g) (settings : HandlerSettings)
    (hkind : τ.head.kind = .kwFor) :
    Runs env short τ (forIn g settings) (Accepts env ahead τ) := by
  have hbefore := Tape.before_tail hkind (by decide)
  refine runs_forInAhead.still fun b => Runs.ite (fun _ => ?_) fun _ => runs_decline
  refine Runs.consume (runs_loopNames.bind ?_)
  rintro names υ ⟨hυ, hnames⟩
  have hle := hbefore.trans (hυ.trans υ.upTo_tail)
  refine Runs.expect fun _ => Runs.check .leftBracket (Runs.ite (fun _ => ?_) fun _ => ?_)
  · exact Runs.current (Runs.throw nofun)
  · refine (hg.expression hle).bind fun iterable χ hiterable => ?_
    have hle' := hle.upTo.trans hiterable.before.upTo
    refine (Runs.inLoop (runs_body (hg.upTo hle'))).bind fun inner ω hinner => ?_
    exact Runs.pure (.some (.forIn hle hnames hiterable hinner))

theorem runs_numericForAhead : Runs env short τ numericForAhead fun _ υ => υ = τ :=
  Runs.peekKind 1 (Runs.ite (fun _ => Runs.peekKind 2 (Runs.pure rfl)) fun _ => Runs.pure rfl)

theorem runs_stepClause (hg : Covers env short τ g) :
    Runs env short τ (stepClause g) fun step υ => τ.UpTo υ ∧
      ∀ e ∈ step, ∃ π : Tape env.source, τ.Before π ∧ Derives env π (.expression e) υ := by
  refine Runs.ite_check (fun hkind => Runs.consume ?_) fun _ => Runs.pure ⟨.refl τ, nofun⟩
  have hbefore := Tape.before_tail hkind (by decide)
  refine (hg.expression hbefore).bind fun e υ he => Runs.pure ⟨?_, ?_⟩
  · exact hbefore.upTo.trans he.before.upTo
  · rintro _ ⟨⟩
    exact ⟨τ.tail, hbefore, he⟩

/-- A loop over numbers, if the look-ahead for it succeeds. -/
theorem runs_numericFor (hg : CoversAll env short ahead τ g) (hkind : τ.head.kind = .kwFor) :
    Runs env short τ (numericFor g) (Accepts env ahead τ) := by
  have hkeyword := Tape.before_tail hkind (by decide)
  refine runs_numericForAhead.still fun b => Runs.ite (fun _ => ?_) fun _ => runs_decline
  -- The look ahead has found a name behind the keyword, and an equals sign.
  refine Runs.consume (Runs.consume (Runs.expect fun _ => ?_))
  have hfirst := (hkeyword.trans τ.tail.upTo_tail).trans τ.tail.tail.upTo_tail
  refine (hg.expression hfirst).bind fun first χ hderives => Runs.expect fun hcomma => ?_
  have hcomma := Tape.before_tail hcomma (by decide)
  have hlast := hfirst.trans (hderives.before.trans hcomma.upTo).upTo
  refine (hg.expression hlast).bind fun last φ hderives' => ?_
  have hstep := hlast.trans hderives'.before.upTo
  refine (runs_stepClause (hg.toCovers.upTo hstep.upTo)).bind ?_
  rintro step ρ ⟨hρ, hsteps⟩
  refine (Runs.inLoop (runs_body (hg.upTo (hstep.trans hρ).upTo))).bind fun inner ω hinner => ?_
  exact Runs.pure (.some (.numericFor hfirst hderives hcomma hderives' hsteps hρ hinner))

theorem runs_whileLoop (hg : CoversAll env short ahead τ g) :
    Runs env short τ (whileLoop g) fun s υ => DerivesStatement env ahead τ (.statement s) υ := by
  refine Runs.expect fun hkind => ?_
  have hbefore := Tape.before_tail hkind (by decide)
  refine (hg.expression hbefore).bind fun condition υ hcondition => ?_
  have hle := hbefore.upTo.trans hcondition.before.upTo
  refine (Runs.inLoop (runs_body (hg.upTo hle))).bind fun inner ω hinner => ?_
  exact Runs.pure (.whileLoop hkind hcondition hinner)

theorem runs_loopControl (hkind : τ.head.kind = .kwBreak ∨ τ.head.kind = .kwContinue) :
    Runs env short τ loopControl fun s υ => DerivesStatement env ahead τ (.statement s) υ := by
  refine Runs.current (Runs.get fun s => Runs.ite (fun _ => Runs.throw nofun) fun _ => ?_)
  refine Runs.consume (Runs.ite (fun hbreak => Runs.pure (.breakLoop hbreak)) fun hbreak => ?_)
  exact Runs.pure (.continueLoop (hkind.resolve_left hbreak))

/-! ### Matching -/

/-- An arm is added to those before it. -/
theorem runs_matchArm (hg : CoversAll env short ahead τ g) (hbefore : τ.Before υ)
    {as : List MatchArm} {χ : Tape env.source} (has : DerivesStatement env ahead υ (.arms as) χ) :
    Runs env short χ (matchArm g) fun a ω => χ.Before ω ∧ ∀ ρ, ω.UpTo ρ →
      DerivesStatement env ahead υ (.arms (as ++ [a])) ρ := by
  have hχ : τ.Before χ := hbefore.trans has.advances
  refine (hg.pattern hχ).bind fun p ψ hp => ?_
  refine Runs.skipNewlines fun k _ => Runs.expect fun harrow => Runs.skipNewlines fun l _ => ?_
  have hmid := ((ψ.upTo_drop k).before (Tape.before_tail harrow (by decide))).trans
    ((ψ.drop k).tail.upTo_drop l)
  have hbody := hχ.trans (hp.before.trans hmid.upTo).upTo
  have hrest {s : Statement} {ω : Tape env.source}
      (hs : DerivesStatement env ahead ((ψ.drop k).tail.drop l) (.statement s) ω) :
      Runs env short ω (pure (MatchArm.mk p s p.position)) fun a ω => χ.Before ω ∧ ∀ ρ, ω.UpTo ρ →
        DerivesStatement env ahead υ (.arms (as ++ [a])) ρ :=
    Runs.pure ⟨(hp.before.trans hmid.upTo).trans hs.before.upTo,
      fun ρ hρ => .arms has hp hmid hs hρ⟩
  refine Runs.ite_check (fun _ => ?_) fun _ => ?_
  · exact (runs_block (hg.upTo hbody.upTo)).bind fun b ω hb => hrest (.ofBlock hb)
  · exact (Runs.withTerminators (hg.statement hbody) true).bind fun s ω hs => hrest hs

/-- Arms up to the closing brace. Behind an arm a comma or a newline is taken, and only the brace
    may follow without one. -/
theorem runs_matchArms (hg : CoversAll env short ahead τ g) (hbefore : τ.Before υ) :
    Runs env short υ (matchArms g) fun as χ => DerivesStatement env ahead υ (.arms as) χ := by
  refine Runs.skipNewlines fun k _ => ?_
  refine Runs.loop (I := fun as χ => DerivesStatement env ahead υ (.arms as) χ)
    (.noArms (υ.upTo_drop k)) fun as χ has => (runs_unlessClosed .rightBrace).still fun b => ?_
  refine Runs.ite (fun _ => ?_) fun _ => Runs.pure has
  refine (runs_matchArm hg hbefore has).bind ?_
  rintro arm ω ⟨hafter, harms⟩
  -- What follows an arm, with or without a comma.
  have hrest (comma : Bool) {ρ : Tape env.source} (hρ : ω.UpTo ρ) : Runs env short ρ (do
      let newlines ← skipNewlines
      if comma || 0 < newlines then return .inl (as ++ [arm])
      else if ← check .rightBrace then return .inl (as ++ [arm])
      else unexpected "',' or newline between match arms")
      (Sum.elim (fun as π => χ.Before π ∧ DerivesStatement env ahead υ (.arms as) π)
        fun as π => DerivesStatement env ahead υ (.arms as) π) := by
    refine Runs.skipNewlines fun l _ => ?_
    have hend := hρ.trans (ρ.upTo_drop l)
    have hmore := And.intro (hafter.trans hend) (harms _ hend)
    exact Runs.ite (fun _ => Runs.pure hmore) fun _ =>
      Runs.ite_check (fun _ => Runs.pure hmore) fun _ => Runs.unexpected _
  exact Runs.check .comma (Runs.ite (fun _ => Runs.consume (hrest _ ω.upTo_tail))
    fun _ => hrest _ (.refl ω))

theorem runs_select (hg : CoversAll env short ahead τ g) :
    Runs env short τ (select g) fun s υ => DerivesStatement env ahead τ (.statement s) υ := by
  refine Runs.expect fun hkind => ?_
  have hbefore := Tape.before_tail hkind (by decide)
  refine (hg.expression hbefore).bind fun scrutinee υ hscrutinee => ?_
  refine Runs.skipNewlines fun k _ => Runs.expect fun hbrace => ?_
  have hmid := (υ.upTo_drop k).before (Tape.before_tail hbrace (by decide))
  have hinner := hbefore.trans (hscrutinee.before.trans hmid.upTo).upTo
  refine (runs_matchArms hg hinner).bind fun as χ has => Runs.expectClosing fun _ => ?_
  exact Runs.pure (.select hkind hscrutinee hmid has χ.upTo_tail)

/-! ### Guest code -/

theorem runs_capturesThenBrace : Runs env short τ capturesThenBrace fun _ υ => υ = τ := by
  refine Runs.lookahead scans_capturesThenBrace
    (Runs.imp (R := fun _ _ => True) ?_ fun _ _ _ => rfl)
  have hbrace {υ : Tape env.source} : Runs env short υ (check .leftBrace) fun _ _ => True :=
    Runs.peekKind 0 (Runs.pure trivial)
  refine Runs.consume (Runs.ite_check (fun _ => Runs.consume ?_) fun _ => hbrace)
  refine Runs.bind (R := fun _ _ => True) ?_ fun _ υ _ =>
    Runs.ite_check (fun _ => Runs.consume hbrace) fun _ => Runs.pure trivial
  refine Runs.loop (I := fun _ _ => True) trivial fun _ υ _ => ?_
  refine Runs.peekKind 0 (Runs.ite (fun hname => Runs.consume (Runs.pure ⟨?_, trivial⟩)) fun _ =>
    Runs.pure trivial)
  exact Tape.before_tail_of_ne fun hend => by
    rw [show υ.token 0 = υ.head from rfl, hend] at hname
    cases hname

theorem runs_captures : Runs env short τ captures fun _ υ => τ.UpTo υ := by
  refine Runs.ite_check (fun _ => Runs.consume ?_) fun _ => Runs.pure (.refl τ)
  refine Runs.bind (R := fun _ υ => τ.UpTo υ) ?_ fun names υ hυ =>
    Runs.expectClosing fun _ => Runs.pure (hυ.trans υ.upTo_tail)
  refine Runs.loop (I := fun _ υ => τ.UpTo υ) τ.upTo_tail fun names υ hυ => ?_
  refine Runs.ite_check (fun hname => Runs.consume ?_) fun _ => Runs.pure hυ
  have hbefore := Tape.before_tail hname (by decide)
  refine Runs.ite_check (fun _ => Runs.consume (Runs.pure ?_)) fun _ =>
    Runs.pure (hυ.trans hbefore.upTo)
  have hnext := hbefore.trans υ.tail.upTo_tail
  exact ⟨hnext, (hυ.before hnext).upTo⟩

/-- A block of guest code is announced by a name that introduces one. -/
theorem runs_codeBlockAhead : Runs env short τ codeBlockAhead fun b υ => υ = τ ∧ (b = true →
    env.languages.constructFor? τ.head.text τ.tail.head.kind false = some .codeBlock) := by
  refine Runs.current (Runs.peekKind 1 (Runs.languages ?_))
  dsimp only
  split
  · refine Runs.ite (fun hblock => Runs.pure ⟨rfl, fun _ => hblock⟩) fun _ => ?_
    refine Runs.ite (fun _ => Runs.pure ⟨rfl, nofun⟩) fun _ => ?_
    exact Runs.ite (fun _ => Runs.throw nofun) fun _ => Runs.pure ⟨rfl, nofun⟩
  · refine Runs.ite (fun hblock => ?_) fun _ => Runs.pure ⟨rfl, nofun⟩
    exact runs_capturesThenBrace.imp fun _ _ hυ => ⟨hυ, fun _ => hblock⟩
  · exact Runs.pure ⟨rfl, nofun⟩

theorem runs_codeBlock : Runs env short τ codeBlock (Accepts env ahead τ) := by
  rw [codeBlock_eq]
  refine runs_codeBlockAhead.bind ?_
  rintro b _ ⟨rfl, hblock⟩
  refine Runs.ite (fun hb => Runs.current (Runs.languages ?_)) fun _ => runs_decline
  rename_i τ
  cases hresolved : env.languages.resolveAt τ.head.text τ.head.position with
  | error e => exact Runs.throw (resolveAt_error hresolved)
  | ok language =>
      refine Runs.consume (runs_captures.bind fun names υ hυ => ?_)
      refine Runs.guestBody fun code ω hω => .some (.codeBlock (hblock hb) hresolved ?_)
      exact (τ.upTo_tail.trans hυ).before hω

/-! ### Assignments and expressions -/

theorem runs_assignmentAhead : Runs env short τ assignmentAhead fun _ υ => υ = τ := by
  refine Runs.get fun s => Runs.lookahead (scans_seekAssignment s.isRelaxed)
    (Runs.imp (R := fun _ _ => True) ?_ fun _ _ _ => rfl)
  refine Runs.loop (I := fun _ _ => True) trivial fun depth υ _ => ?_
  refine Runs.peekKind 0 ?_
  cases hglance : glance s.isRelaxed depth (υ.token 0).kind with
  | found => exact Runs.pure trivial
  | absent => exact Runs.pure trivial
  | deeper depth =>
      refine Runs.consume (Runs.pure ⟨?_, trivial⟩)
      refine Tape.before_tail_of_ne fun hend => ?_
      rw [show υ.token 0 = υ.head from rfl, hend] at hglance
      cases hglance

theorem runs_assignment (hg : Covers env short τ g) :
    Runs env short τ (assignment g) (Accepts env ahead τ) := by
  refine runs_assignmentAhead.still fun b => Runs.ite (fun _ => ?_) fun _ => runs_decline
  refine (runs_operand hg).bind fun target υ htarget => Runs.ite (fun hassignable => ?_)
    fun _ => Runs.throw nofun
  refine Runs.expect fun hkind => Runs.skipNewlines fun k _ => ?_
  have hbefore := (Tape.before_tail hkind (by decide)).trans (υ.tail.upTo_drop k)
  have hvalue : τ.Before (υ.tail.drop k) := Tape.Before.trans htarget.advances hbefore.upTo
  refine (runs_pipeExpression ahead (hg.upTo hvalue.upTo) (hg.expression hvalue)).bind
    fun e ω he => ?_
  exact Runs.pure (.some (.assignment htarget hassignable hbefore he))

theorem runs_nameThen (test : Kind → Bool) : Runs env short τ (nameThen test) fun b υ => υ = τ ∧
    (b = true → isMemberName τ.head.kind = true ∧ test τ.tail.head.kind = true) := by
  refine Runs.peekKind 0 (Runs.ite (fun hname => Runs.peekKind 1 (Runs.pure ⟨rfl, ?_⟩)) fun _ =>
    Runs.pure ⟨rfl, nofun⟩)
  exact fun htest => ⟨hname, htest⟩

section

variable (hg : Covers env short τ g)
  (hfirst : Runs env short τ g.expression fun e υ => Derives env τ (.expression e) υ)

include hg hfirst

theorem runs_languageCall (hahead : ahead) :
    Runs env short τ (languageCall g) (Accepts env ahead τ) := by
  refine Runs.bind (runs_nameThen _) ?_
  rintro b _ ⟨rfl, hname⟩
  refine Runs.ite (fun hb => ?_) fun _ => runs_decline
  rcases hname hb with ⟨hmember, hdot⟩
  refine runs_chainEndsInCall fun c hcalls => Runs.ite (fun hc => ?_) fun _ => runs_decline
  refine Runs.current ((runs_pipeExpression ahead hg hfirst).bind fun call υ hcall => ?_)
  refine runs_backgroundMarker.bind fun background ω hω => Runs.pure (.some ?_)
  exact .chainCall hahead hmember (of_decide_eq_true hdot) (hcalls.1 hc) hcall hω

omit hg in
theorem runs_fieldAccess : Runs env short τ (fieldAccess g) (Accepts env ahead τ) := by
  refine Runs.bind (runs_nameThen _) ?_
  rintro b _ ⟨rfl, -⟩
  refine Runs.ite (fun _ => ?_) fun _ => runs_decline
  exact hfirst.bind fun e υ he => Runs.pure (.some (.expression he))

theorem runs_expressionStatement :
    Runs env short τ (expressionStatement g)
      fun s υ => DerivesStatement env ahead τ (.statement s) υ := by
  refine (runs_pipeExpression ahead hg hfirst).bind fun e υ he => ?_
  refine Runs.ite (fun hcall => ?_) fun hcall => ?_
  · refine runs_backgroundMarker.bind fun background ω hω => ?_
    exact Runs.pure (.guestCall hcall he hω)
  · refine Runs.pure ?_
    cases he with
    | unpiped he => exact .expression he
    | pipe => exact absurd rfl hcall

theorem runs_builtinCall : Runs env short τ (builtinCall g) (Accepts env ahead τ) := by
  refine Runs.ite_check (fun _ => Runs.peekKind 1 (Runs.ite (fun _ => ?_) fun _ => runs_decline))
    fun _ => runs_decline
  exact (runs_expressionStatement hg hfirst).bind fun s υ hs => Runs.pure (.some hs)

end

/-! ### Handlers -/

section

variable (hg : CoversAll env short ahead τ g)
  (hfirst : Runs env short τ g.expression fun e υ => Derives env τ (.expression e) υ)

include hg hfirst

/-- Each rule of a handler derives a statement or declines. The rule for calls into guest
    languages needs its look-ahead to be asked by some handler. -/
theorem runs_rule {settings : HandlerSettings}
    (hahead : settings.construct = .languageCall → ahead)
    (hkeyword : ∀ kind, settings.construct.keyword? = some kind → τ.head.kind = kind) :
    Runs env short τ (Handler.rule settings g) (Accepts env ahead τ) := by
  have hcovers := hg.toCovers
  unfold Handler.rule
  -- Each construct has its own rule, and the pattern that matched names its keyword.
  cases hconstruct : settings.construct with
  | conditional =>
      exact runs_certainly ((runs_conditional hg).imp fun _ _ hs => .ofConditional hs)
  | select => exact runs_certainly (runs_select hg)
  | forIn => exact runs_forIn hg settings (hkeyword _ (by rw [hconstruct]; rfl))
  | numericFor => exact runs_numericFor hg (hkeyword _ (by rw [hconstruct]; rfl))
  | whileLoop => exact runs_certainly (runs_whileLoop hg)
  | breakLoop =>
      exact runs_certainly (runs_loopControl (.inl (hkeyword _ (by rw [hconstruct]; rfl))))
  | continueLoop =>
      exact runs_certainly (runs_loopControl (.inr (hkeyword _ (by rw [hconstruct]; rfl))))
  | block => exact runs_certainly ((runs_block hg).bind fun b υ hb => Runs.pure (.ofBlock hb))
  | codeBlock => exact runs_codeBlock
  | assignment => exact runs_assignment hcovers
  | languageCall => exact runs_languageCall hcovers hfirst (hahead hconstruct)
  | fieldAccess => exact runs_fieldAccess hfirst
  | builtinCall => exact runs_builtinCall hcovers hfirst
  | expression => exact runs_certainly (runs_expressionStatement hcovers hfirst)

/-- What a handler accepts is derived. -/
theorem runs_builtin {settings : HandlerSettings}
    (hahead : settings.construct = .languageCall → ahead) :
    Runs env short τ ((Handler.builtin settings).parse g) (Accepts env ahead τ) := by
  unfold Handler.builtin
  dsimp only
  cases hkeyword : settings.construct.keyword? with
  | none =>
      exact runs_rule hg hfirst hahead fun kind hkind => by rw [hkeyword] at hkind; cases hkind
  | some kind =>
      refine Runs.ite_check (fun hkind => runs_rule hg hfirst hahead fun other hother => ?_)
        fun _ => runs_decline
      rw [hkeyword] at hother
      cases hother
      exact hkind

end

/-! ### Dispatching -/

/-- The end of a statement is looked for, but not taken. -/
theorem runs_terminated {s : Statement} (h : DerivesStatement env ahead τ (.statement s) υ) :
    Runs env short υ (do
      if !(← get).isRelaxed then expectTerminator
      return s) fun s υ => DerivesStatement env ahead τ (.statement s) υ := by
  have hterminator : Runs env short υ expectTerminator fun _ χ => χ = υ :=
    Runs.current (Runs.ite (fun _ => Runs.pure rfl) fun _ => Runs.throw nofun)
  exact Runs.get fun t => Runs.ite (fun _ => hterminator.still fun _ => Runs.pure h)
    fun _ => Runs.pure h

/-- Asking handlers in order. One that declines has only read, so the next one is asked on
    the same tape. -/
theorem runs_tryHandlers (hg : CoversAll env short ahead τ g)
    (hfirst : Runs env short τ g.expression fun e υ => Derives env τ (.expression e) υ)
    {handlers : List Handler} (hhandlers : ∀ h ∈ handlers, ∃ settings,
      h = Handler.builtin settings ∧ (settings.construct = .languageCall → ahead))
    (first : Token) {s : State} (hs : s.Offers τ) :
    RunsFrom env short s (tryHandlers g first s.cursor handlers)
      fun a υ => DerivesStatement env ahead τ (.statement a) υ := by
  induction handlers generalizing s with
  | nil => exact Runs.throw (e := .noHandler first.describe first.position) nofun s hs
  | cons handler rest ih =>
      rcases hhandlers handler List.mem_cons_self with ⟨settings, rfl, hahead⟩
      have hasked := Runs.nested (runs_builtin hg hfirst hahead) hg.guard s hs
      refine hasked.bind fun answer t υ hrun hυ haccepts => ?_
      cases answer with
      | some statement => exact runs_terminated (haccepts statement rfl) t hυ
      | none =>
          -- The state is the one before it, up to what is in the buffer.
          have hreads : s.Reads t := (quiet_builtin settings g).nested env s t hrun
          have hnext := ih (fun h hmem => hhandlers h (List.mem_cons_of_mem _ hmem))
            (hs.reads hreads)
          rcases hreads with ⟨n, rfl⟩
          exact hnext

/-- The dispatcher derives a statement if it succeeds: the answer comes from some handler, and
    behind it stands a terminator if one is asked for. -/
theorem runs_dispatch {registry : Registry} (hbuiltin : registry.IsBuiltin)
    (hg : CoversAll env short registry.AsksAhead τ g)
    (hfirst : Runs env short τ g.expression fun e υ => Derives env τ (.expression e) υ) :
    Runs env short τ (dispatch registry g)
      fun s υ => DerivesStatement env registry.AsksAhead τ (.statement s) υ := by
  intro s hs
  have hstart : RunsFrom env short s cursor fun _ υ => υ = τ :=
    ⟨⟨τ, hs, rfl⟩, .inr (.of_same fun _ => rfl)⟩
  refine hstart.bind fun start t υ hrun hυ _ => ?_
  cases hrun
  rcases window_run registry.windowSize s with ⟨u, hu, -, hwindow⟩
  have hpending : RunsFrom env short s (window registry.windowSize) fun _ υ => υ = τ :=
    ⟨by rw [hwindow]; exact ⟨τ, hs.reads hu, rfl⟩, .inr (.of_same fun guard => by
      rw [hwindow, hwindow])⟩
  refine hpending.bind fun pending t υ hrun hυ hτ => ?_
  obtain rfl := hτ
  have hcursor : t.cursor = s.cursor := by
    rw [hwindow] at hrun
    cases hrun
    rcases hu with ⟨n, rfl⟩
    rfl
  -- The window is never empty, but the rule does not rely on it.
  cases pending with
  | nil => exact (Runs.unexpected "statement" : Runs env short _ (unexpected "statement") _) t hυ
  | cons first rest =>
      rw [← hcursor]
      refine runs_tryHandlers hg hfirst (fun h hmem => ?_) first hυ
      rcases isBuiltin_asked hbuiltin hmem with ⟨settings, rfl⟩
      exact ⟨settings, rfl, Registry.asksAhead_of_asked hmem⟩

/-! ### Levels -/

/-- The guard is on, or there are too few levels of the grammar for what is left of the
    text. -/
def Scarce (env : Env) (n : Nat) (τ : Tape env.source) : Prop :=
  env.guard.enabled = true ∨ n + τ.start ≤ env.source.utf8ByteSize

theorem Scarce.before {n m : Nat} (h : Scarce env n υ) (hbefore : τ.Before υ) (hm : m ≤ n + 1) :
    Scarce env m τ := by
  refine h.imp id fun hle => ?_
  have hlt : τ.start < υ.start := hbefore.start
  omega

/-- A grammar computes derivations. For statements there has to be one level more, because
    a statement may be an expression. -/
structure Conforms (env : Env) (ahead : Prop) (n : Nat) (g : Grammar) : Prop where
  expression : ∀ τ : Tape env.source, Runs env (Scarce env n τ) τ g.expression
    fun e υ => Derives env τ (.expression e) υ
  operand : ∀ τ : Tape env.source, Runs env (Scarce env n τ) τ g.operand
    fun e υ => Derives env τ (.operand e) υ
  pattern : ∀ τ : Tape env.source, Runs env (Scarce env n τ) τ g.pattern
    fun p υ => DerivesPattern env τ (.pattern p) υ
  statement : ∀ τ : Tape env.source, Runs env (Scarce env (n - 1) τ) τ g.statement
    fun s υ => DerivesStatement env ahead τ (.statement s) υ
  conditional : ∀ τ : Tape env.source, Runs env (Scarce env (n - 1) τ) τ g.conditional
    fun s υ => DerivesStatement env ahead τ (.conditional s) υ

theorem Conforms.covers {n : Nat} (h : Conforms env ahead n g) (τ : Tape env.source) :
    Covers env (Scarce env (n + 1) τ) τ g where
  expression hυ := (h.expression _).excuse fun hn => hn.before hυ (Nat.le_refl _)
  operand hυ := (h.operand _).excuse fun hn => hn.before hυ (Nat.le_refl _)
  pattern hυ := (h.pattern _).excuse fun hn => hn.before hυ (Nat.le_refl _)
  guard henabled := .inl henabled

theorem Conforms.coversAll {n : Nat} (h : Conforms env ahead n g) (τ : Tape env.source) :
    CoversAll env (Scarce env n τ) ahead τ g where
  expression hυ := (h.expression _).excuse fun hn => hn.before hυ (Nat.le_succ n)
  operand hυ := (h.operand _).excuse fun hn => hn.before hυ (Nat.le_succ n)
  pattern hυ := (h.pattern _).excuse fun hn => hn.before hυ (Nat.le_succ n)
  guard henabled := .inl henabled
  statement hυ := (h.statement _).excuse fun hn => hn.before hυ (by omega)
  conditional hυ := (h.conditional _).excuse fun hn => hn.before hυ (by omega)

/-- All levels of the grammar compute derivations. -/
theorem conforms_level {registry : Registry} (hbuiltin : registry.IsBuiltin) (n : Nat) :
    Conforms env registry.AsksAhead n (Grammar.level registry n) := by
  induction n with
  | zero =>
      -- There are no levels below this one, and no text has more than its bytes left.
      have hbottom {α : Type} (τ : Tape env.source) (Q : α → Tape env.source → Prop) :
          Runs env (Scarce env 0 τ) τ (exhausted : Parse α) Q := by
        have hscarce : Scarce env 0 τ := .inr (by rw [Nat.zero_add]; exact τ.start_le_size)
        exact fun s hs => ⟨fun _ => hscarce, .inl hscarce⟩
      exact ⟨fun τ => hbottom τ _, fun τ => hbottom τ _, fun τ => hbottom τ _,
        fun τ => hbottom τ _, fun τ => hbottom τ _⟩
  | succ n ih => exact {
      expression := fun τ => runs_expression (ih.covers τ)
      operand := fun τ => runs_operand (ih.covers τ)
      pattern := fun τ => runs_pattern (ih.covers τ)
      statement := fun τ => runs_dispatch hbuiltin (ih.coversAll τ) (ih.expression τ)
      conditional := fun τ => runs_conditional (ih.coversAll τ) }

/-! ### Whole texts -/

/-- With as many levels as a text has bytes only the guard may stop a parse. -/
theorem Scarce.enabled {n : Nat} (h : Scarce env n τ) (hn : env.source.utf8ByteSize < n) :
    env.guard.enabled = true := by
  rcases h with henabled | hle
  · exact henabled
  · omega

/-- The grammar for a text has more levels than that. -/
theorem conforms_forSource {registry : Registry} (hbuiltin : registry.IsBuiltin) (env : Env) :
    Conforms env registry.AsksAhead (4 * env.source.utf8ByteSize + 8)
      (Grammar.forSource registry env.source) := conforms_level hbuiltin _

variable {n : Nat}

/-- A program is derived from the whole text. -/
theorem runs_program (hg : Conforms env ahead n g) (hn : env.source.utf8ByteSize < n - 1)
    (τ : Tape env.source) : Runs env (env.guard.enabled = true) τ (program g)
      fun p υ => DerivesStatement env ahead τ (.statements p.statements) υ := by
  refine (runs_statements (fun _ => ?_) fun _ => runs_hasMore).bind fun ss υ hss => Runs.pure hss
  exact (hg.statement _).excuse fun h => h.enabled hn

/-- What holds of a part of a text wherever it is parsed holds of one that is the whole text. -/
theorem runs_wholeText {p : Parse α} {Q : α → Prop}
    (hp : ∀ υ : Tape env.source, Runs env short υ p fun a _ => Q a) (τ : Tape env.source) :
    Runs env short τ (wholeText p) fun a _ => Q a := by
  refine Runs.skipSeparators fun υ _ => (hp υ).bind fun a χ hQ => Runs.skipSeparators fun ω _ => ?_
  exact Runs.ite_check (fun _ => Runs.pure hQ) fun _ => Runs.unexpected _

end Parse

end PolyScript
