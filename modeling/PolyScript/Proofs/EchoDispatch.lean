import PolyScript.Proofs.EchoStatements

/-!
# Dispatching in a Passage

Handlers are asked in the same order in a passage, and they give the same answers. This is so
for all handlers if nothing stands behind the text. If something does, then it is so where the
answer is an assignment, an expression or a call in the foreground, since these end before
what stands behind them.

The look-ahead for an assignment may go on behind the text. So a handler may mistake a
statement in a passage for an assignment, and it is assumed here that this does not happen.

## Main definitions

* `Statement.isSimple`: Assignments, expressions, and calls in the foreground.
* `Parse.only`: A rule whose answers have to have a property.
* `Parse.Announced`: A rule that a look-ahead announces.
* `Parse.Unmistaken`: What is no assignment is not mistaken for one.

## Theorems

* `Parse.asks_builtin`: Handlers of the language give the same answers.
* `Parse.asks_dispatch`: So does the dispatcher.
* `Grammar.echoes_level`: All levels of a grammar do the same at the end of a text.
-/

namespace PolyScript

/-- Assignments, expressions, and calls in the foreground. -/
def Statement.isSimple : Statement → Bool
  | .assignment .. | .expression .. => true
  | .languageCall _ background _ => !background
  | _ => false

/-- A token of the text and the one that stands in its place in the passage. -/
def Passage.Resembles (P : Passage) (t u : Token) : Prop :=
  P.Same t u ∨ t.kind = .endOfInput ∧ u.kind.isStop = true

/-- A pattern that does not ask for what may stand behind a passage cannot tell the end of the
    text from it. -/
theorem TokenPattern.accepts_resembling {P : Passage} {p : TokenPattern} {t u : Token}
    (hp : p.kind.isStop = false) (h : P.Resembles t u) : p.accepts u = p.accepts t := by
  rcases h with hsame | ⟨ht, hu⟩
  · rw [accepts, accepts, hsame.kind, hsame.text]
  · have hne : ∀ kind : Kind, kind.isStop = true → kind ≠ p.kind := by
      rintro kind hkind rfl
      rw [hp] at hkind
      cases hkind
    rw [accepts, accepts, decide_eq_false (hne _ hu), decide_eq_false (hne _ (by rw [ht]; rfl))]
    rfl

/-- A handler for a construct is asked for a window of tokens. -/
def Registry.AsksFor (r : Registry) (c : Construct) (window : List Token) : Prop :=
  ∃ h ∈ r.candidates window ++ r.fallbacks, h.settings.construct = c

/-- A registry whose handlers do not ask for what may stand behind a passage. -/
def Registry.Unstopped (r : Registry) : Prop :=
  ∀ h ∈ r.handlers.toList, ∀ p ∈ h.settings.patterns, p.kind.isStop = false

/-- At the end of a passage the same kinds of tokens are ahead as in the text. -/
theorem Lexer.Copies.kinds_eq {lx mx : Lexer} {source source' : String} {ts us : List Token}
    {r r' : Option LexError} (h : lx.Copies [] mx) (hlx : lx.Within source)
    (hmx : mx.Within source') (hts : lx.Yields ts r) (hus : mx.Yields us r') :
    us.map Token.kind = ts.map Token.kind := by
  induction hts generalizing mx us with
  | done hnext hend =>
      -- With no tail behind it, the passage is over where the text is.
      have hrest := h.next_end hnext (of_decide_eq_true hend)
      have hnext' : ∃ u mx', mx.next = (.ok u, mx') ∧ u.isEnd = true := by
        rw [Lexer.next_eq, hrest]
        exact ⟨_, _, rfl, rfl⟩
      rcases hnext' with ⟨u, mx', hnext', hend'⟩
      rw [(hus.of_end hnext' hend').1]
  | fail hnext =>
      rcases h.next_error hnext with ⟨e', mx', hnext'⟩
      rw [(hus.of_error hnext').1]
  | token hnext hend _ ih =>
      rcases h.next_ok nofun hlx hmx hnext (of_decide_eq_false hend) with
        ⟨w, u, mx', hnext', hw, hw', hcopies, -⟩
      have hkind : u.kind = _ := hw'.kind.trans hw.kind.symm
      rcases hus.of_ok hnext' (by rw [Token.isEnd, hkind]; exact hend) with ⟨rest, rfl, hrest⟩
      rw [List.map_cons, List.map_cons, hkind,
        ih hcopies (hlx.next_ok hnext) (hmx.next_ok hnext') hrest]

namespace Registry

theorem unstopped_defaults : (ofSettings Settings.defaults).Unstopped := by
  unfold Unstopped
  decide +kernel

/-- The same handlers are asked for a window of the text and one of the passage. -/
theorem candidates_resembling {P : Passage} {r : Registry} (hbuiltin : r.IsBuiltin)
    (hunstopped : r.Unstopped) {first first' : Token} {ts us : List Token}
    (hfirst : P.Same first first') (hresembles : List.Forall₂ P.Resembles ts us) :
    r.candidates (first' :: us) = r.candidates (first :: ts) :=
  candidates_congr hbuiltin
    (fun h hh p hp _ _ => TokenPattern.accepts_resembling (hunstopped h hh p hp)) hfirst.kind
    (.inl hfirst) hresembles

end Registry

namespace Parse

/-- A rule whose answers have to have a property. -/
def only (good : Statement → Bool) (p : Attempt) : Attempt := do
  let answer ← p
  if answer.all good then return answer else exhausted

variable {P : Passage} {ν : Outlook} {κ : Nat → Kind} {d : Nat} {g g' : Grammar} {α β : Type}
  {good : Statement → Bool}

/-- A rule whose answers are restricted succeeds where the rule does and its answer has the
    property. -/
theorem only_ok {p : Attempt} {env : Env} {s t : State} {answer : Option Statement} :
    only good p env s = .ok answer t ↔ p env s = .ok answer t ∧ answer.all good = true := by
  unfold only
  rw [bind_run]
  cases p env s with
  | error e u => exact ⟨nofun, fun h => nomatch h.1⟩
  | ok a u =>
      by_cases h : a.all good = true
      · simp only [h, if_true]
        refine ⟨fun hrun => ?_, fun hrun => hrun.1⟩
        cases hrun
        exact ⟨rfl, h⟩
      · simp only [h, if_false, Bool.false_eq_true]
        refine ⟨nofun, fun hrun => ?_⟩
        cases hrun.1
        exact absurd hrun.2 h

/-- Everything a parser may come to. -/
def Results (S : α → Prop) (p : Parse α) : Prop :=
  ∀ (env : Env) (s t : State) (a : α), p env s = .ok a t → S a

namespace Results

variable {S : α → Prop} {T : β → Prop}

theorem pure {a : α} (h : S a) : Results S (Pure.pure a) := by
  intro env s t b hrun
  cases hrun
  exact h

theorem throw {e : ParseError} : Results S (MonadExcept.throw e : Parse α) :=
  fun _ _ _ _ => nofun

theorem bind {p : Parse α} {f : α → Parse β} (hp : Results S p)
    (hf : ∀ a, S a → Results T (f a)) : Results T (p >>= f) := by
  intro env s t b hrun
  rw [bind_run] at hrun
  split at hrun
  · exact hf _ (hp _ _ _ _ ‹_›) env _ t b hrun
  · cases hrun

theorem mono {T : α → Prop} {p : Parse α} (h : Results S p) (hS : ∀ a, S a → T a) :
    Results T p := fun env s t a hrun => hS a (h env s t a hrun)

/-- What was found before does not matter. -/
theorem behind {p : Parse α} {f : α → Parse β} (hf : ∀ a, Results T (f a)) :
    Results T (p >>= f) :=
  bind (S := fun _ => True) (fun _ _ _ _ _ => trivial) fun a _ => hf a

theorem ite {c : Prop} [Decidable c] {p q : Parse α} (hp : Results S p) (hq : Results S q) :
    Results S (if c then p else q) := by
  split
  · exact hp
  · exact hq

end Results

/-! ### Rules that look ahead -/

/-- A rule with answers that are not accepted. -/
theorem Echoes.only_fails {p q : Attempt} {Q : Option Statement → Option Statement →
    (Nat → Kind) → Prop} (h : Results (fun answer => answer.all good = false) p) :
    Echoes P ν False κ d d (only good p) q Q := by
  refine .fails fun s t a _ hrun => ?_
  rcases only_ok.1 hrun with ⟨hrun, hgood⟩
  rw [h _ _ _ _ hrun] at hgood
  cases hgood

theorem Echoes.only_bind {p p' : Parse α} {f f' : α → Attempt} {Q : Option Statement →
    Option Statement → (Nat → Kind) → Prop}
    (h : Echoes P ν False κ d d (p >>= fun a => only good (f a)) (p' >>= f') Q) :
    Echoes P ν False κ d d (only good (p >>= f)) (p' >>= f') Q := by
  have heq : only good (p >>= f) = p >>= fun a => only good (f a) := bind_assoc p f _
  rw [heq]
  exact h

theorem Echoes.only_ite {c : Prop} [Decidable c] {p q p' q' : Attempt} {Q : Option Statement →
    Option Statement → (Nat → Kind) → Prop}
    (ht : c → Echoes P ν False κ d d (only good p) p' Q)
    (he : ¬c → Echoes P ν False κ d d (only good q) q' Q) :
    Echoes P ν False κ d d (only good (if c then p else q)) (if c then p' else q') Q := by
  split
  · exact ht ‹_›
  · exact he ‹_›

theorem Echoes.only_some {s s' : Statement} (h : good s = true → s'.skeleton = s.skeleton) :
    Echoes P ν False κ d d (Parse.only good (Pure.pure (some s)))
      (Pure.pure (some s')) TwinAnswer := by
  by_cases hgood : good s = true
  · refine fun t t' a u hpair ht hrun => ?_
    rcases only_ok.1 hrun with ⟨hrun, -⟩
    exact Echoes.pure (Q := TwinAnswer) (by rw [TwinAnswer, Option.map_some, Option.map_some,
      h hgood]) t t' a u hpair ht hrun
  · exact .only_fails (.pure (by simpa using hgood))

/-- A rule that declines where it does not see what it looks for. -/
theorem Echoes.only_decline :
    Echoes P ν False κ d d (only good decline) decline TwinAnswer := by
  intro t t' a u hpair ht hrun
  exact echoes_decline t t' a u hpair ht (only_ok.1 hrun).1

/-- A rule with whatever answers. -/
theorem Echoes.only {p q : Attempt} {Q : Option Statement → Option Statement →
    (Nat → Kind) → Prop} (h : Echoes P ν False κ d d p q Q) :
    Echoes P ν False κ d d (only good p) q Q :=
  fun t t' a u hpair ht hrun => h t t' a u hpair ht (only_ok.1 hrun).1

/-- A look-ahead at the token behind a name echoes, if it takes what may stand behind a passage
    for the end of the text. -/
theorem echoes_nameThen {test : Kind → Bool}
    (htest : ∀ kind : Kind, kind.isStop = true → test kind = test .endOfInput) :
    Echoes P ν False κ d d (nameThen test) (nameThen test) fun b b' κ' =>
      b' = b ∧ κ' = κ ∧ (b = true → (κ 0).shape = .piece) := by
  refine .peekEnd (fun _ kind hkind => ?_) fun hend => .ite (fun hname => ?_) fun _ =>
    .pure ⟨rfl, rfl, nofun⟩
  · rcases Kind.cases_of_isStop hkind with rfl | rfl | rfl | rfl <;> exact .pure ⟨rfl, rfl, nofun⟩
  · refine .peekNext hend (fun _ kind hkind => ?_) fun _ =>
      .pure ⟨rfl, rfl, fun _ => shape_of_memberName hname⟩
    rw [htest kind hkind]
    exact .pure ⟨rfl, rfl, fun _ => shape_of_memberName hname⟩

/-! ### Statements made of expressions -/

theorem endsBackground_mono {isRelaxed isRelaxed' : Bool}
    (h : isRelaxed = true → isRelaxed' = true) {kind : Kind}
    (hends : endsBackground isRelaxed kind = true) : endsBackground isRelaxed' kind = true := by
  cases isRelaxed with
  | true => rwa [h rfl]
  | false => cases kind <;> first | rfl | cases hends

/-- The mark of a call in the background, by the current token and the one behind it. -/
theorem backgroundMarker_run (env : Env) (s : State) :
    backgroundMarker env s = if s.token.kind = .ampersand then
      if endsBackground s.isRelaxed s.advanced.token.kind = true then .ok true s.advanced.filled
      else .error (.unexpectedToken "newline or end of input after '&'" s.advanced.token)
        s.advanced.filled
      else .ok false s.filled := by
  unfold backgroundMarker
  rw [bind_run, check_run]
  by_cases h : s.token.kind = .ampersand
  · simp only [h, decide_true, if_true]
    rw [bind_run, consume_run, State.advanced_filled]
    simp only
    rw [bind_run, current_run]
    change (if endsBackground s.isRelaxed s.advanced.token.kind = true then pure true
      else throw (.unexpectedToken "newline or end of input after '&'" s.advanced.token) :
        Parse Bool) env s.advanced.filled = _
    split <;> rfl
  · simp only [h, decide_false, Bool.false_eq_true, if_false]
    rfl

/-- An ampersand is the last of a statement, so nothing may stand behind the text. Where
    something does, the rule must have no result in the background that would have to echo. -/
theorem echoes_backgroundMarker {f f' : Bool → Attempt}
    (h : ∀ background κ, Echoes P ν False κ 0 0 (f background) (f' background)
      TwinAnswer)
    (hlast : P.tail = [] ∨ Results (fun _ => False) (f true)) :
    Echoes P ν False κ 0 0 (backgroundMarker >>= f) (backgroundMarker >>= f')
      TwinAnswer := by
  intro s s' a t hpair hs hrun
  rw [bind_run, backgroundMarker_run] at hrun ⊢
  by_cases hmark : s.token.kind = .ampersand
  · have hend : s.token.kind ≠ .endOfInput := by rw [hmark]; decide
    have hmark' : s'.token.kind = .ampersand := by rw [hpair.kind, if_neg hend, hmark]
    have hsteps : ν.Steps 0 s.token.kind 0 := .inr (by rw [hmark]; rfl)
    have hnext := hpair.advanced hend hsteps
    rw [if_pos hmark] at hrun
    rw [if_pos hmark']
    split at hrun
    · rename_i heq
      split at heq
      · rename_i hends
        cases heq
        -- The ampersand ends the text alone, and whatever stands behind it would not be read.
        have hnone : P.tail = [] := hlast.resolve_right fun hbad => hbad _ _ _ _ hrun
        have hkind : s'.advanced.token.kind = s.advanced.token.kind := by
          rw [hnext.kind, P.stop_eq hnone]
          split
          · exact Eq.symm ‹_›
          · rfl
        rw [hkind, if_pos (endsBackground_mono hpair.frame.2.1 hends)]
        exact h true _ _ _ a t hnext.filled (State.sees _) hrun
      · cases heq
    · cases hrun
  · have hmark' : s'.token.kind ≠ .ampersand := by
      -- The passage may go on where the text alone is over, but not with an ampersand.
      rw [hpair.kind]
      split
      · intro hstop
        have hisStop := P.isStop
        rw [hstop] at hisStop
        cases hisStop
      · exact hmark
    rw [if_neg hmark] at hrun
    rw [if_neg hmark']
    exact h false _ _ _ a t hpair.filled (State.sees _) hrun

/-- The statements that are looked at, and whether something may stand behind them. -/
structure Whole (P : Passage) (ν : Outlook) (good : Statement → Bool) : Prop where
  simple : (P.tail = [] ∧ ν = .blank true) ∨ ∀ s, good s = true → s.isSimple = true
  stop : P.stop ≠ .pipe

variable (hg : g.Echoes P g') (hwhole : Whole P ν good)
include hg hwhole

omit hg in
/-- A call is looked at if it runs in the foreground, or if it is the last of the text. -/
theorem echoes_background {call call' : Expr} {p p' : Position}
    (hcall : call'.skeleton true = call.skeleton true) :
    Echoes P ν False κ 0 0
      (backgroundMarker >>= fun background =>
        only good (pure (some (.languageCall call background p))))
      (backgroundMarker >>= fun background => pure (some (.languageCall call' background p')))
      TwinAnswer := by
  refine echoes_backgroundMarker (fun background κ => .only_some fun _ => ?_) ?_
  · rw [Statement.skeleton, Statement.skeleton, hcall]
  · refine hwhole.simple.imp And.left fun hsimple env s t a hrun => ?_
    rcases only_ok.1 hrun with ⟨hrun, hgood⟩
    cases hrun
    cases hsimple _ hgood

/-- A call into a guest language. It is looked at if it runs in the foreground, and one in the
    background is looked at only at the end of the passage. -/
theorem echoes_languageCall :
    Echoes P ν False κ 0 0 (only good (languageCall g)) (languageCall g')
      TwinAnswer := by
  refine .only_bind ((echoes_nameThen fun kind hkind => ?_).bind ?_)
  · rcases Kind.cases_of_isStop hkind with rfl | rfl | rfl | rfl <;> rfl
  rintro b _ κ' ⟨rfl, hκ', hname⟩
  rw [hκ']
  refine .only_ite (fun hb => .only_bind ?_) fun _ => .only_decline
  have hshape := hname hb
  refine (echoes_chainEndsInCall (Q := fun b b' κ' => b' = b ∧ κ' = κ) hshape
    fun _ => ⟨rfl, rfl⟩).bind ?_
  rintro call _ κ' ⟨rfl, hκ'⟩
  rw [hκ']
  refine .only_ite (fun _ => .only_bind ?_) fun _ => .only_decline
  refine .current (Kind.ne_of_piece hshape).2 fun start start' _ _ => .only_bind ?_
  refine (echoes_pipeExpression hg.toEchoesExpressions hwhole.stop).bind fun e e' κ he =>
    .only_bind ?_
  exact echoes_background hwhole he

omit hg hwhole in
theorem isGuestCall_of_skeleton {e e' : Expr} (h : e'.skeleton true = e.skeleton true) :
    isGuestCall e' = isGuestCall e := by
  have hkept : ∀ e : Expr, isGuestCall (e.skeleton true) = isGuestCall e := by
    intro e
    cases e <;> rfl
  rw [← hkept, h, hkept]

/-- An expression as a statement. Whether it is marked to run in the background depends on its
    tree, which has the same skeleton in both parses. -/
theorem echoes_expressionStatement :
    Echoes P ν False κ 0 0 (only good (Handler.certainly (expressionStatement g)))
      (Handler.certainly (expressionStatement g')) TwinAnswer := by
  -- With the binds in a row the condition on the answer can be moved inside.
  have hassoc : ∀ g, Handler.certainly (expressionStatement g) = (do
      let expr ← pipeExpression g
      if isGuestCall expr then
        let background ← backgroundMarker
        return some (.languageCall expr background expr.position)
      else return some (.expression expr expr.position)) := by
    intro g
    unfold Handler.certainly expressionStatement
    rw [bind_assoc]
    congr 1
    funext expr
    split
    · rw [bind_assoc]
      rfl
    · rfl
  rw [hassoc, hassoc]
  refine .only_bind ((echoes_pipeExpression hg.toEchoesExpressions hwhole.stop).bind
    fun e e' κ he => ?_)
  rw [isGuestCall_of_skeleton he]
  refine .only_ite (fun _ => .only_bind (echoes_background hwhole he)) fun _ =>
    .only_some fun _ => ?_
  rw [Statement.skeleton, Statement.skeleton, show e'.skeleton true = e.skeleton true from he]

omit hwhole in
theorem echoes_fieldAccess :
    Echoes P ν False κ 0 0 (only good (fieldAccess g)) (fieldAccess g')
      TwinAnswer := by
  refine .only_bind ((echoes_nameThen fun kind hkind => ?_).bind ?_)
  · rcases Kind.cases_of_isStop hkind with rfl | rfl | rfl | rfl <;> rfl
  rintro b _ κ' ⟨rfl, -, -⟩
  refine .only_ite (fun _ => .only_bind ?_) fun _ => .only_decline
  refine (hg.expression _ κ' 0).bind fun e e' _ he => .only_some fun _ => ?_
  rw [Statement.skeleton, Statement.skeleton, show e'.skeleton true = e.skeleton true from he]

theorem echoes_builtinCall :
    Echoes P ν False κ 0 0 (only good (builtinCall g)) (builtinCall g')
      TwinAnswer := by
  refine .only_bind ((Echoes.check (Q := fun b b' κ' => b' = b ∧ κ' = κ ∧
    (b = true → κ 0 = .identifier)) (fun _ => by decide) ⟨rfl, rfl, of_decide_eq_true⟩).bind ?_)
  rintro b _ κ' ⟨rfl, hκ', hname⟩
  rw [hκ']
  refine .only_ite (fun hb => .only_bind ?_) fun _ => .only_decline
  refine .peekNext (by rw [hname hb]; decide) (fun _ kind hkind => ?_) fun _ =>
    .only_ite (fun _ => echoes_expressionStatement hg hwhole) fun _ => .only_decline
  rcases Kind.cases_of_isStop hkind with rfl | rfl | rfl | rfl <;> exact .only_decline

/-! ### Statements made of statements -/

omit hg hwhole

/-- Asking for a kind in a rule whose answers are restricted. The end of the text is told from
    what stands behind it, so the kind must be no kind at which a passage stops. -/
theorem Echoes.only_check {kind : Kind} {p q p' q' : Attempt} {Q : Option Statement →
    Option Statement → (Nat → Kind) → Prop}
    (hkind : κ 0 = .endOfInput → kind ≠ .endOfInput ∧ kind.isStop = false)
    (ht : κ 0 = kind → Echoes P ν False κ d d (Parse.only good p) p' Q)
    (he : κ 0 ≠ kind → Echoes P ν False κ d d (Parse.only good q) q' Q) :
    Echoes P ν False κ d d
      (Parse.only good (Parse.check kind >>= fun b => if b = true then p else q))
      (Parse.check kind >>= fun b => if b = true then p' else q') Q := by
  refine .only_bind ((Echoes.check (Q := fun b b' κ' => b' = b ∧ κ' = κ ∧
    b = decide (κ 0 = kind)) hkind ⟨rfl, rfl, rfl⟩).bind ?_)
  rintro b _ κ' ⟨rfl, hκ', hb⟩
  rw [hκ']
  refine .only_ite (fun h => ht ?_) fun h => he ?_
  · rw [hb] at h
    exact of_decide_eq_true h
  · rw [hb] at h
    exact of_decide_eq_false (Bool.eq_false_iff.2 h)

/-- A rule that never declines. Where something may stand behind the text its statements are
    not looked at. -/
theorem echoes_certainly {p q : Parse Statement} (hwhole : Whole P ν good)
    (h : P.tail = [] → Echoes P (.blank true) False κ 0 0 p q TwinStatement)
    (hresults : Results (fun s => s.isSimple = false) p) :
    Echoes P ν False κ 0 0 (only good (Handler.certainly p)) (Handler.certainly q)
      TwinAnswer := by
  rcases hwhole.simple with ⟨hlast, rfl⟩ | hsimple
  · exact .only ((h hlast).bind fun s s' _ hs => .pure (by
      rw [TwinAnswer, Option.map_some, Option.map_some, show s'.skeleton = s.skeleton from hs]))
  · refine .only_fails (hresults.bind fun s hs => .pure ?_)
    rw [Option.all_some, Bool.eq_false_iff]
    intro hgood
    rw [hsimple s hgood] at hs
    cases hs

/-- A rule that declines unless it sees something ahead, and otherwise comes to a statement that
    is not simple. -/
def Announced (ahead : Parse Bool) (p : Attempt) : Prop :=
  ∃ q, p = (ahead >>= fun b => if b = true then q else decline) ∧
    Results (fun answer => answer.all Statement.isSimple = false) q

/-- An announced rule echoes wherever what announces it does. If something follows the passage,
    then only simple statements are good, and the rule comes to none. -/
theorem echoes_announced {ahead : Parse Bool} {p q : Attempt} (hwhole : Whole P ν good)
    (hp : Announced ahead p) (hq : Announced ahead q)
    (hahead : Echoes P ν False κ 0 0 ahead ahead fun b b' κ' => b' = b ∧ κ' = κ)
    (h : P.tail = [] → Echoes P (.blank true) False κ 0 0 p q TwinAnswer) :
    Echoes P ν False κ 0 0 (only good p) q TwinAnswer := by
  rcases hp with ⟨p, rfl, hresults⟩
  rcases hq with ⟨q, rfl, -⟩
  rcases hwhole.simple with ⟨hlast, rfl⟩ | hsimple
  · exact .only (h hlast)
  · refine .only_bind (hahead.bind ?_)
    rintro b _ κ' ⟨rfl, hκ'⟩
    rw [hκ']
    refine .only_ite (fun _ => ?_) fun _ => .only_decline
    -- Behind the look-ahead the rule returns a statement that is not simple.
    refine .only_fails fun env s t answer hrun => Bool.eq_false_iff.2 fun hgood => ?_
    have hbad := hresults env s t answer hrun
    cases answer with
    | none => cases hbad
    | some s =>
        rw [Option.all_some] at hgood hbad
        rw [hsimple s hgood] at hbad
        cases hbad

/-! What a rule takes is passed over here. Only the statement that it returns matters. -/

theorem results_conditional (g : Grammar) :
    Results (fun s => s.isSimple = false) (conditional g) :=
  .behind fun _keyword => .behind fun _condition => .behind fun _onTrue =>
    .behind fun _onFalse => .pure rfl

theorem results_select (g : Grammar) : Results (fun s => s.isSimple = false) (select g) :=
  .behind fun _keyword => .behind fun _scrutinee => .behind fun _newlines =>
    .behind fun _opening => .behind fun _arms => .behind fun _closing => .pure rfl

theorem results_whileLoop (g : Grammar) : Results (fun s => s.isSimple = false) (whileLoop g) :=
  .behind fun _keyword => .behind fun _condition => .behind fun _inner => .pure rfl

theorem results_loopControl : Results (fun s => s.isSimple = false) loopControl :=
  .behind fun _token => .behind fun _state =>
    .ite .throw (.behind fun _taken => .ite (.pure rfl) (.pure rfl))

theorem results_guestBody (language : String) (names : List String) (p : Position) :
    Results (fun answer => answer.all Statement.isSimple = false)
      (guestBody language names p) := by
  refine .behind fun opening => .behind fun env => ?_
  dsimp only
  split
  · exact .throw
  · exact .behind fun _resumed => .pure rfl

theorem announced_forIn (g : Grammar) (settings : HandlerSettings) :
    Announced forInAhead (forIn g settings) :=
  ⟨_, rfl, .behind fun _keyword => .behind fun _names => .behind fun _kwIn =>
    .behind fun _arrayAhead => .ite (.behind fun _token => .throw)
      (.behind fun _iterable => .behind fun _inner => .pure rfl)⟩

theorem announced_numericFor (g : Grammar) : Announced numericForAhead (numericFor g) :=
  ⟨_, rfl, .behind fun _keyword => .behind fun _name => .behind fun _assign =>
    .behind fun _first => .behind fun _comma => .behind fun _last => .behind fun _step =>
      .behind fun _inner => .pure rfl⟩

theorem announced_codeBlock : Announced codeBlockAhead codeBlock := by
  refine ⟨_, codeBlock_eq, .behind fun head => .behind fun table => ?_⟩
  split
  · exact .throw
  · exact .behind fun _tag => .behind fun names => results_guestBody _ names head.position

/-- What a handler does, unless it is for assignments. -/
theorem echoes_rule (hg : g.Echoes P g') (hwhole : Whole P ν good) {settings : HandlerSettings}
    (hother : settings.construct ≠ .assignment) (hend : κ 0 ≠ .endOfInput)
    (hkeyword : ∀ kind, settings.construct.keyword? = some kind → κ 0 = kind) :
    Echoes P ν False κ 0 0 (only good (Handler.rule settings g))
      (Handler.rule settings g') TwinAnswer := by
  unfold Handler.rule
  -- A rule whose answers are never good is compared only where nothing stands behind the text.
  cases hconstruct : settings.construct with
  | conditional =>
      exact echoes_certainly hwhole (echoes_conditional hg) (results_conditional g)
  | select => exact echoes_certainly hwhole (echoes_select hg) (results_select g)
  | forIn =>
      have hkind : κ 0 = .kwFor := hkeyword _ (by rw [hconstruct]; rfl)
      exact echoes_announced hwhole (announced_forIn g settings) (announced_forIn g' settings)
        (echoes_forInAhead hend) fun hlast => echoes_forIn hg hlast settings hkind
  | numericFor =>
      have hkind : κ 0 = .kwFor := hkeyword _ (by rw [hconstruct]; rfl)
      exact echoes_announced hwhole (announced_numericFor g) (announced_numericFor g')
        ((echoes_numericForAhead hend).weaken id fun _ _ _ h => ⟨h.1, h.2.1⟩)
        fun hlast => echoes_numericFor hg hlast hkind
  | whileLoop => exact echoes_certainly hwhole (echoes_whileLoop hg) (results_whileLoop g)
  | breakLoop | continueLoop =>
      exact echoes_certainly hwhole (fun _ => echoes_loopControl hend) results_loopControl
  | block =>
      refine echoes_certainly hwhole (fun hlast => (echoes_block hg hlast).bind
        fun b b' _ hb => .pure ?_) (.behind fun _block => .pure rfl)
      rw [TwinStatement, Statement.skeleton, Statement.skeleton, hb]
  | codeBlock =>
      exact echoes_announced hwhole announced_codeBlock announced_codeBlock
        (echoes_codeBlockAhead hend) fun hlast => echoes_codeBlock hlast hend
  | assignment => exact absurd hconstruct hother
  | languageCall => exact echoes_languageCall hg hwhole
  | fieldAccess => exact echoes_fieldAccess hg
  | builtinCall => exact echoes_builtinCall hg hwhole
  | expression => exact echoes_expressionStatement hg hwhole

/-! ### Assignments -/

/-- What follows the look-ahead for an assignment. -/
def assigned (g : Grammar) : Attempt := do
  let target ← operand g
  if target.isAssignable then
    let _ ← expect .assign
    let _ ← skipNewlines
    let value ← pipeExpression g
    return some (.assignment target value target.position)
  else
    throw (.unsupported "assignment target"
      "only variables, qualified variables, fields and indexes can be assigned"
      target.position)

theorem assignment_eq (g : Grammar) :
    assignment g = assignmentAhead >>= fun b => if b = true then assigned g else decline := rfl

theorem isAssignable_of_skeleton {e e' : Expr} (h : e'.skeleton true = e.skeleton true) :
    e'.isAssignable = e.isAssignable := by
  have hkept : ∀ e : Expr, (e.skeleton true).isAssignable = e.isAssignable := by
    intro e
    cases e <;> rfl
  rw [← hkept, h, hkept]

/-- A target, the sign and a pipe echo, if no pipe stands behind the passage to prolong the
    value. -/
theorem echoes_assigned (hg : g.Echoes P g') (hstop : P.stop ≠ .pipe) :
    Echoes P (.blank true) False κ 0 0 (assigned g) (assigned g') TwinAnswer := by
  refine (echoes_operand hg.toEchoesExpressions).bind fun target target' κ htarget => ?_
  rw [isAssignable_of_skeleton htarget]
  refine .ite (fun _ => ?_) fun _ => .throw
  refine .expecting (k := 0) (by decide) Outlook.steps_blank fun _ _ _ _ _ => .skip ?_
  refine (echoes_pipeExpression hg.toEchoesExpressions hstop).bind fun value value' _ hvalue =>
    .pure ?_
  rw [TwinAnswer, Option.map_some, Option.map_some, Statement.skeleton, Statement.skeleton,
    show target'.skeleton true = target.skeleton true from htarget,
    show value'.skeleton true = value.skeleton true from hvalue]

section

variable {s s' t : State} {lx mx : Lexer} {a : Option Statement}

/-- The assignment sign that was taken is seen from the target in the passage, too. -/
theorem Alongside.sights_assigned (hg : g.Echoes P g')
    (h : Alongside P (.blank true) 0 s s' lx mx) (hrun : assigned g P.alone s = .ok a t) :
    mx.Sights true 0 true := by
  -- What is seen from behind the target is seen from in front of it.
  have hpair : Tandem P ⟨fun isRelaxed => mx.Sights isRelaxed 0, true⟩ 0 s s' :=
    ⟨lx, mx, { h with sees := fun _ _ hb => hb, plain := fun _ => h.plain rfl }⟩
  unfold assigned at hrun
  rw [bind_run] at hrun
  cases hoperand : operand g P.alone s with
  | error e u =>
      rw [hoperand] at hrun
      cases hrun
  | ok target u =>
      rw [hoperand] at hrun
      rcases echoes_operand hg.toEchoesExpressions s s' target u hpair s.sees hoperand with
        ⟨hfalse, -⟩ | ⟨target', u', κ', -, ⟨nx, ox, hnext⟩, -, -⟩
      · exact hfalse.elim
      simp only at hrun
      split at hrun
      · rw [bind_run, expect_run] at hrun
        by_cases hsign : u.token.kind = .assign
        · rcases hnext.next with ⟨_, v, _, -, hread, -, hend, hsame, -⟩ | ⟨hend, -⟩
          · have hkind : v.kind = .assign := by rw [hsame.kind, hsign]
            have hplain : ox.plain = ox := by
              have hmode : ox.sizeMode = false := by rw [hnext.copies.mode, hnext.plain rfl]
              rw [Lexer.plain, ← hmode]
            refine hnext.sees true true (Lexer.sights_found (by rw [hplain]; exact hread) ?_ ?_)
            · rw [Token.isEnd, hkind]
              rfl
            · rw [hkind]
              rfl
          · rw [hsign] at hend
            cases hend
        · rw [if_neg hsign] at hrun
          cases hrun
      · cases hrun

end

/-- What is no assignment, as the look-ahead sees it from where a lexer stands, is not mistaken
    for one from where another lexer stands. -/
def Unmistaken (lx mx : Lexer) (isRelaxed isRelaxed' : Bool) : Prop :=
  ∀ ts us r r', lx.Yields ts r → mx.Yields us r' →
    sightsAssign isRelaxed 0 (ts.map Token.kind) = false →
      sightsAssign isRelaxed' 0 (us.map Token.kind) = false

/-- From where two lexers stand, a rule of the text that comes to an answer that is looked at
    has the same answer in the passage. -/
def Asks (P : Passage) (good : Statement → Bool) (κ : Nat → Kind) (lx mx : Lexer)
    (isRelaxed isRelaxed' : Bool) (p q : Attempt) : Prop :=
  ∀ s s' answer t, Alongside P (.blank true) 0 s s' lx mx → s.isRelaxed = isRelaxed →
    s'.isRelaxed = isRelaxed' → s.Sees κ → p P.alone s = .ok answer t →
    answer.all good = true → ∃ answer' t' κ', q P.whole s' = .ok answer' t' ∧
      Tandem P (.blank true) 0 t t' ∧ t.Sees κ' ∧ TwinAnswer answer answer' κ'

variable {lx mx : Lexer} {isRelaxed isRelaxed' : Bool}

theorem Echoes.asks {p q : Attempt}
    (h : Echoes P (.blank true) False κ 0 0 (Parse.only good p) q TwinAnswer) :
    Asks P good κ lx mx isRelaxed isRelaxed' p q := by
  intro s s' answer t hpair _ _ hs hrun hgood
  rcases h s s' answer t ⟨lx, mx, hpair⟩ hs (only_ok.2 ⟨hrun, hgood⟩) with ⟨hfalse, -⟩ | hdone
  · exact hfalse.elim
  · exact hdone

/-- The rule for assignments gives the same answer if its look-ahead does. The look-ahead may see
    what stands behind the text, so this is where a mistake has to be excluded. -/
theorem asks_assignment (hg : g.Echoes P g') (hstop : P.stop ≠ .pipe)
    (hunmistaken : Unmistaken lx mx isRelaxed isRelaxed') :
    Asks P good κ lx mx isRelaxed isRelaxed' (assignment g) (assignment g') := by
  rintro s s' answer t hpair rfl rfl hs hrun -
  rcases Lexer.exists_yields lx with ⟨ts, r, hts⟩
  rcases Lexer.exists_yields mx with ⟨us, r', hus⟩
  rcases assignmentAhead_sees hts hpair.first hpair.sound hpair.within with ⟨u, hu, hahead⟩
  rcases assignmentAhead_sees hus hpair.second hpair.sound' hpair.within' with ⟨u', hu', hahead'⟩
  have hnext := hpair.reads hu hu'
  rw [assignment_eq, bind_run, hahead] at hrun
  rw [assignment_eq, bind_run, hahead']
  -- Alone a sign is seen only if it is taken, and then the passage has it in the same place.
  cases hsight : sightsAssign s.isRelaxed 0 (ts.map Token.kind) with
  | false =>
      rw [hsight] at hrun
      rw [hunmistaken ts us r r' hts hus hsight]
      cases hrun
      exact ⟨none, u', κ, rfl, ⟨lx, mx, hnext⟩, hs.reads hu, rfl⟩
  | true =>
      rw [hsight] at hrun
      simp only [if_true] at hrun
      have hseen : sightsAssign s'.isRelaxed 0 (us.map Token.kind) = true := by
        rcases hnext.sights_assigned hg hrun with ⟨vs, q, hvs, hsees⟩
        have hplain : mx.plain = mx := by
          have hmode : mx.sizeMode = false := by rw [hpair.copies.mode, hpair.plain rfl]
          rw [Lexer.plain, ← hmode]
        rw [hplain] at hvs
        rw [(hvs.unique hus).1] at hsees
        exact sightsAssign_mono (fun _ => rfl) hsees
      rw [hseen]
      rcases echoes_assigned hg hstop u u' answer t ⟨lx, mx, hnext⟩ (hs.reads hu) hrun with
        ⟨hfalse, -⟩ | hdone
      · exact hfalse.elim
      · exact hdone

/-- What a handler of the language does, unless it is for assignments. -/
theorem echoes_builtin (hg : g.Echoes P g') (hwhole : Whole P ν good) (hend : κ 0 ≠ .endOfInput)
    {settings : HandlerSettings} (hother : settings.construct ≠ .assignment) :
    Echoes P ν False κ 0 0 (only good ((Handler.builtin settings).parse g))
      ((Handler.builtin settings).parse g') TwinAnswer := by
  unfold Handler.builtin
  dsimp only
  cases hkeyword : settings.construct.keyword? with
  | none =>
      refine echoes_rule hg hwhole hother hend fun kind hkind => ?_
      rw [hkeyword] at hkind
      cases hkind
  | some kind =>
      refine .only_check (fun h => absurd h hend) (fun hkind => ?_) fun _ => .only_decline
      refine echoes_rule hg hwhole hother hend fun other hkind' => ?_
      rw [hkeyword] at hkind'
      cases hkind'
      exact hkind

theorem Handler.parse_assignment {settings : HandlerSettings}
    (h : settings.construct = .assignment) (g : Grammar) :
    (Handler.builtin settings).parse g = assignment g := by
  unfold Handler.builtin
  simp only [h, Construct.keyword?, Handler.rule]

/-- The handlers of the language give the same answers. -/
theorem asks_builtin (hg : g.Echoes P g') (hwhole : Whole P (.blank true) good)
    (hend : κ 0 ≠ .endOfInput) (settings : HandlerSettings)
    (hunmistaken : settings.construct = .assignment → Unmistaken lx mx isRelaxed isRelaxed') :
    Asks P good κ lx mx isRelaxed isRelaxed' ((Handler.builtin settings).parse g)
      ((Handler.builtin settings).parse g') := by
  by_cases hassignment : settings.construct = .assignment
  · rw [Handler.parse_assignment hassignment, Handler.parse_assignment hassignment]
    exact asks_assignment hg hwhole.stop (hunmistaken hassignment)
  · exact (echoes_builtin hg hwhole hend hassignment).asks

/-! ### The dispatcher -/

/-- Entering a level changes the depth and nothing that a handler is asked about. -/
theorem Asks.nested {p q : Attempt} (h : Asks P good κ lx mx isRelaxed isRelaxed' p q) :
    Asks P good κ lx mx isRelaxed isRelaxed' (nested p) (nested q) := by
  intro s s' answer t hpair hr hr' hs hrun hgood
  rw [nested_entered (enter_of_disabled P.unguarded _ _)] at hrun
  rw [nested_entered (enter_of_disabled P.unguarded' _ _)]
  rcases ok_of_around hrun with ⟨u, hinner, rfl⟩
  have hpair' : Alongside P (.blank true) 0 (s.filled.atDepth (s.depth + 1))
      (s'.filled.atDepth (s'.depth + 1)) lx mx :=
    (hpair.reads s.reads_filled s'.reads_filled).reframed ⟨rfl, rfl⟩ ⟨rfl, rfl⟩
      hpair.loopDepth hpair.relaxed
  have hsees : (s.filled.atDepth (s.depth + 1)).Sees κ :=
    State.Reframes.sees (s := s.filled) ⟨rfl, rfl⟩ (hs.reads s.reads_filled)
  rcases h _ _ answer u hpair' hr hr' hsees hinner hgood with
    ⟨answer', u', κ', hinner', hu, hsees', htwin⟩
  refine ⟨answer', u'.atDepth (Guard.exit u'.depth), κ', ?_,
    hu.reframed ⟨rfl, rfl⟩ ⟨rfl, rfl⟩ hu.frame.1 hu.frame.2, hsees', htwin⟩
  rw [Parse.around, hinner']

/-- What ends a statement of the text ends it in the passage, too. -/
theorem Tandem.conclude {s s' t : State} {statement a : Statement}
    (hstop : P.tail = [] ∨ P.stop = .kwElse) (h : Tandem P ν d s s')
    (hrun : conclude statement P.alone s = .ok a t) (statement' : Statement) :
    a = statement ∧ ∃ t', Parse.conclude statement' P.whole s' = .ok statement' t' ∧
      Tandem P ν d t t' := by
  rcases conclude_ok hrun with ⟨ha, ht, hends⟩
  refine ⟨ha, ?_⟩
  rw [conclude_run]
  by_cases hrelaxed' : s'.isRelaxed = true
  · exact ⟨s', by rw [if_pos hrelaxed'], h.reads ht (State.Reads.refl s')⟩
  · have hends' : s'.token.kind.isTerminator = true := by
      rw [h.kind]
      split
      · rw [P.stop_eq (hstop.resolve_right fun hstop => hrelaxed' (h.frame.2.2 hstop))]
        rfl
      · exact hends.resolve_left fun hrelaxed => hrelaxed' (h.frame.2.1 hrelaxed)
    exact ⟨s'.filled, by rw [if_neg hrelaxed', if_pos hends'], h.reads ht s'.reads_filled⟩

/-- Handlers that are asked in order give the same answers. The rule for assignments is the only
    one that searches behind the passage, and so it is the only one for which something has to be
    assumed. -/
theorem asks_tryHandlers (hg : g.Echoes P g') (hwhole : Whole P (.blank true) good)
    (hstop : P.tail = [] ∨ P.stop = .kwElse)
    (hend : κ 0 ≠ .endOfInput) {handlers : List Handler}
    (hbuiltin : ∀ h ∈ handlers, ∃ settings, h = Handler.builtin settings)
    (hunmistaken : (∃ h ∈ handlers, h.settings.construct = .assignment) →
      Unmistaken lx mx isRelaxed isRelaxed') (first first' : Token)
    {s s' t : State} {a : Statement} (hpair : Alongside P (.blank true) 0 s s' lx mx)
    (hr : s.isRelaxed = isRelaxed) (hr' : s'.isRelaxed = isRelaxed') (hs : s.Sees κ)
    (hgood : good a = true)
    (hrun : tryHandlers g first s.cursor handlers P.alone s = .ok a t) :
    ∃ b t', tryHandlers g' first' s'.cursor handlers P.whole s' = .ok b t' ∧
      Tandem P (.blank true) 0 t t' ∧ b.skeleton = a.skeleton := by
  induction handlers generalizing s s' with
  | nil => cases hrun
  | cons handler rest ih =>
      rcases hbuiltin handler List.mem_cons_self with ⟨settings, rfl⟩
      have hasked := (asks_builtin hg hwhole hend settings fun hconstruct =>
        hunmistaken ⟨_, List.mem_cons_self, hconstruct⟩).nested
      unfold tryHandlers at hrun ⊢
      rw [bind_run] at hrun ⊢
      split at hrun
      · rename_i answer u hanswer
        cases answer with
        | some statement =>
            have hstatement : a = statement := (conclude_ok hrun).1
            subst hstatement
            rcases hasked s s' (some a) u hpair hr hr' hs hanswer hgood with
              ⟨answer', u', κ', hanswer', hu, -, htwin⟩
            cases answer' with
            | none => cases htwin
            | some b =>
                rcases hu.conclude hstop hrun b with ⟨-, t', hrun', ht⟩
                exact ⟨b, t', by rw [hanswer']; exact hrun', ht, Option.some.inj htwin⟩
        | none =>
            -- A handler that declines has only read.
            rcases hasked s s' none u hpair hr hr' hs hanswer rfl with
              ⟨answer', u', κ', hanswer', -, -, htwin⟩
            cases answer' with
            | some b => cases htwin
            | none =>
                have hu : s.Reads u := (quiet_builtin settings g).nested _ s u hanswer
                have hu' : s'.Reads u' := (quiet_builtin settings g').nested _ s' u' hanswer'
                have hback : ∀ {s u : State}, s.Reads u →
                    ({ u with cursor := s.cursor } : State) = u ∧ u.cursor = s.cursor ∧
                      u.isRelaxed = s.isRelaxed := by
                  rintro s _ ⟨n, rfl⟩
                  exact ⟨rfl, rfl, rfl⟩
                have hunmistaken' : (∃ h ∈ rest, h.settings.construct = .assignment) →
                    Unmistaken lx mx isRelaxed isRelaxed' := by
                  rintro ⟨h, hmem, hconstruct⟩
                  exact hunmistaken ⟨h, List.mem_cons_of_mem _ hmem, hconstruct⟩
                have hrest := ih (fun h hmem => hbuiltin h (List.mem_cons_of_mem _ hmem))
                  hunmistaken' (hpair.reads hu hu') ((hback hu).2.2.trans hr)
                  ((hback hu').2.2.trans hr') (hs.reads hu) (by
                    change tryHandlers g first s.cursor rest _ { u with cursor := s.cursor } = _
                      at hrun
                    rw [(hback hu).1] at hrun
                    rw [(hback hu).2.1]
                    exact hrun)
                rcases hrest with ⟨b, t', hrun', ht⟩
                refine ⟨b, t', ?_, ht⟩
                rw [hanswer']
                change tryHandlers g' first' s'.cursor rest _ { u' with cursor := s'.cursor } = _
                rw [(hback hu').1, ← (hback hu').2.1]
                exact hrun'
      · cases hrun

theorem Tandem.resembles {s s' : State} (h : Tandem P ν d s s') :
    P.Resembles s.token s'.token := by
  by_cases hend : s.token.kind = .endOfInput
  · refine .inr ⟨hend, ?_⟩
    rw [h.kind, if_pos hend]
    exact P.isStop
  · exact .inl (h.same hend)

/-- A statement of the text has the same tree in the passage. A window that reaches behind the
    text calls the same handlers there, since no pattern asks for what may stand behind it. -/
theorem asks_dispatch {registry : Registry} (hbuiltin : registry.IsBuiltin)
    (hnear : registry.Nearsighted) (hunstopped : registry.Unstopped) (hg : g.Echoes P g')
    (hproper : g.StopsAtEnd) (hwhole : Whole P (.blank true) good)
    (hstop : P.tail = [] ∨ P.stop = .kwElse) {s s' t : State} {a : Statement}
    (hpair : Alongside P (.blank true) 0 s s' lx mx)
    (hunmistaken : registry.AsksFor .assignment
      (s.buffer.tokensFrom s.cursor registry.windowSize) →
        Unmistaken lx mx s.isRelaxed s'.isRelaxed) (hgood : good a = true)
    (hrun : dispatch registry g P.alone s = .ok a t) :
    ∃ b t', dispatch registry g' P.whole s' = .ok b t' ∧
      Tandem P (.blank true) 0 t t' ∧ b.skeleton = a.skeleton := by
  rcases dispatch_run registry g s with ⟨u, hu, -, hasked⟩
  rcases dispatch_run registry g' s' with ⟨u', hu', -, hasked'⟩
  -- At the end of the text no statement begins.
  have hend : s.token.kind ≠ .endOfInput := by
    intro hend
    rcases stopsAt_dispatch hbuiltin (Registry.excusedAt_end hend registry) (.inl hend)
      (hproper s.token hend).expression _ s rfl with ⟨_, _, _, _, hfail⟩
    cases hfail.symm.trans hrun
  have htandem : Tandem P (.blank true) 0 s s' := ⟨lx, mx, hpair⟩
  have hend' : s'.token.kind ≠ .endOfInput := by rwa [htandem.kind, if_neg hend]
  rw [hasked] at hrun
  rw [hasked']
  have hback : ∀ {s u : State}, s.Reads u → u.cursor = s.cursor ∧ u.isRelaxed = s.isRelaxed := by
    rintro s _ ⟨n, rfl⟩
    exact ⟨rfl, rfl⟩
  have hwindow := hnear.window
  cases hcount : registry.windowSize with
  | zero =>
      rw [hcount] at hrun
      cases hrun
  | succ count =>
      have hnear' : count ≤ 1 := by omega
      have hresembles : List.Forall₂ P.Resembles
          (if count = 0 then [] else [s.buffer.tokenAt (s.cursor + 1)])
          (if count = 0 then [] else [s'.buffer.tokenAt (s'.cursor + 1)]) := by
        split
        · exact .nil
        · refine .cons ?_ .nil
          have hsteps : (Outlook.blank true).Steps 0 s.token.kind 0 := Outlook.steps_blank
          have hnext := (htandem.advanced hend hsteps).resembles
          have hnot : ∀ {s : State}, s.token.kind ≠ .endOfInput →
              s.advanced.token = s.buffer.tokenAt (s.cursor + 1) := by
            intro s hend
            rw [State.token, State.tokenAt_advanced, State.cursor_advanced (decide_eq_false hend)]
          rwa [hnot hend, hnot hend'] at hnext
      rw [hcount, State.tokensFrom_near hend hnear'] at hrun hunmistaken
      rw [State.tokensFrom_near hend' hnear']
      simp only [Registry.AsksFor] at hrun hunmistaken ⊢
      rw [Registry.candidates_resembling hbuiltin hunstopped (htandem.same hend) hresembles]
      have hhandlers : ∀ h ∈ registry.candidates (s.token ::
          if count = 0 then [] else [s.buffer.tokenAt (s.cursor + 1)]) ++ registry.fallbacks,
          ∃ settings, h = Handler.builtin settings := fun h => isBuiltin_asked hbuiltin
      generalize registry.candidates _ ++ registry.fallbacks = handlers
        at hrun hhandlers hunmistaken ⊢
      rw [← (hback hu).1] at hrun
      rw [← (hback hu').1]
      exact asks_tryHandlers hg hwhole hstop hend hhandlers hunmistaken _ _ (hpair.reads hu hu')
        (hback hu).2 (hback hu').2 (s.sees.reads hu) hgood hrun

/-- At the end of a passage no statement is mistaken for an assignment. -/
theorem Alongside.unmistaken {s s' : State} (hlast : P.tail = [])
    (h : Alongside P ν d s s' lx mx) : Unmistaken lx mx s.isRelaxed s'.isRelaxed := by
  intro ts us r r' hts hus hsight
  have hcopies := h.copies
  rw [hlast] at hcopies
  rw [hcopies.kinds_eq h.within h.within' hts hus]
  by_contra hsees
  rw [Bool.not_eq_false] at hsees
  rw [sightsAssign_mono h.relaxed.1 hsees] at hsight
  cases hsight

end Parse

/-- All levels of a grammar have the same parts at the end of a passage, and the same
    expressions and patterns everywhere. -/
theorem Grammar.echoes_level {P : Passage} {registry : Registry} (hbuiltin : registry.IsBuiltin)
    (hnear : registry.Nearsighted) (hunstopped : registry.Unstopped) {n n' : Nat} (hle : n ≤ n') :
    (level registry n).Echoes P (level registry n') := by
  -- By induction on the level. The parts of a statement are those of the level below.
  induction n generalizing n' with
  | zero =>
      exact {
        toEchoesExpressions := echoesExpressions_level hbuiltin hle
        pattern := fun _ _ _ => .fails fun _ _ _ _ => nofun
        statement := fun _ _ => .fails fun _ _ _ _ => nofun
        conditional := fun _ _ => .fails fun _ _ _ _ => nofun }
  | succ n ih =>
      obtain ⟨m, rfl⟩ : ∃ m, n' = m + 1 := ⟨n' - 1, by omega⟩
      have hbelow : n ≤ m := by omega
      have hg := ih hbelow
      refine {
        toEchoesExpressions := echoesExpressions_level hbuiltin hle
        pattern := fun _ _ _ => Parse.echoes_pattern hg
        statement := fun hlast κ => ?_
        conditional := fun hlast _ => Parse.echoes_conditional hg hlast }
      rintro s s' a t ⟨lx, mx, hpair⟩ - hrun
      have hwhole : Parse.Whole P (.blank true) fun _ => true :=
        ⟨.inl ⟨hlast, rfl⟩, by rw [P.stop_eq hlast]; decide⟩
      rcases Parse.asks_dispatch hbuiltin hnear hunstopped hg (stopsAtEnd_level hbuiltin n) hwhole
        (.inl hlast) hpair (fun _ => hpair.unmistaken hlast) rfl hrun with ⟨b, t', hrun', ht, htwin⟩
      exact .inr ⟨b, t', _, hrun', ht, t.sees, htwin⟩

end PolyScript
