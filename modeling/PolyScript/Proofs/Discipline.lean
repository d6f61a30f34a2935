import PolyScript.Parser
import PolyScript.Proofs.AlikeStatement

/-!
# Facts About Single Parses

A discipline is a property of states, relative to a view, that the few operations
which touch the state keep, together with a property of errors and the states they
leave behind. `Parse.Discipline.sound` then gives the same for every parser with a
derivation, and `Parse.Discipline.keeps_level` for the whole grammar, level by
level.

Dispatching is the one rule without a derivation. It takes a window of tokens
whose length depends on the registry, and it returns to where it began when a
handler declines, so it is treated here by itself.

## Main definitions

* `Parse.View.Takes`: The view after a token.
* `Parse.Discipline`: A property that the operations keep.
* `Parse.Discipline.Yields`: An outcome that conforms to it.
* `Parse.Discipline.Keeps`: The same of all parts of a grammar.

## Theorems

* `Parse.Survey.answer`: What the answers of unbounded look-aheads say.
* `Parse.Discipline.yields_peek`, `Parse.Discipline.yields_consume` and their like: The steps
  of a derivation.
* `Parse.Discipline.sound`: Derived parsers conform.
* `Parse.Discipline.keeps_level`: Every level of the grammar conforms.
-/

namespace PolyScript

namespace Parse

/-! ### What look-aheads tell -/

/-- The kinds of the tokens ahead of a state are these. -/
def State.Sees (s : State) (κ : Nat → Kind) : Prop :=
  ∀ n, (s.buffer.tokenAt (s.cursor + n)).kind = κ n

theorem State.Sees.token {s : State} {κ : Nat → Kind} (h : s.Sees κ) : s.token.kind = κ 0 := h 0

theorem State.Sees.reads {s t : State} {κ : Nat → Kind} (h : s.Sees κ) (hreads : s.Reads t) :
    t.Sees κ := by
  rcases hreads with ⟨n, rfl⟩
  intro i
  rw [TokenBuffer.tokenAt_readMore]
  exact h i

theorem State.Sees.advanced {s : State} {κ : Nat → Kind} (h : s.Sees κ)
    (hend : κ 0 ≠ .endOfInput) : s.advanced.Sees fun i => κ (i + 1) := by
  have hnot : s.token.isEnd = false := by simp [Token.isEnd, h.token, hend]
  intro i
  rw [State.tokenAt_advanced, State.cursor_advanced hnot, Nat.add_assoc, Nat.add_comm 1 i]
  exact h (i + 1)

theorem State.sees (s : State) : s.Sees fun n => (s.buffer.tokenAt (s.cursor + n)).kind :=
  fun _ => rfl

/-- From a state that sees certain kinds, a parser comes to a value and to a state
    that sees others. -/
def Tracks {α : Type} (κ : Nat → Kind) (p : Parse α) (Q : α → (Nat → Kind) → Prop) : Prop :=
  ∀ (env : Env) (s t : State) (a : α), s.Sees κ → p env s = .ok a t → ∃ κ', t.Sees κ' ∧ Q a κ'

namespace Tracks

variable {α β : Type} {κ : Nat → Kind}

theorem pure {a : α} {Q : α → (Nat → Kind) → Prop} (h : Q a κ) : Tracks κ (Pure.pure a) Q := by
  intro env s t b hs hrun
  cases hrun
  exact ⟨κ, hs, h⟩

theorem bind {p : Parse α} {f : α → Parse β} {R : α → (Nat → Kind) → Prop}
    {Q : β → (Nat → Kind) → Prop} (hp : Tracks κ p R) (hf : ∀ a κ', R a κ' → Tracks κ' (f a) Q) :
    Tracks κ (p >>= f) Q := by
  intro env s t b hs hrun
  rw [bind_run] at hrun
  cases hmid : p env s with
  | ok a u =>
      rw [hmid] at hrun
      rcases hp env s u a hs hmid with ⟨κ', hu, hR⟩
      exact hf a κ' hR env u t b hu hrun
  | error e u =>
      rw [hmid] at hrun
      cases hrun

theorem peek {f : Kind → Parse β} {Q : β → (Nat → Kind) → Prop} (n : Nat)
    (h : Tracks κ (f (κ n)) Q) : Tracks κ (peekKind n >>= f) Q := by
  intro env s t b hs hrun
  rw [bind_run, peekKind_run, hs n] at hrun
  exact h env _ t b (hs.reads ⟨_, rfl⟩) hrun

theorem taking {f : Token → Parse β} {Q : β → (Nat → Kind) → Prop} (hκ : κ 0 ≠ .endOfInput)
    (h : ∀ t, Tracks (fun i => κ (i + 1)) (f t) Q) : Tracks κ (consume >>= f) Q := by
  intro env s t b hs hrun
  rw [bind_run, consume_run] at hrun
  exact h _ env _ t b (hs.advanced hκ) hrun

/-- A loop keeps track of the kinds ahead if its rounds do, by induction on the rounds that are
    allowed. -/
theorem loop {a : α} {f : α → Parse (α ⊕ β)} {I : α → (Nat → Kind) → Prop}
    {Q : β → (Nat → Kind) → Prop} (ha : I a κ)
    (hf : ∀ a κ, I a κ → Tracks κ (f a) fun r κ' =>
      Sum.elim (fun a => I a κ') (fun b => Q b κ') r) : Tracks κ (loop a f) Q := by
  have hrounds : ∀ n a κ, I a κ → Tracks κ (iterate f n a) Q := by
    intro n
    induction n with
    | zero =>
        intro a κ _ env s t b _ hrun
        cases hrun
    | succ n ih =>
        intro a κ ha
        refine (hf a κ ha).bind fun r κ' hr => ?_
        cases r with
        | inl next => exact ih next κ' hr
        | inr b => exact .pure hr
  exact fun env s t b hs hrun => hrounds _ a κ ha env s t b hs hrun

/-- The answer of a look-ahead. -/
theorem lookahead {p : Parse α} {V : α → Prop} (h : Tracks κ p fun a _ => V a) {env : Env}
    {s t : State} {a : α} (hs : s.Sees κ) (hrun : lookahead p env s = .ok a t) : V a := by
  change (p >>= fun result => setCursor s.cursor >>= fun _ => Pure.pure result) env s = _ at hrun
  rw [bind_run] at hrun
  cases hmid : p env s with
  | ok b u =>
      rw [hmid] at hrun
      cases hrun
      rcases h env s u a hs hmid with ⟨_, _, hV⟩
      exact hV
  | error e u =>
      rw [hmid] at hrun
      cases hrun

end Tracks

theorem LoopHead.shifted {κ : Nat → Kind} {i : Nat} (h : LoopHead (fun j => κ (j + 1)) i) :
    LoopHead κ (i + 1) := by
  induction h with
  | last hname hin => exact .last hname hin
  | more hname hcomma _ ih => exact .more hname hcomma ih

/-- A loop over items that is announced is there. -/
theorem loopHead_of_forInAhead {κ : Nat → Kind} {env : Env} {s t : State} {b : Bool}
    (hs : s.Sees κ) (hκ : κ 0 = .kwFor) (hrun : forInAhead env s = .ok b t) (hb : b = true) :
    LoopHead κ 1 := by
  refine Tracks.lookahead (V := fun b => b = true → LoopHead κ 1) (.taking (by rw [hκ]; decide)
    fun _ => ?_) hs hrun hb
  -- What is still ahead completes a head from where the loop has come to.
  refine .loop (I := fun _ κ' => LoopHead κ' 0 → LoopHead κ 1) LoopHead.shifted fun _ κ' hκ' => ?_
  refine .peek 0 ?_
  by_cases hname : (decide (κ' 0 = .identifier) || decide (κ' 0 = .underscore)) = true
  · have hname' : κ' 0 = .identifier ∨ κ' 0 = .underscore := by simpa using hname
    simp only [hname, if_true]
    refine .taking (by rcases hname' with h | h <;> rw [h] <;> decide) fun _ => .peek 0 ?_
    cases hnext : κ' (0 + 1) with
    | comma =>
        refine .taking (by rw [hnext]; decide) fun _ => .pure fun hrest => hκ' ?_
        exact .more hname' hnext hrest.shifted.shifted
    | kwIn => exact .pure fun _ => hκ' (.last hname' hnext)
    | _ => exact .pure fun h => by cases h
  · simp only [hname]
    exact .pure fun h => by cases h

/-- If the look-ahead over newlines finds a kind, then that kind stands behind them. -/
theorem nextIs_of_nextAfterNewlinesIs {kind : Kind} {κ : Nat → Kind} {env : Env} {s t : State}
    {b : Bool} (hs : s.Sees κ) (hrun : nextAfterNewlinesIs kind env s = .ok b t) (hb : b = true) :
    NextIs kind κ := by
  have htracks : Tracks κ (nextAfterNewlinesIs kind) fun b _ => b = true → NextIs kind κ := by
    refine .loop (I := fun n κ' => κ' = κ ∧ ∀ i < n, κ i = .newline) ⟨rfl, fun i hi => by omega⟩ ?_
    rintro n _ ⟨rfl, hn⟩
    refine .peek n ?_
    split
    · rename_i hnewline
      refine .pure ⟨rfl, fun i hi => ?_⟩
      rcases Nat.lt_succ_iff_lt_or_eq.1 hi with hlt | rfl
      · exact hn i hlt
      · exact hnewline
    · exact .pure fun h => ⟨n, by simpa using h, hn⟩
  rcases htracks env s t b hs hrun with ⟨_, _, h⟩
  exact h hb

/-- What the answers of unbounded look-aheads say. -/
theorem Survey.answer {stage : Stage} {κ : Nat → Kind} {p : Parse Bool} {V : Bool → Prop}
    (h : Survey stage κ p V) {env : Env} {s t : State} {b : Bool} (hs : s.Sees κ)
    (hrun : p env s = .ok b t) : V b := by
  cases h with
  | call => trivial
  | captures => trivial
  | forIn hκ => exact loopHead_of_forInAhead hs hκ hrun
  | assignment => trivial
  | newlines => exact nextIs_of_nextAfterNewlinesIs hs hrun

/-! ### Disciplines -/

/-- The view after a token, but for what is ahead of it. -/
inductive View.Takes (γ : View) (kind : Kind) : View → Prop
  | mark : kind.shape = .mark ∨ (kind.shape = .piece ∧ γ.loose = false) → γ.Takes kind γ
  | newline : kind = .newline → γ.Takes kind γ
  | opener : kind.shape = .opener → γ.Takes kind (γ.entering kind)
  | closer {n : Nat} {stage : Stage} : kind.shape = .closer → γ.opened = n + 1 →
    γ.stage = stage ∨ γ.stage = stage.entering .bitOpen →
    γ.Takes kind { γ with opened := n, stage }

theorem View.Takes.ne_end {γ γ' : View} {kind : Kind} (h : γ.Takes kind γ') :
    kind ≠ .endOfInput := by
  rintro rfl
  cases h with
  | mark h => rcases h with h | ⟨h, _⟩ <;> cases h
  | newline h => cases h
  | opener h => cases h
  | closer h => cases h

/-- A literal stands at the place of its token. -/
theorem within_literalOf {P : Position → Prop} {source : String} {t : Token} {e : Expr}
    (ht : P t.position) (h : literalOf source t = .ok e) : e.Within P := by
  have hplace : ∀ p ∈ [t.position], P p := List.forall_mem_singleton.2 ht
  unfold literalOf at h
  split at h
  · split at h
    · cases h
      exact hplace
    · cases h
  all_goals cases h
  all_goals exact hplace

/-- A literal that cannot be read is reported at the place of its token. -/
theorem ordinary_literalOf {P : Position → Prop} {source : String} {t : Token} {e : ParseError}
    (ht : P t.position) (h : literalOf source t = .error e) : e.Ordinary P := by
  unfold literalOf at h
  split at h
  · split at h
    · cases h
    · cases h
      exact ParseError.ordinary_unexpectedToken ht _
  all_goals cases h
  exact ParseError.ordinary_unexpectedToken ht _

/-- The state with other values of what the wrappers change. -/
def State.withFrame (s : State) (depth loopDepth : Nat) (isRelaxed : Bool) : State :=
  { s with depth, loopDepth, isRelaxed }

/-- A property of states that the operations of a parse keep, and what it makes of
    errors. -/
structure Discipline (P : Position → Prop) (C : Prop) (env : Env) where
  /-- What holds of a state at a point of a rule. -/
  inv : View → State → Prop
  /-- What holds of an error and the state it leaves. -/
  fails : ParseError → State → Prop
  sees : ∀ {γ : View} {s : State}, inv γ s → s.Sees γ.kind
  place : ∀ {γ : View} {s : State}, inv γ s → s.token.kind ≠ .endOfInput → P s.token.position
  reads : ∀ {γ : View} {s t : State}, inv γ s → s.Reads t → inv γ t
  take : ∀ {γ γ' : View} {s : State} {κ : Nat → Kind}, inv γ s → γ.ahead = some κ →
    γ.Takes (κ 0) γ' → inv (γ'.seeing fun i => κ (i + 1)) s.advanced
  spend : ∀ {γ : View} {s : State}, inv γ s → γ.kind 0 = .endOfInput → inv γ.spent s
  revive : ∀ {γ : View} {s : State}, inv γ s → γ.ahead = none →
    inv (γ.seeing fun _ => .endOfInput) s
  frame : ∀ {γ : View} {s : State} (depth loopDepth : Nat) (isRelaxed : Bool), inv γ s →
    inv γ (s.withFrame depth loopDepth isRelaxed)
  sizeOn : ∀ {γ : View} {s : State}, inv γ s → γ.Live → γ.stage ≠ .free →
    ∃ κ, inv (γ.sizing.seeing κ) (switchSizeMode true s)
  sizeOff : ∀ {γ : View} {s : State} {κ : Nat → Kind}, inv (γ.sizing.seeing κ) s →
    γ.stage ≠ .free → ∃ κ', inv { γ.seeing κ' with loose := true } (switchSizeMode false s)
  allowed : ∀ {γ : View} {s t : State}, inv γ s → γ.Live → γ.stage = .free →
    codeBlockAhead env s = .ok true t → C
  last : C → P (Position.after env.source.toList)
  guest : ∀ {γ : View} {s : State} {code : String} {resume : Position}, C → inv γ s → γ.Live →
    γ.stage = .free → s.token.kind = .leftBrace →
    guestCodeAt? env.source s.token.stop = some (code, resume) →
    ∃ κ, inv ((γ.coding true).seeing κ)
      { s.advanced with buffer := s.advanced.buffer.restart s.advanced.cursor resume }
  refuse : ∀ {γ : View} {s : State} {e : ParseError}, inv γ s → e.Ordinary P → fails e s
  reject : ∀ {γ : View} {s : State} {e : ParseError}, inv γ s → e.StandsAt P s.token →
    fails e s.filled
  deep : ∀ {γ : View} {s t : State}, inv γ s → s.Wanders t →
    fails (.tooDeep env.guard.maxDepth t.token.position) t.filled
  failsFrame : ∀ {e : ParseError} {s : State} (depth loopDepth : Nat) (isRelaxed : Bool),
    fails e s → fails e (s.withFrame depth loopDepth isRelaxed)
  failsSize : ∀ {e : ParseError} {s : State}, fails e s → fails e (switchSizeMode false s)

namespace Discipline

variable {P : Position → Prop} {C : Prop} {env : Env} (D : Discipline P C env)

/-- An outcome that conforms. -/
def Yields {α : Type} (Q : α → View → Prop) : EStateM.Result ParseError State α → Prop
  | .ok a t => ∃ γ, Q a γ ∧ D.inv γ t
  | .error e t => D.fails e t

/-- A part of the grammar that conforms wherever it may stand. -/
def KeepsPart {α : Type} (p : Parse α) (V : α → Prop) : Prop :=
  ∀ γ s, γ.Live → D.inv γ s → D.Yields (Settled γ V) (p env s)

/-- All parts of a grammar conform. -/
structure Keeps (g : Grammar) : Prop where
  expression : D.KeepsPart g.expression (Expr.Within P)
  operand : D.KeepsPart g.operand (Expr.Within P)
  pattern : D.KeepsPart g.pattern (Pattern.Within P)
  statement : ∀ γ s, γ.Live → γ.stage = .free → γ.kind 0 ≠ .newline → D.inv γ s →
    D.Yields (Stated P γ) (g.statement env s)
  conditional : ∀ γ s, γ.Live → γ.stage = .free → D.inv γ s →
    D.Yields (Stated P γ) (g.conditional env s)

variable {D} {α β : Type} {γ : View} {s : State}

theorem Yields.imp {Q R : α → View → Prop} {r : EStateM.Result ParseError State α}
    (h : D.Yields R r) (hQ : ∀ a γ, R a γ → Q a γ) : D.Yields Q r := by
  cases r with
  | ok a t =>
      rcases h with ⟨γ, hR, ht⟩
      exact ⟨γ, hQ a γ hR, ht⟩
  | error e t => exact h

theorem Yields.bind {p : Parse α} {f : α → Parse β} {R : α → View → Prop} {Q : β → View → Prop}
    (hp : D.Yields R (p env s)) (hf : ∀ a γ t, R a γ → D.inv γ t → D.Yields Q (f a env t)) :
    D.Yields Q ((p >>= f) env s) := by
  rw [bind_run]
  cases hrun : p env s with
  | ok a t =>
      rw [hrun] at hp
      rcases hp with ⟨γ, hR, ht⟩
      exact hf a γ t hR ht
  | error e t =>
      rw [hrun] at hp
      exact hp

theorem filled (h : D.inv γ s) : D.inv γ s.filled := D.reads h s.reads_filled

theorem exhausted {Q : α → View → Prop} (h : D.inv γ s) :
    D.Yields Q ((exhausted : Parse α) env s) := by
  exact D.deep h State.Wanders.refl

theorem yields_unexpected {Q : α → View → Prop} (h : D.inv γ s) (expected : String) :
    D.Yields Q ((unexpected expected : Parse α) env s) :=
  D.reject h (ParseError.standsAt_unexpectedToken s.token expected)

theorem iterate {f : α → Parse (α ⊕ β)} {I : α → View → Prop} {Q : β → View → Prop}
    (hf : ∀ a γ t, I a γ → D.inv γ t → D.Yields
      (fun r γ' => Sum.elim (fun a => I a γ') (fun b => Q b γ') r) (f a env t))
    (n : Nat) {a : α} (ha : I a γ) (h : D.inv γ s) : D.Yields Q (iterate f n a env s) := by
  induction n generalizing a γ s with
  | zero => exact exhausted h
  | succ n ih =>
      refine (hf a γ s ha h).bind fun r γ' t hr ht => ?_
      cases r with
      | inl next => exact ih hr ht
      | inr b => exact ⟨γ', hr, ht⟩

/-- A wrapper that only changes what the discipline does not depend on. -/
theorem around {p : Parse α} (before after : State → State) {Q : α → View → Prop}
    (hbefore : D.inv γ (before s)) (hp : ∀ t, D.inv γ t → D.Yields Q (p env t))
    (hafter : ∀ t, ∃ depth loopDepth isRelaxed, after t = t.withFrame depth loopDepth isRelaxed) :
    D.Yields Q (around before after p env s) := by
  have hinner := hp _ hbefore
  unfold Parse.around
  cases hrun : p env (before s) with
  | ok a t =>
      rw [hrun] at hinner
      rcases hinner with ⟨γ', hQ, ht⟩
      rcases hafter t with ⟨depth, loopDepth, isRelaxed, heq⟩
      exact ⟨γ', hQ, by rw [heq]; exact D.frame depth loopDepth isRelaxed ht⟩
  | error e t =>
      rw [hrun] at hinner
      rcases hafter t with ⟨depth, loopDepth, isRelaxed, heq⟩
      change D.fails e (after t)
      rw [heq]
      exact D.failsFrame depth loopDepth isRelaxed hinner

theorem nested {p : Parse α} {Q : α → View → Prop} (h : D.inv γ s)
    (hp : ∀ t, D.inv γ t → D.Yields Q (p env t)) : D.Yields Q (nested p env s) := by
  cases henter : env.guard.enter s.depth s.token.position with
  | error e =>
      rw [nested_run, henter]
      cases (enter_error henter).1
      exact D.deep h State.Wanders.refl
  | ok depth =>
      rw [nested_entered henter]
      exact around _ _ (D.frame depth s.loopDepth s.isRelaxed (filled h)) hp
        fun t => ⟨Guard.exit t.depth, t.loopDepth, t.isRelaxed, rfl⟩

/-- A literal takes one token, and its tree stands where the token does. -/
theorem yields_literal {κ : Nat → Kind} {Q : Expr → View → Prop} (h : D.inv γ s)
    (hlive : γ = γ.seeing κ) (hκ : (κ 0).isLiteral = true)
    (hQ : ∀ e : Expr, e.Within P → Q e (γ.seeing fun i => κ (i + 1))) :
    D.Yields Q (literal env s) := by
  have hkind : s.token.kind = κ 0 := by rw [(D.sees h).token, hlive]; rfl
  have hplace : P s.token.position := D.place h (by rw [hkind]; rintro h; rw [h] at hκ; cases hκ)
  rw [literal_run, ← s.advanced_filled]
  cases hliteral : literalOf env.source s.token with
  | ok e =>
      refine ⟨_, hQ e (within_literalOf hplace hliteral),
        D.take (filled h) (by rw [hlive]; rfl) (.mark ?_)⟩
      have hloose : γ.loose = false := by rw [hlive]; rfl
      rw [hloose]
      revert hκ
      cases κ 0 <;> decide
  | error e => exact D.refuse (filled h) (ordinary_literalOf hplace hliteral)

/-- A closing bracket ends the level that its opening bracket began. If another token is there,
    then the error names the places of both. -/
theorem yields_closing {o : Token} {kind : Kind} {n : Nat} {stage : Stage}
    {Q : Token → View → Prop} (h : D.inv γ s) (hkind : kind.shape = .closer) (ho : P o.position)
    (hopened : γ.opened = n + 1) (hstage : γ.stage = stage ∨ γ.stage = stage.entering .bitOpen)
    (hQ : ∀ t κ, Q t ({ γ with opened := n, stage } |>.seeing κ)) :
    D.Yields Q (expectClosing o kind env s) := by
  unfold expectClosing
  rw [bind_run, check_run]
  by_cases hclosed : s.token.kind = kind
  · have hkind0 : γ.kind 0 = kind := by rw [← (D.sees h).token, hclosed]
    simp only [hclosed, decide_true, if_true]
    -- The end of the text closes nothing, so there is something ahead.
    cases hahead : γ.ahead with
    | none =>
        rw [View.kind, hahead] at hkind0
        rw [← hkind0] at hkind
        cases hkind
    | some κ =>
        have hκ : κ 0 = kind := by rw [View.kind, hahead] at hkind0; exact hkind0
        have htakes : γ.Takes (κ 0) { γ with opened := n, stage } :=
          .closer (by rw [hκ]; exact hkind) hopened hstage
        exact ⟨_, hQ _ _, D.take (filled h) hahead htakes⟩
  · simp only [hclosed, decide_false]
    refine D.reject (filled h) ⟨rfl, ?_⟩
    exact List.forall_mem_cons.2 ⟨.inl ho, List.forall_mem_singleton.2 (.inr rfl)⟩

/-- The body of guest code, if the discipline allows it: the parse goes on behind the closing
    brace, or it fails at the end of the text. -/
theorem yields_guest {language : String} {names : List String} {p : Position}
    {Q : Option Statement → View → Prop} (h : D.inv γ s) (hC : C) (hlive : γ.Live)
    (hstage : γ.stage = .free) (hp : P p)
    (hQ : ∀ (s : Statement) (κ : Nat → Kind), s.Within P → s.hasCode = true →
      Q (some s) ((γ.coding true).seeing κ)) :
    D.Yields Q (guestBody language names p env s) := by
  -- Without a brace the block is refused; with one the code is found in the text or is never
  -- closed.
  by_cases hbrace : s.token.kind = .leftBrace
  · rw [guestBody_run language names p hbrace, ← s.advanced_filled]
    have hplace : P s.token.position := D.place h (by rw [hbrace]; decide)
    have hsees := (D.sees h).token
    rw [hbrace] at hsees
    cases hcode : guestCodeAt? env.source s.token.stop with
    | none =>
        rcases hlive with ⟨κ, hκ⟩
        have hopened : D.inv ((γ.entering (κ 0)).seeing fun i => κ (i + 1)) s.filled.advanced := by
          refine D.take (filled h) (by rw [hκ]; rfl) (.opener ?_)
          rw [hκ, View.kind_seeing] at hsees
          rw [← hsees]
          rfl
        exact D.refuse hopened
          (List.forall_mem_cons.2 ⟨hplace, List.forall_mem_singleton.2 (D.last hC)⟩)
    | some result =>
        rcases result with ⟨code, resume⟩
        have hguest := D.guest hC (filled h) hlive hstage (by rw [State.token_filled]; exact hbrace)
          (by rw [State.token_filled]; exact hcode)
        rcases hguest with ⟨κ, hinv⟩
        exact ⟨_, hQ _ κ (List.forall_mem_singleton.2 hp) rfl, hinv⟩
  · unfold guestBody
    rw [bind_run, expect_run]
    simp only [hbrace, if_false, State.token_filled]
    exact D.reject (filled h)
      (by rw [State.token_filled]; exact ParseError.standsAt_unexpectedToken _ _)

/-! ### The steps of a derivation -/

/-- What a part of expressions or patterns comes to, said as a derivation says it. -/
theorem Yields.settled {V : α → Prop} {Q : α → View → Prop}
    {r : EStateM.Result ParseError State α} (h : D.Yields (Settled γ V) r)
    (hQ : ∀ a κ, V a → Q a (γ.seeing κ)) : D.Yields Q r :=
  h.imp fun a _ ha => by
    rcases ha with ⟨hV, κ, rfl⟩
    exact hQ a κ hV

/-- What a statement comes to, said as a derivation says it. -/
theorem Yields.stated {Q : Statement → View → Prop}
    {r : EStateM.Result ParseError State Statement} (h : D.Yields (Stated P γ) r)
    (hQ : ∀ (s : Statement) κ, s.Within P → Q s ((γ.coding s.hasCode).seeing κ)) :
    D.Yields Q r :=
  h.imp fun s _ hs => by
    rcases hs with ⟨hV, κ, rfl⟩
    exact hQ s κ hV

/-- A parser that takes the last token of the text. Nothing is ahead of it afterwards, and what
    was foreseen there is forgotten. -/
theorem yields_exhausting {p : Parse α} {Q R : α → View → Prop} {κ : Nat → Kind}
    (hs : D.inv γ s) (hlive : γ = γ.seeing κ) (h0 : κ 0 ≠ .endOfInput) (h1 : κ 1 = .endOfInput)
    (hexhausts : Exhausts p) (hp : D.Yields R (p env s)) (hQ : ∀ a γ', R a γ' → Q a γ'.spent) :
    D.Yields Q (p env s) := by
  have hsees := D.sees hs
  rw [hlive] at hsees
  cases hrun : p env s with
  | ok a t =>
      rw [hrun] at hp
      rcases hp with ⟨γ', hR, ht⟩
      have hend := hexhausts env s t a (by rw [hsees.token]; exact h0) (by rw [hsees 1]; exact h1)
        hrun
      exact ⟨_, hQ a γ' hR, D.spend ht (by rw [← (D.sees ht).token, hend])⟩
  | error e t =>
      rw [hrun] at hp
      exact hp

/-- Looking at a kind tells what the view says of it. -/
theorem yields_peek {f : Kind → Parse α} {Q : α → View → Prop} (n : Nat) (hs : D.inv γ s)
    (hf : ∀ t, D.inv γ t → D.Yields Q (f (γ.kind n) env t)) :
    D.Yields Q ((peekKind n >>= f) env s) := by
  rw [bind_run, peekKind_run, D.sees hs n]
  exact hf _ (D.reads hs ⟨_, rfl⟩)

theorem yields_current {f : Token → Parse α} {Q : α → View → Prop} (hs : D.inv γ s)
    (hf : ∀ (token : Token) t, token.kind = γ.kind 0 →
      (token.kind ≠ .endOfInput → P token.position) → D.inv γ t → D.Yields Q (f token env t)) :
    D.Yields Q ((current >>= f) env s) := by
  rw [bind_run, current_run]
  exact hf s.token _ (D.sees hs).token (D.place hs) (filled hs)

/-- An error that is raised at the end of the text stands there. -/
theorem yields_refusal {f : Token → Parse α} {Q : α → View → Prop} (hs : D.inv γ s)
    (hend : γ.kind 0 = .endOfInput) (hf : ∀ token : Token, token.kind = .endOfInput →
      ∃ e : ParseError, f token = throw e ∧ e.StandsAt P token) :
    D.Yields Q ((current >>= f) env s) := by
  rcases hf s.token (by rw [(D.sees hs).token, hend]) with ⟨e, he, hstands⟩
  have hrun : (current >>= f) env s = .error e s.filled := by
    rw [bind_run, current_run]
    exact congrFun (congrFun he env) s.filled
  rw [hrun]
  exact D.reject hs hstands

/-- An unbounded look-ahead reads, and at most it wanders too far. -/
theorem yields_scan {p : Parse Bool} {V : Bool → Prop} {Q : Bool → View → Prop} {κ : Nat → Kind}
    (hs : D.inv γ s) (hlive : γ = γ.seeing κ) (hsurvey : Survey γ.stage κ p V)
    (hQ : ∀ b, V b → Q b γ) : D.Yields Q (p env s) := by
  have hsees := D.sees hs
  rw [hlive] at hsees
  rcases hsurvey.scans env s with ⟨b, t, ht, hrun⟩ | ⟨t, ht, hrun⟩
  · have hok := hrun env.guard
    rw [hok]
    exact ⟨γ, hQ b (hsurvey.answer hsees hok), D.reads hs ht⟩
  · rw [hrun env.guard]
    exact D.deep hs ht

/-- Guest code is announced only where the discipline allows it. -/
theorem yields_allowed {Q R : Bool → View → Prop} (hs : D.inv γ s) (hlive : γ.Live)
    (hstage : γ.stage = .free) (hp : D.Yields R (codeBlockAhead env s))
    (hQ : ∀ b γ', R b γ' → (b = true → C) → Q b γ') : D.Yields Q (codeBlockAhead env s) := by
  cases hrun : codeBlockAhead env s with
  | ok b t =>
      rw [hrun] at hp
      rcases hp with ⟨γ', hR, ht⟩
      refine ⟨γ', hQ b γ' hR fun hb => ?_, ht⟩
      subst hb
      exact D.allowed hs hlive hstage hrun
  | error e t =>
      rw [hrun] at hp
      exact hp

/-- Taking a token, of whichever kind the view allows. -/
theorem yields_consume {γ' : View} {κ : Nat → Kind} {Q : Token → View → Prop} (hs : D.inv γ s)
    (hahead : γ.ahead = some κ) (htakes : γ.Takes (κ 0) γ')
    (hQ : ∀ t : Token, t.kind = κ 0 → P t.position → Q t (γ'.seeing fun i => κ (i + 1))) :
    D.Yields Q (consume env s) := by
  have htoken : s.token.kind = κ 0 := by rw [(D.sees hs).token, View.kind, hahead]
  exact ⟨_, hQ s.token htoken (D.place hs (by rw [htoken]; exact htakes.ne_end)),
    D.take hs hahead htakes⟩

/-- Taking a newline. If the text ends behind it, the view is given up, since another text may
    have more there. -/
theorem yields_newline {κ : Nat → Kind} {Q : Token → View → Prop} (hs : D.inv γ s)
    (hahead : γ.ahead = some κ) (hnewline : κ 0 = .newline)
    (hQ : ∀ t, Q t (if κ 1 = .endOfInput then γ.spent else γ.seeing fun i => κ (i + 1))) :
    D.Yields Q (consume env s) := by
  refine ⟨_, hQ s.token, ?_⟩
  have htaken : D.inv (γ.seeing fun i => κ (i + 1)) s.advanced :=
    D.take hs hahead (.newline hnewline)
  by_cases hend : κ 1 = .endOfInput
  · have hspent := D.spend htaken hend
    rw [if_pos hend]
    exact hspent
  · rw [if_neg hend]
    exact htaken

/-- A size is read in its own mode. The mode is switched off whether the size was read or an
    error was met. -/
theorem yields_inSizeMode {p : Parse α} {V : α → Prop} {Q : α → View → Prop} (hs : D.inv γ s)
    (hlive : γ.Live) (hstage : γ.stage ≠ .free)
    (hp : ∀ κ t, D.inv (γ.sizing.seeing κ) t → D.Yields (Settled γ.sizing V) (p env t))
    (hQ : ∀ a κ, V a → Q a { γ.seeing κ with loose := true }) :
    D.Yields Q (inSizeMode p env s) := by
  rcases D.sizeOn hs hlive hstage with ⟨κ, hon⟩
  have hinner := hp κ _ hon
  unfold inSizeMode Parse.around
  cases hrun : p env (switchSizeMode true s) with
  | ok a t =>
      rw [hrun] at hinner
      rcases hinner with ⟨_, ⟨hV, κ', rfl⟩, ht⟩
      rcases D.sizeOff ht hstage with ⟨κ'', hoff⟩
      exact ⟨_, hQ a κ'' hV, hoff⟩
  | error e t =>
      rw [hrun] at hinner
      exact D.failsSize hinner

/-! ### Derived parsers conform -/

/-- A parser with a derivation conforms, if the grammar it is read against does. Each rule of a
    derivation is a field of the discipline or one of the steps above, so that whoever states a
    discipline has only its fields to prove. -/
theorem sound {δ : Shift} {g g' : Grammar} (hg : D.Keeps g) {m : α → α} {p q : Parse α}
    {Q : α → View → Prop} (h : Alike P C δ g g' γ m p q Q) (hs : D.inv γ s) :
    D.Yields Q (p env s) := by
  -- By induction on the derivation, one case for each rule.
  induction h generalizing s with
  | weaken _ hQ ih => exact (ih hs).imp hQ
  | pure _ hQ => exact ⟨_, hQ, hs⟩
  | bind _ _ ihp ihf => exact (ihp hs).bind fun a γ' t hR ht => ihf a γ' hR ht
  | throw he => exact D.refuse hs he
  | giveUp hend _ ih => exact ih (D.spend hs hend)
  | stop hahead _ _ ih => exact ih _ rfl (D.revive hs hahead)
  | exhaust hlive h0 h1 hexhausts _ hQ ih =>
      exact yields_exhausting hs hlive h0 h1 hexhausts (ih hs) hQ
  | peek n _ _ _ ih => exact yields_peek n hs fun _ ht => ih ht
  | current _ _ ih =>
      exact yields_current hs fun token _ hkind hplace ht => ih token hkind hplace ht
  | refuse hend hf => exact yields_refusal hs hend hf
  | languages _ _ ih => exact ih _ hs
  | state _ ih => exact ih s.isRelaxed s.loopDepth hs
  | scan hlive hsurvey hQ => exact yields_scan hs hlive hsurvey hQ
  | allowed hlive hstage _ hQ ih => exact yields_allowed hs hlive hstage (ih hs) hQ
  | take hahead hshape hQ => exact yields_consume hs hahead (.mark hshape) hQ
  | takeOpener hahead hshape hQ => exact yields_consume hs hahead (.opener hshape) hQ
  | takeNewline hahead hnewline hQ => exact yields_newline hs hahead hnewline hQ
  | closing _ hkind ho hopened hstage hQ => exact yields_closing hs hkind ho hopened hstage hQ
  | literal hlive hκ hQ => exact yields_literal hs hlive hκ hQ
  | loop _ hstart _ ih => exact iterate (fun a γ' t ha ht => ih a γ' ha ht) _ hstart hs
  | nested _ _ ih => exact nested hs fun t ht => ih ht
  | inLoop _ ih =>
      exact around _ _ (D.frame s.depth (s.loopDepth + 1) s.isRelaxed hs) (fun t ht => ih ht)
        fun t => ⟨t.depth, t.loopDepth - 1, t.isRelaxed, rfl⟩
  | terminators isRelaxed _ ih =>
      exact around (fun s => { s with isRelaxed }) _
        (D.frame s.depth s.loopDepth isRelaxed hs) (fun t ht => ih ht)
        fun t => ⟨t.depth, t.loopDepth, s.isRelaxed, rfl⟩
  | size hlive hstage _ hQ ih =>
      exact yields_inSizeMode hs hlive hstage (fun κ _ ht => ih κ ht) hQ
  | expression hlive hQ => exact (hg.expression _ s hlive hs).settled hQ
  | operand hlive hQ => exact (hg.operand _ s hlive hs).settled hQ
  | pattern hlive hQ => exact (hg.pattern _ s hlive hs).settled hQ
  | statement hlive hstage hnewline hQ =>
      exact (hg.statement _ s hlive hstage hnewline hs).stated hQ
  | conditional hlive hstage hQ => exact (hg.conditional _ s hlive hstage hs).stated hQ
  | guest hC hlive hstage hp hQ => exact yields_guest hs hC hlive hstage hp hQ

/-- What follows a derived parser that succeeds begins where its derivation says. -/
theorem exists_view {δ : Shift} {g g' : Grammar} (hg : D.Keeps g) {m : α → α} {p q : Parse α}
    {Q : α → View → Prop} (h : Alike P C δ g g' γ m p q Q) (hs : D.inv γ s)
    (hrun : p env s = .ok a t) : ∃ γ', Q a γ' ∧ D.inv γ' t := by
  have hyields := sound hg h hs
  rw [hrun] at hyields
  exact hyields

/-- A parser that is read against one grammar only. -/
theorem sound_alone {g : Grammar} (hg : D.Keeps g) {m : α → α} {p : Parse α}
    {Q : α → View → Prop} (h : Alike P C ⟨0, 0⟩ g g γ m p p Q) (hs : D.inv γ s) :
    D.Yields Q (p env s) := sound hg h hs

/-! ### Dispatching -/

theorem yields_expectTerminator (h : D.inv γ s) :
    D.Yields (fun _ γ' => γ' = γ) (expectTerminator env s) := by
  change D.Yields _ ((if s.token.kind.isTerminator = true then pure ()
    else throw (.unexpectedToken "end of statement" s.token) : Parse Unit) env s.filled)
  split
  · exact ⟨γ, rfl, filled h⟩
  · exact D.reject h (ParseError.standsAt_unexpectedToken s.token _)

/-- Asking handlers in order. One that declines has only read, so the next one is
    asked in the same situation. -/
theorem yields_tryHandlers {g : Grammar} (hg : D.Keeps g) (hproper : g.Proper)
    {handlers : List Handler} (hbuiltin : ∀ h ∈ handlers, ∃ settings, h = Handler.builtin settings)
    {κ : Nat → Kind} (hlive : γ = γ.seeing κ) (hstage : γ.stage = .free) (hκ : κ 0 ≠ .newline)
    (hs : D.inv γ s) (hready : s.filled = s) :
    D.Yields (Stated P γ) (tryHandlers g s.token s.cursor handlers env s) := by
  -- By induction on the handlers that are left. The states differ in what has been read only.
  induction handlers generalizing s with
  | nil =>
      have hnone := D.reject hs (e := .noHandler s.token.describe s.token.position)
        ⟨rfl, List.forall_mem_singleton.2 (.inr rfl)⟩
      rw [hready] at hnone
      exact hnone
  | cons handler rest ih =>
      rcases hbuiltin handler List.mem_cons_self with ⟨settings, rfl⟩
      have hasked : D.Yields (Attempted P γ κ)
          (Parse.nested ((Handler.builtin settings).parse g) env s) := by
        refine nested hs fun t ht => ?_
        rw [hlive] at ht ⊢
        exact sound_alone hg (alike_builtin hproper hstage fun _ => hκ) ht
      unfold tryHandlers
      rw [bind_run]
      cases hrun : Parse.nested ((Handler.builtin settings).parse g) env s with
      | error e t =>
          rw [hrun] at hasked
          exact hasked
      | ok answer t =>
          rw [hrun] at hasked
          cases answer with
          | some statement =>
              rcases hasked with ⟨γ', hstated, ht⟩
              change D.Yields _ ((if (!t.isRelaxed) = true then expectTerminator >>= fun _ =>
                pure statement else pure statement : Parse Statement) env t)
              split
              · refine (yields_expectTerminator ht).bind ?_
                rintro _ _ u rfl hu
                exact ⟨_, hstated, hu⟩
              · exact ⟨γ', hstated, ht⟩
          | none =>
              have hreads : s.Reads t := (quiet_builtin settings g).nested env s t hrun
              have hnext := ih (fun h hmem => hbuiltin h (List.mem_cons_of_mem _ hmem))
                (D.reads hs hreads) (hreads.filled_eq hready)
              rw [hreads.token_eq] at hnext
              rcases hreads with ⟨n, rfl⟩
              exact hnext

/-- Dispatching conforms if the parts of statements do. -/
theorem yields_dispatch {registry : Registry} (hbuiltin : registry.IsBuiltin) {g : Grammar}
    (hg : D.Keeps g) (hproper : g.Proper) (hlive : γ.Live) (hstage : γ.stage = .free)
    (hnewline : γ.kind 0 ≠ .newline) (hs : D.inv γ s) :
    D.Yields (Stated P γ) (dispatch registry g env s) := by
  rcases dispatch_cases registry g s with ⟨u, hu, hrun | ⟨hready, rest, hrun⟩⟩
  · rw [hrun]
    exact yields_unexpected (D.reads hs hu) "statement"
  · rcases hlive with ⟨κ, hκ⟩
    rw [hκ, View.kind_seeing] at hnewline
    rw [hrun]
    exact yields_tryHandlers hg hproper (fun h => isBuiltin_asked hbuiltin) hκ hstage hnewline
      (D.reads hs hu) hready

/-- Every level of the grammar conforms. -/
theorem keeps_level {registry : Registry} (hbuiltin : registry.IsBuiltin) (n : Nat) :
    D.Keeps (Grammar.level registry n) := by
  induction n with
  | zero =>
      exact ⟨fun _ _ _ h => exhausted h, fun _ _ _ h => exhausted h, fun _ _ _ h => exhausted h,
        fun _ _ _ _ _ h => exhausted h, fun _ _ _ _ h => exhausted h⟩
  | succ n ih =>
      have hproper := Grammar.proper_level hbuiltin n
      -- Parts that are derived alike to themselves conform, by what is known of the level below.
      have hderived : ∀ {α : Type} {p : Parse α} {V : α → Prop} {m : α → α},
          (∀ γ κ, Alike P C ⟨0, 0⟩ (Grammar.level registry n) (Grammar.level registry n)
            (γ.seeing κ) m p p (Settled γ V)) → D.KeepsPart p V := by
        intro α p V m h γ s hlive hs
        rcases hlive with ⟨κ, hκ⟩
        rw [hκ] at hs
        exact sound_alone ih (h γ κ) hs
      exact {
        expression := hderived fun γ κ => alike_expression hproper
        operand := hderived fun γ κ => alike_operand hproper
        pattern := hderived fun γ κ => alike_pattern hproper
        statement := fun γ s hlive hstage hnewline hs =>
          yields_dispatch hbuiltin ih hproper hlive hstage hnewline hs
        conditional := by
          rintro γ s ⟨κ, hκ⟩ hstage hs
          rw [hκ] at hs
          exact sound_alone ih (alike_conditional hproper hstage) hs }

/-! ### Whole texts -/

theorem yields_program {registry : Registry} (hbuiltin : registry.IsBuiltin) (n : Nat)
    {κ : Nat → Kind} (hs : D.inv (View.start κ) s) :
    D.Yields (fun program γ' =>
      Ended ((View.start κ).coding (statementsHaveCode program.statements))
      (fun program => StatementsWithin P program.statements) program γ')
      (program (Grammar.level registry n) env s) :=
  sound_alone (keeps_level hbuiltin n) (alike_program (γ := View.start κ) (κ := κ) rfl) hs

theorem yields_expressionText {registry : Registry} (hbuiltin : registry.IsBuiltin) (n : Nat)
    {κ : Nat → Kind} (hs : D.inv (View.start κ) s) :
    D.Yields (Ended (View.start κ) (Expr.Within P))
      (wholeText (Grammar.level registry n).expression env s) :=
  sound_alone (keeps_level hbuiltin n) (alike_expressionText (γ := View.start κ) (κ := κ)
    (Grammar.proper_level hbuiltin n)) hs

theorem yields_patternText {registry : Registry} (hbuiltin : registry.IsBuiltin) (n : Nat)
    {κ : Nat → Kind} (hs : D.inv (View.start κ) s) :
    D.Yields (Ended (View.start κ) (Pattern.Within P))
      (wholeText (Grammar.level registry n).pattern env s) :=
  sound_alone (keeps_level hbuiltin n) (alike_patternText (γ := View.start κ) (κ := κ)
    (Grammar.proper_level hbuiltin n)) hs

end Discipline

end Parse

end PolyScript
