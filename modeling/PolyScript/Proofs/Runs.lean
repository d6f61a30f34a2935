import PolyScript.Proofs.Environments
import PolyScript.Proofs.Positions
import PolyScript.Proofs.Tape

/-!
# Parsers on Tapes

What a parser does on a tape. `Parse.Runs` says that from any state that offers the tape
it either fails, or ends with a value and in a state that offers another tape, and these
satisfy a condition.

Budgets have a part in it. A loop that gets ahead in every round never spends its budget,
because there are not that many places in the text. So only the nesting guard may complain
of too much depth, or a level of the grammar that is too low. The proposition `short` is
the excuse that such a complaint has to come with. Where there is no excuse, a guard makes
no difference either as long as its limit is high enough.

The rules are in the order in which a parser is read: each of them takes the first step
off and leaves the rest, on the tape behind that step.

## Main definitions

* `ParseError.IsTooDeep`: Nesting is too deep, or a budget is spent.
* `Parse.Lenient`: Guards with limits high enough make no difference.
* `Parse.Ends`, `Parse.RunsFrom`, `Parse.Runs`: What a parser does on a tape.

## Theorems

* `Parse.Runs.bind`, `Parse.Runs.consume`, `Parse.Runs.nested`: Parsers are put together.
* `Parse.Runs.loop`: A loop that gets ahead does not spend its budget.
* `Parse.Runs.skipNewlines`, `Parse.Runs.nextAfterNewlinesIs`: Newlines are skipped, or
  looked past.
* `Parse.Runs.inSizeMode`, `Parse.Runs.guestBody`: New tapes.
-/

namespace PolyScript

/-- Nesting is too deep, or a budget is spent. -/
def ParseError.IsTooDeep (e : ParseError) : Prop := ∃ limit p, e = .tooDeep limit p

namespace Parse

/-- An outcome is a value and a tape that satisfy a condition, or a failure. If it complains
    of too much depth then there is an excuse. -/
def Ends {α : Type} {source : String} (short : Prop) (Q : α → Tape source → Prop) :
    EStateM.Result ParseError State α → Prop
  | .ok a t => ∃ τ, t.Offers τ ∧ Q a τ
  | .error e _ => e.IsTooDeep → short

/-- Guards with limits high enough make no difference to a parser in a state. -/
def Lenient {α : Type} (env : Env) (p : Parse α) (s : State) : Prop :=
  ∃ limit, ∀ limit' ≥ limit, p { env with guard := ⟨limit', true⟩ } s = p env s

/-- From a state a parser comes to such an outcome, and to the same under any guard that is
    lenient enough. -/
def RunsFrom {α : Type} (env : Env) (short : Prop) (s : State) (p : Parse α)
    (Q : α → Tape env.source → Prop) : Prop :=
  Ends short Q (p env s) ∧ (short ∨ Lenient env p s)

/-- A parser does so from any state that offers a tape. -/
def Runs {α : Type} (env : Env) (short : Prop) (τ : Tape env.source) (p : Parse α)
    (Q : α → Tape env.source → Prop) : Prop :=
  ∀ s : State, s.Offers τ → RunsFrom env short s p Q

namespace Lenient

variable {α β : Type} {env : Env} {p : Parse α} {s : State}

/-- A parser that does not ask the guard. -/
theorem of_same (h : ∀ guard, p { env with guard } s = p env s) : Lenient env p s :=
  ⟨0, fun limit _ => h ⟨limit, true⟩⟩

theorem bind {p : Parse β} {f : β → Parse α} (hp : Lenient env p s)
    (hf : ∀ b t, p env s = .ok b t → Lenient env (f b) t) : Lenient env (p >>= f) s := by
  rcases hp with ⟨limit, hp⟩
  cases hrun : p env s with
  | ok b t =>
      rcases hf b t hrun with ⟨limit', hf⟩
      -- A limit has to be high enough for both parts.
      refine ⟨max limit limit', fun n hn => ?_⟩
      rw [bind_run, bind_run, hp n (by omega), hrun]
      exact hf n (by omega)
  | error e t =>
      refine ⟨limit, fun n hn => ?_⟩
      rw [bind_run, bind_run, hp n hn, hrun]

theorem around {before after : State → State} (h : Lenient env p (before s)) :
    Lenient env (around before after p) s := by
  rcases h with ⟨limit, h⟩
  refine ⟨limit, fun n hn => ?_⟩
  unfold Parse.around
  rw [h n hn]

theorem lookahead (h : Lenient env p s) : Lenient env (lookahead p) s := by
  rcases h with ⟨limit, h⟩
  refine ⟨limit, fun n hn => ?_⟩
  change (p >>= fun result => setCursor s.cursor >>= fun _ => pure result) _ s =
    (p >>= fun result => setCursor s.cursor >>= fun _ => pure result) env s
  rw [bind_run, bind_run, h n hn]
  cases p env s <;> rfl

/-- A limit beyond the depth is high enough for one level. -/
theorem nested (hguard : env.guard.enabled = false)
    (h : Lenient env p (s.filled.atDepth (s.depth + 1))) : Lenient env (nested p) s := by
  rcases h with ⟨limit, h⟩
  -- The guard lets the level pass if its limit exceeds the depth.
  refine ⟨max limit (s.depth + 1), fun n hn => ?_⟩
  have hstrict : Guard.enter ⟨n, true⟩ s.depth s.token.position = .ok (s.depth + 1) :=
    enter_of_below (fun _ => by dsimp only; omega) _
  have hlax : env.guard.enter s.depth s.token.position = .ok (s.depth + 1) :=
    enter_of_below (by rw [hguard]; nofun) _
  rw [nested_run, nested_run, hstrict, hlax]
  simp only
  rw [h n (by omega)]

end Lenient

variable {α β : Type} {env : Env} {short : Prop} {τ : Tape env.source} {p : Parse α}
  {Q : α → Tape env.source → Prop}

theorem RunsFrom.ok {s t : State} {a : α} (h : RunsFrom env short s p Q)
    (hrun : p env s = .ok a t) : ∃ υ, t.Offers υ ∧ Q a υ := by
  have hends := h.1
  rw [hrun] at hends
  exact hends

theorem RunsFrom.error {s t : State} {e : ParseError} (h : RunsFrom env short s p Q)
    (hrun : p env s = .error e t) (he : e.IsTooDeep) : short := by
  have hends := h.1
  rw [hrun] at hends
  exact hends he

/-- Two parsers in a row run if both do. The higher one of their limits is lenient enough for
    both. -/
theorem RunsFrom.bind {s : State} {p : Parse β} {f : β → Parse α} {R : β → Tape env.source → Prop}
    (hp : RunsFrom env short s p R)
    (hf : ∀ b t υ, p env s = .ok b t → t.Offers υ → R b υ → RunsFrom env short t (f b) Q) :
    RunsFrom env short s (p >>= f) Q := by
  have hnext (b : β) (t : State) (hrun : p env s = .ok b t) : RunsFrom env short t (f b) Q := by
    rcases hp.ok hrun with ⟨υ, hυ, hb⟩
    exact hf b t υ hrun hυ hb
  constructor
  · rw [bind_run]
    cases hrun : p env s with
    | ok b t => exact (hnext b t hrun).1
    | error e t => exact hp.error hrun
  -- Without an excuse both parts are lenient.
  · by_cases hshort : short
    · exact .inl hshort
    · refine .inr ((hp.2.resolve_left hshort).bind fun b t hrun => ?_)
      exact (hnext b t hrun).2.resolve_left hshort

/-- A wrapper ends as the parser inside does, on the same tape. -/
theorem Ends.around {before after : State → State} {s : State}
    (h : Ends short Q (p env (before s)))
    (hafter : ∀ (t : State) (υ : Tape env.source), t.Offers υ → (after t).Offers υ) :
    Ends short Q (Parse.around before after p env s) := by
  unfold Parse.around
  cases hrun : p env (before s) with
  | ok a t =>
      rw [hrun] at h
      rcases h with ⟨υ, hυ, ha⟩
      exact ⟨υ, hafter t υ hυ, ha⟩
  | error e t =>
      rw [hrun] at h
      exact h

namespace Runs

theorem ok (h : Runs env short τ p Q) {s t : State} {a : α} (hs : s.Offers τ)
    (hrun : p env s = .ok a t) : ∃ τ', t.Offers τ' ∧ Q a τ' := (h s hs).ok hrun

theorem error (h : Runs env short τ p Q) {s t : State} {e : ParseError} (hs : s.Offers τ)
    (hrun : p env s = .error e t) (he : e.IsTooDeep) : short := (h s hs).error hrun he

theorem lenient (h : Runs env short τ p Q) {s : State} (hs : s.Offers τ) :
    short ∨ Lenient env p s := (h s hs).2

theorem imp {R : α → Tape env.source → Prop} (h : Runs env short τ p R)
    (hQ : ∀ a υ, R a υ → Q a υ) : Runs env short τ p Q := by
  intro s hs
  have hends := (h s hs).1
  refine ⟨?_, h.lenient hs⟩
  cases hrun : p env s with
  | ok a t =>
      rw [hrun] at hends
      rcases hends with ⟨υ, hυ, ha⟩
      exact ⟨υ, hυ, hQ a υ ha⟩
  | error e t =>
      rw [hrun] at hends
      exact hends

/-- An excuse may be replaced by one that it implies. -/
theorem excuse {short' : Prop} (h : Runs env short' τ p Q) (himp : short' → short) :
    Runs env short τ p Q := by
  intro s hs
  have hends := (h s hs).1
  refine ⟨?_, (h.lenient hs).imp himp id⟩
  cases hrun : p env s with
  | ok a t =>
      rw [hrun] at hends
      exact hends
  | error e t =>
      rw [hrun] at hends
      exact fun he => himp (hends he)

/-- A parser that does not ask the guard. -/
theorem of_same (h : ∀ s : State, s.Offers τ → Ends short Q (p env s))
    (hsame : ∀ s guard, p { env with guard } s = p env s) : Runs env short τ p Q :=
  fun s hs => ⟨h s hs, .inr (.of_same (hsame s))⟩

theorem pure {a : α} (h : Q a τ) : Runs env short τ (Pure.pure a) Q :=
  of_same (fun _ hs => ⟨τ, hs, h⟩) fun _ _ => rfl

theorem throw {e : ParseError} (h : ¬e.IsTooDeep) :
    Runs env short τ (MonadExcept.throw e : Parse α) Q :=
  of_same (fun _ _ he => absurd he h) fun _ _ => rfl

theorem bind {p : Parse β} {f : β → Parse α} {R : β → Tape env.source → Prop}
    (hp : Runs env short τ p R) (hf : ∀ b υ, R b υ → Runs env short υ (f b) Q) :
    Runs env short τ (p >>= f) Q :=
  fun s hs => (hp s hs).bind fun b t υ _ hυ hb => hf b υ hb t hυ

/-- A parser that only looks is followed by another one on the same tape. -/
theorem still {p : Parse β} {f : β → Parse α} (hp : Runs env short τ p fun _ υ => υ = τ)
    (hf : ∀ b, Runs env short τ (f b) Q) : Runs env short τ (p >>= f) Q := by
  refine bind hp ?_
  rintro b _ rfl
  exact hf b

theorem ite {c : Prop} [Decidable c] {q : Parse α} (hp : c → Runs env short τ p Q)
    (hq : ¬c → Runs env short τ q Q) : Runs env short τ (if c then p else q) Q := by
  split
  · exact hp ‹_›
  · exact hq ‹_›

/-! ### Looking and taking -/

theorem peek {f : Token → Parse α} (n : Nat) (h : Runs env short τ (f (τ.token n)) Q) :
    Runs env short τ (peek n >>= f) Q := by
  refine bind (R := fun t υ => t = τ.token n ∧ υ = τ) (of_same (fun s hs => ?_) fun _ _ => rfl) ?_
  · rw [peek_run]
    exact ⟨τ, hs.reads ⟨_, rfl⟩, hs.2 n, rfl⟩
  · rintro _ _ ⟨rfl, rfl⟩
    exact h

theorem peekKind {f : Kind → Parse α} (n : Nat) (h : Runs env short τ (f (τ.token n).kind) Q) :
    Runs env short τ (peekKind n >>= f) Q := by
  refine bind (R := fun kind υ => kind = (τ.token n).kind ∧ υ = τ) (peek n (pure ⟨rfl, rfl⟩)) ?_
  rintro _ _ ⟨rfl, rfl⟩
  exact h

theorem current {f : Token → Parse α} (h : Runs env short τ (f τ.head) Q) :
    Runs env short τ (current >>= f) Q := peek 0 h

theorem check {f : Bool → Parse α} (kind : Kind)
    (h : Runs env short τ (f (decide (τ.head.kind = kind))) Q) :
    Runs env short τ (check kind >>= f) Q := by
  refine bind (R := fun b υ => b = decide (τ.head.kind = kind) ∧ υ = τ)
    (peekKind 0 (pure ⟨rfl, rfl⟩)) ?_
  rintro _ _ ⟨rfl, rfl⟩
  exact h

theorem ite_check {kind : Kind} {q : Parse α} (hp : τ.head.kind = kind → Runs env short τ p Q)
    (hq : τ.head.kind ≠ kind → Runs env short τ q Q) :
    Runs env short τ (Parse.check kind >>= fun c => if c = true then p else q) Q :=
  check kind (ite (fun h => hp (of_decide_eq_true h))
    fun h => hq (of_decide_eq_false (Bool.not_eq_true _ ▸ h)))

/-- A parser that does nothing but take the current token. -/
theorem taken {Q : Token → Tape env.source → Prop} (h : Q τ.head τ.tail) :
    Runs env short τ Parse.consume Q := by
  refine of_same (fun s hs => ?_) fun _ _ => rfl
  rw [consume_run, hs.token]
  exact ⟨τ.tail, hs.advanced, h⟩

theorem consume {f : Token → Parse α} (h : Runs env short τ.tail (f τ.head) Q) :
    Runs env short τ (consume >>= f) Q := by
  refine bind (R := fun t υ => t = τ.head ∧ υ = τ.tail) (taken ⟨rfl, rfl⟩) ?_
  rintro _ _ ⟨rfl, rfl⟩
  exact h

theorem unexpected (expected : String) : Runs env short τ (unexpected expected : Parse α) Q :=
  current (throw nofun)

theorem expect {f : Token → Parse α} {kind : Kind}
    (h : τ.head.kind = kind → Runs env short τ.tail (f τ.head) Q) :
    Runs env short τ (expect kind >>= f) Q := by
  refine bind (R := fun t υ => τ.head.kind = kind ∧ t = τ.head ∧ υ = τ.tail) ?_ ?_
  · exact ite_check (fun hkind => taken ⟨hkind, rfl, rfl⟩) fun _ => unexpected _
  · rintro _ _ ⟨hkind, rfl, rfl⟩
    exact h hkind

theorem expectClosing {f : Token → Parse α} {opening : Token} {closer : Kind}
    (h : τ.head.kind = closer → Runs env short τ.tail (f τ.head) Q) :
    Runs env short τ (expectClosing opening closer >>= f) Q := by
  refine bind (R := fun t υ => τ.head.kind = closer ∧ t = τ.head ∧ υ = τ.tail) ?_ ?_
  · exact ite_check (fun hkind => taken ⟨hkind, rfl, rfl⟩) fun _ => current (throw nofun)
  · rintro _ _ ⟨hkind, rfl, rfl⟩
    exact h hkind

/-- What is read of the environment must not be the guard. -/
theorem read {f : Env → Parse α} (h : Runs env short τ (f env) Q)
    (hsame : ∀ guard, f { env with guard } = f env) :
    Runs env short τ (MonadReaderOf.read >>= f) Q := by
  refine fun s hs => ⟨(h s hs).1, (h.lenient hs).imp id ?_⟩
  rintro ⟨limit, hlimit⟩
  refine ⟨limit, fun n hn => ?_⟩
  change f { env with guard := ⟨n, true⟩ } { env with guard := ⟨n, true⟩ } s = f env env s
  rw [hsame]
  exact hlimit n hn

theorem languages {f : LanguageTable → Parse α} (h : Runs env short τ (f env.languages) Q) :
    Runs env short τ (languages >>= f) Q := fun s hs => h s hs

theorem get {f : State → Parse α} (h : ∀ s, Runs env short τ (f s) Q) :
    Runs env short τ (MonadStateOf.get >>= f) Q := fun s hs => h s s hs

theorem literal {Q : Expr → Tape env.source → Prop}
    (h : ∀ e, literalOf env.source τ.head = .ok e → Q e τ.tail) :
    Runs env short τ literal Q := by
  have hfail : ∀ t e, literalOf env.source t = .error e → ¬e.IsTooDeep := by
    rintro t e he ⟨limit, p, rfl⟩
    unfold literalOf at he
    split at he
    · split at he <;> cases he
    all_goals cases he
  refine current (read ?_ fun _ => rfl)
  cases hliteral : literalOf env.source τ.head with
  | ok e => exact consume (pure (h e hliteral))
  | error e => exact throw (hfail _ _ hliteral)

/-! ### Wrappers -/

/-- Only the guard may complain about a level. -/
theorem nested (h : Runs env short τ p Q) (hguard : env.guard.enabled = true → short) :
    Runs env short τ (nested p) Q := by
  intro s hs
  have hentered (depth : Nat) := h _ (hs.filled.withFrame depth s.loopDepth s.isRelaxed)
  refine ⟨?_, ?_⟩
  · cases henter : env.guard.enter s.depth s.token.position with
    | error e =>
        rw [nested_run, henter]
        exact fun _ => hguard (enter_error henter).2
    | ok depth =>
        rw [nested_entered henter]
        exact .around (hentered depth).1 fun t υ hυ =>
          hυ.withFrame (Guard.exit t.depth) t.loopDepth t.isRelaxed
  -- A guard that is on excuses a complaint, and one that is off has none.
  · cases henabled : env.guard.enabled with
    | true => exact .inl (hguard henabled)
    | false => exact (hentered (s.depth + 1)).2.imp id (.nested henabled)

/-- A wrapper that leaves the tape as it is. -/
theorem around {before after : State → State} (h : Runs env short τ p Q)
    (hbefore : ∀ s : State, s.Offers τ → (before s).Offers τ)
    (hafter : ∀ (t : State) (υ : Tape env.source), t.Offers υ → (after t).Offers υ) :
    Runs env short τ (around before after p) Q := fun s hs =>
  ⟨.around (h _ (hbefore s hs)).1 hafter, (h.lenient (hbefore s hs)).imp id .around⟩

theorem inLoop (h : Runs env short τ p Q) : Runs env short τ (inLoop p) Q :=
  around h (fun s hs => hs.withFrame s.depth (s.loopDepth + 1) s.isRelaxed)
    fun t _ ht => ht.withFrame t.depth (t.loopDepth - 1) t.isRelaxed

theorem withTerminators (h : Runs env short τ p Q) (isRelaxed : Bool) :
    Runs env short τ (withTerminators isRelaxed p) Q :=
  get fun s => around h (fun t ht => ht.withFrame t.depth t.loopDepth isRelaxed)
    fun t _ ht => ht.withFrame t.depth t.loopDepth s.isRelaxed

/-- In size mode the tape is another one, and it is another one again afterwards. -/
theorem inSizeMode (h : ∀ υ : Tape env.source, τ.UpTo υ →
      Runs env short υ p fun a χ => ∀ ω : Tape env.source, χ.UpTo ω → Q a ω) :
    Runs env short τ (inSizeMode p) Q := by
  intro s hs
  rcases hs.switched true with ⟨υ, hυ, hle⟩
  have hinner := (h υ hle _ hυ).1
  refine ⟨?_, ((h υ hle).lenient hυ).imp id .around⟩
  unfold Parse.inSizeMode Parse.around
  cases hrun : p env (switchSizeMode true s) with
  | ok a t =>
      rw [hrun] at hinner
      rcases hinner with ⟨χ, hχ, ha⟩
      rcases hχ.switched false with ⟨ω, hω, hlater⟩
      exact ⟨ω, hω, ha ω hlater⟩
  | error e t =>
      rw [hrun] at hinner
      exact hinner

/-- A look-ahead leads nowhere, whatever it finds. -/
theorem lookahead {Q : α → Tape env.source → Prop} (hscans : Scans (lookahead p))
    (h : Runs env short τ p fun a _ => Q a τ) : Runs env short τ (Parse.lookahead p) Q := by
  intro s hs
  have hinner := (h s hs).1
  refine ⟨?_, (h.lenient hs).imp id .lookahead⟩
  have hahead : Parse.lookahead p env s = match p env s with
      | .ok a t => .ok a { t with cursor := s.cursor }
      | .error e t => .error e t := by
    change (p >>= fun result => setCursor s.cursor >>= fun _ => Pure.pure result) env s = _
    rw [bind_run]
    cases p env s <;> rfl
  -- What the look-ahead took is given back: only reading on remains.
  rcases hscans env s with ⟨b, u, hu, hok⟩ | ⟨u, _, hfail⟩
  · rw [hok env.guard]
    rw [hok env.guard] at hahead
    cases hrun : p env s with
    | ok a t =>
        rw [hrun] at hahead hinner
        cases hahead
        rcases hinner with ⟨_, _, ha⟩
        exact ⟨τ, hs.reads hu, ha⟩
    | error e t =>
        rw [hrun] at hahead
        cases hahead
  · rw [hfail env.guard]
    rw [hfail env.guard] at hahead
    cases hrun : p env s with
    | ok a t =>
        rw [hrun] at hahead
        cases hahead
    | error e t =>
        rw [hrun] at hahead hinner
        cases hahead
        exact hinner

/-! ### Repetition -/

/-- A loop that gets ahead in every round does not spend its budget. -/
theorem loop {I : β → Tape env.source → Prop} {start : β} {step : β → Parse (β ⊕ α)}
    (hstart : I start τ)
    (hstep : ∀ b υ, I b υ → Runs env short υ (step b)
      (Sum.elim (fun c χ => υ.Before χ ∧ I c χ) Q)) :
    Runs env short τ (loop start step) Q := by
  -- Every round takes up a byte of the text, and there are more rounds left than bytes.
  have hrounds : ∀ n b (υ : Tape env.source), I b υ → env.source.utf8ByteSize < υ.start + n →
      Runs env short υ (iterate step n b) Q := by
    intro n
    induction n with
    | zero =>
        intro b υ _ hn
        exact absurd υ.start_le_size (Nat.not_le.2 hn)
    | succ n ih =>
        intro b υ hb hn
        refine (hstep b υ hb).bind fun result χ hresult => ?_
        cases result with
        | inl c => exact ih c χ hresult.2 (by have := hresult.1.start; omega)
        | inr a => exact pure hresult
  refine read ?_ fun _ => rfl
  exact hrounds _ start τ hstart (by omega)

/-- Newlines are skipped, all there are. -/
theorem skipNewlines {f : Nat → Parse α}
    (h : ∀ k, τ.Newlines k → Runs env short (τ.drop k) (f k) Q) :
    Runs env short τ (skipNewlines >>= f) Q := by
  refine bind (R := fun k υ => υ = τ.drop k ∧ τ.Newlines k) ?_ ?_
  · refine loop (I := fun k υ => υ = τ.drop k ∧ ∀ i < k, (τ.token i).kind = .newline)
      ⟨τ.drop_zero.symm, by simp⟩ ?_
    rintro k _ ⟨rfl, hk⟩
    refine ite_check (fun hkind => consume (pure ⟨?_, ?_, fun i hi => ?_⟩)) fun hkind => pure ?_
    · exact Tape.before_tail hkind (by decide)
    · exact Tape.tail_drop τ k
    · rcases Nat.lt_succ_iff_lt_or_eq.1 hi with hlt | rfl
      · exact hk i hlt
      · exact hkind
    · exact ⟨rfl, hk, hkind⟩
  · rintro k _ ⟨rfl, hk⟩
    exact h k hk

/-- Looking past newlines tells what is behind them. The loop takes nothing, so it ends for
    another reason than most: each round looks one newline further, and there are fewer of these
    than bytes. -/
theorem nextAfterNewlinesIs {f : Bool → Parse α} {kind : Kind}
    (h : ∀ k, τ.Newlines k → Runs env short τ (f (decide ((τ.token k).kind = kind))) Q) :
    Runs env short τ (nextAfterNewlinesIs kind >>= f) Q := by
  refine bind (R := fun b υ => υ = τ ∧ ∃ k, τ.Newlines k ∧ b = decide ((τ.token k).kind = kind))
    ?_ ?_
  -- Nothing is taken here, so this is no loop that gets ahead. But newlines take up bytes.
  · have hrounds : ∀ n k, (∀ i < k, (τ.token i).kind = .newline) →
        env.source.utf8ByteSize < τ.start + k + n →
        Runs env short τ (iterate (fun n => do
          let next ← Parse.peekKind n
          if next = .newline then return .inl (n + 1) else return .inr (next = kind : Bool)) n k)
          fun b υ => υ = τ ∧ ∃ k, τ.Newlines k ∧ b = decide ((τ.token k).kind = kind) := by
      intro n
      induction n with
      | zero =>
          intro k hk hn
          have hle := Tape.add_le_start_drop (τ := τ) (k := k) fun i hi => by
            rw [hk i hi]
            decide
          exact absurd (τ.drop k).start_le_size (by omega)
      | succ n ih =>
          intro k hk hn
          refine bind (R := fun r υ => υ = τ ∧ r = if (τ.token k).kind = .newline then .inl (k + 1)
            else .inr (decide ((τ.token k).kind = kind))) ?_ ?_
          · exact peekKind k (ite (fun hkind => pure ⟨rfl, (if_pos hkind).symm⟩)
              fun hkind => pure ⟨rfl, (if_neg hkind).symm⟩)
          · rintro r _ ⟨rfl, rfl⟩
            split
            · rename_i hresult
              split at hresult
              · rename_i hkind
                cases hresult
                refine ih (k + 1) (fun i hi => ?_) (by omega)
                rcases Nat.lt_succ_iff_lt_or_eq.1 hi with hlt | rfl
                · exact hk i hlt
                · exact hkind
              · cases hresult
            · rename_i hresult
              split at hresult
              · cases hresult
              · rename_i hkind
                cases hresult
                exact pure ⟨rfl, k, ⟨hk, hkind⟩, rfl⟩
    refine read ?_ fun _ => rfl
    exact hrounds _ 0 (by simp) (by omega)
  · rintro _ _ ⟨rfl, k, hk, rfl⟩
    exact h k hk

theorem skipSeparators {f : Unit → Parse α}
    (h : ∀ υ : Tape env.source, τ.UpTo υ → Runs env short υ (f ()) Q) :
    Runs env short τ (skipSeparators >>= f) Q := by
  refine bind (R := fun _ υ => τ.UpTo υ) ?_ fun _ υ hυ => h υ hυ
  refine loop (I := fun _ υ => τ.UpTo υ) (.refl τ) fun _ υ hle => ?_
  refine peekKind 0 (ite (fun hkind => consume (pure ?_)) fun _ => pure hle)
  have hbefore : υ.Before υ.tail := Tape.before_tail_of_ne fun hend => by
    rw [show υ.token 0 = υ.head from rfl, hend] at hkind
    cases hkind
  exact ⟨hbefore, hle.trans hbefore.upTo⟩

/-- The items of a list, each of which gets ahead. What holds of the items so far does not
    depend on how much of the tape is skipped behind them. -/
theorem commaList {closer : Kind} {item : α → Parse α} {I : α → Tape env.source → Prop} {start : α}
    (hstart : ∀ υ : Tape env.source, τ.UpTo υ → I start υ)
    (hitem : ∀ a (υ : Tape env.source), τ.UpTo υ → I a υ → Runs env short υ (item a)
      fun b χ => υ.Before χ ∧ ∀ ω : Tape env.source, χ.UpTo ω → I b ω) :
    Runs env short τ (commaList closer start item) I := by
  refine skipNewlines fun k _ => ?_
  have hskip := τ.upTo_drop k
  refine loop (I := fun a υ => τ.UpTo υ ∧ I a υ) ⟨hskip, hstart _ hskip⟩ ?_
  rintro a υ ⟨hle, ha⟩
  refine ite_check (fun _ => pure ha) fun _ => (hitem a υ hle ha).bind ?_
  rintro b χ ⟨hbefore, hb⟩
  refine skipNewlines fun l _ => ?_
  have hχ := χ.upTo_drop l
  refine ite_check (fun _ => consume (skipNewlines fun m _ => pure ?_)) fun _ => pure (hb _ hχ)
  have hω := (hχ.trans (χ.drop l).upTo_tail).trans ((χ.drop l).tail.upTo_drop m)
  exact ⟨hbefore.trans hω, (hle.before (hbefore.trans hω)).upTo, hb _ hω⟩

/-! ### Guest code -/

/-- Guest code is passed over. -/
theorem guestBody {Q : Option Statement → Tape env.source → Prop} {language : String}
    {names : List String} {p : Position}
    (h : ∀ code (υ : Tape env.source), τ.Before υ →
      Q (some (.codeBlock language names code p)) υ) :
    Runs env short τ (guestBody language names p) Q := by
  intro s hs
  by_cases hbrace : s.token.kind = .leftBrace
  · have hsame (guard : Guard) :
        Indifferent env { env with guard } (Parse.guestBody language names p) := by
      refine indifferent_guestBody ?_ language names p
      rfl
    refine ⟨?_, .inr (.of_same fun guard => hsame guard s)⟩
    rw [guestBody_run language names p hbrace]
    cases hcode : guestCodeAt? env.source s.token.stop with
    | none => exact nofun
    | some found =>
        rcases found with ⟨code, resume⟩
        rcases (hs.1.guest hbrace hcode).offers_restart hs.advanced.1.cursor_le with
          ⟨υ, hυ, hunbroken, hle⟩
        refine ⟨υ, hυ, h code υ ⟨?_, fun _ => hunbroken⟩⟩
        -- The code begins behind the brace, and parsing goes on behind the code.
        have hstop := hs.1.place.2
        have hbehind := (guestCodeAt?_place hcode).2
        rw [hs.token] at hstop hbehind
        exact Nat.lt_of_le_of_lt hstop (Nat.lt_of_lt_of_le hbehind hle)
  · have hother : Runs env short τ (Parse.guestBody language names p) Q :=
      expect fun hkind => absurd (by rw [hs.token]; exact hkind) hbrace
    exact hother s hs

end Runs

end Parse

end PolyScript
