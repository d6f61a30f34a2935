import PolyScript.Proofs.Follow

/-!
# Dispatching in Step

Statements are parsed by asking handlers, and which handlers are asked depends on a
window of tokens. The window of the second parse may have a newline where that of the
first one has the end of the text, but handlers of the language ask for neither. So the
same handlers are asked in the same order, and each of them gives the same answer in
both parses.

## Main definitions

* `Registry.Nearsighted`: Handlers that look at two tokens at most, and at no line end.

## Theorems

* `Registry.candidates_similar`: The same handlers are asked.
* `Parse.follows_tryHandlers`: They give the same answers.
* `Parse.follows_level`: All levels of the grammar stay in step.
-/

namespace PolyScript

/-! ### Windows -/

/-- Tokens that a handler does not tell from each other: a token and the same token
    moved, or the end of a text and a newline. -/
def Token.Similar (δ : Shift) (t u : Token) : Prop :=
  u = t.shift δ ∨ (t.kind = .endOfInput ∧ u.kind = .newline)

theorem TokenPattern.accepts_similar {p : TokenPattern} {δ : Shift} {t u : Token}
    (hp : p.kind ≠ .newline ∧ p.kind ≠ .endOfInput) (h : t.Similar δ u) :
    p.accepts u = p.accepts t := by
  rcases h with rfl | ⟨ht, hu⟩
  · rfl
  · rw [accepts, accepts, ht, hu, decide_eq_false (Ne.symm hp.1), decide_eq_false (Ne.symm hp.2)]
    rfl

/-- Windows of tokens that the patterns do not tell from each other. -/
theorem HandlerSettings.matchesWindow_congr {h : HandlerSettings} {R : Token → Token → Prop}
    {ts us : List Token}
    (hpatterns : ∀ p ∈ h.patterns, ∀ t u, R t u → p.accepts u = p.accepts t)
    (hsimilar : List.Forall₂ R ts us) : h.matchesWindow us = h.matchesWindow ts := by
  have hat : ∀ p ∈ h.patterns, (us[p.offset]?).any p.accepts = (ts[p.offset]?).any p.accepts := by
    intro p hp
    generalize p.offset = i
    induction hsimilar generalizing i with
    | nil => rfl
    | cons hhead _ ih =>
        cases i with
        | zero => exact hpatterns p hp _ _ hhead
        | succ i => exact ih i
  unfold matchesWindow
  rw [Bool.eq_iff_iff, List.any_eq_true, List.any_eq_true]
  exact exists_congr fun p => and_congr_right fun hp => by rw [hat p hp]

/-- A filter on leading tokens that the patterns do not tell from each other. -/
theorem Handler.leadingFilter_congr {settings : HandlerSettings} {t u : Token}
    (hpatterns : ∀ p ∈ settings.patterns, p.accepts u = p.accepts t) :
    leadingFilter settings u = leadingFilter settings t := by
  unfold leadingFilter
  rw [Bool.eq_iff_iff, List.any_eq_true, List.any_eq_true]
  exact exists_congr fun p => and_congr_right fun hp => by rw [hpatterns p hp]

namespace Registry

/-- Handlers that look at two tokens at most, and at no line end. -/
structure Nearsighted (r : Registry) : Prop where
  window : r.windowSize ≤ 2
  patterns : ∀ h ∈ r.handlers.toList, ∀ p ∈ h.settings.patterns,
    p.kind ≠ .newline ∧ p.kind ≠ .endOfInput

theorem nearsighted_defaults : (ofSettings Settings.defaults).Nearsighted :=
  ⟨by decide +kernel, by decide +kernel⟩

/-- The same handlers are asked for windows that they do not tell from each other. -/
theorem candidates_congr {r : Registry} (hbuiltin : r.IsBuiltin) {R : Token → Token → Prop}
    (hpatterns : ∀ h ∈ r.handlers.toList, ∀ p ∈ h.settings.patterns,
      ∀ t u, R t u → p.accepts u = p.accepts t) {first first' : Token} {ts us : List Token}
    (hkind : first'.kind = first.kind) (hfirst : R first first')
    (hsimilar : List.Forall₂ R ts us) :
    r.candidates (first' :: us) = r.candidates (first :: ts) := by
  unfold candidates
  simp only [hkind]
  congr 1
  refine List.filter_congr fun h hmem => ?_
  have hin := mem_of_mem_select hmem
  rcases hbuiltin h hin with ⟨settings, rfl⟩
  unfold isCandidate
  rw [HandlerSettings.matchesWindow_congr (hpatterns _ hin) (.cons hfirst hsimilar)]
  have hfilter : (Handler.builtin settings).canHandle first' =
      (Handler.builtin settings).canHandle first :=
    Handler.leadingFilter_congr fun p hp => hpatterns _ hin p hp _ _ hfirst
  rw [hfilter]

theorem candidates_similar {r : Registry} (hbuiltin : r.IsBuiltin) (hnear : r.Nearsighted)
    {δ : Shift} {first : Token} {ts us : List Token}
    (hsimilar : List.Forall₂ (Token.Similar δ) ts us) :
    r.candidates (first.shift δ :: us) = r.candidates (first :: ts) :=
  candidates_congr hbuiltin
    (fun h hh p hp _ _ => TokenPattern.accepts_similar (hnear.patterns h hh p hp)) rfl (.inl rfl)
    hsimilar

end Registry

namespace Parse

variable {e : Excerpt} {guard : Guard} {γ : View} {s s' : State}

/-- The first two tokens of a window. -/
theorem State.tokensFrom_near {s : State} {count : Nat} (hend : s.token.kind ≠ .endOfInput)
    (hcount : count ≤ 1) : s.buffer.tokensFrom s.cursor (count + 1) =
      s.token :: if count = 0 then [] else [s.buffer.tokenAt (s.cursor + 1)] := by
  have hnot : ¬(s.buffer.tokenAt s.cursor).isEnd = true := by
    change ¬s.token.isEnd = true
    simp [Token.isEnd, hend]
  rw [TokenBuffer.tokensFrom, if_neg hnot]
  congr 1
  obtain rfl | rfl : count = 0 ∨ count = 1 := by omega
  · rfl
  · rw [TokenBuffer.tokensFrom, if_neg Nat.one_ne_zero]
    split <;> rfl

/-- The windows of two parses in step cannot be told from each other. -/
theorem Abreast.tokensFrom_similar (h : Abreast e s s')
    (hkind : s.token.kind ≠ .newline ∧ s.token.kind ≠ .endOfInput) {count : Nat}
    (hcount : count ≤ 1) :
    ∃ rest rest', s.buffer.tokensFrom s.cursor (count + 1) = s.token :: rest ∧
      s'.buffer.tokensFrom s'.cursor (count + 1) = s.token.shift e.shift :: rest' ∧
      List.Forall₂ (Token.Similar e.shift) rest rest' := by
  have htoken := (h.take hkind).1
  have hwindow' := State.tokensFrom_near (s := s') (by rw [htoken]; exact hkind.2) hcount
  rw [htoken] at hwindow'
  refine ⟨_, _, State.tokensFrom_near hkind.2 hcount, hwindow', ?_⟩
  obtain rfl | rfl : count = 0 ∨ count = 1 := by omega
  · exact .nil
  · refine .cons ?_ .nil
    refine (h.ahead s.sees 1 fun i hi => ?_).imp id id
    rw [Nat.lt_one_iff.1 hi]
    exact hkind

theorem expectTerminator_run (env : Env) (s : State) :
    expectTerminator env s = if s.token.kind.isTerminator = true then .ok () s.filled
      else .error (.unexpectedToken "end of statement" s.token) s.filled := by
  change (if s.token.kind.isTerminator = true then pure ()
    else throw (.unexpectedToken "end of statement" s.token) : Parse Unit) env s.filled = _
  split <;> rfl

/-- Requires a terminator unless the statement is part of a longer one. -/
def conclude (statement : Statement) : Parse Statement := do
  if !(← get).isRelaxed then expectTerminator
  return statement

/-- A statement is concluded at a terminator, and anywhere if terminators are relaxed. -/
theorem conclude_run (statement : Statement) (env : Env) (s : State) :
    conclude statement env s = if s.isRelaxed = true then .ok statement s
      else if s.token.kind.isTerminator = true then .ok statement s.filled
      else .error (.unexpectedToken "end of statement" s.token) s.filled := by
  change (if (!s.isRelaxed) = true then expectTerminator >>= fun _ => pure statement
    else pure statement : Parse Statement) env s = _
  cases s.isRelaxed with
  | true => rfl
  | false =>
      simp only [Bool.not_false, if_true, Bool.false_eq_true, if_false]
      rw [bind_run, expectTerminator_run]
      by_cases h : s.token.kind.isTerminator = true
      · simp only [h, if_true]
        rfl
      · simp only [h, if_false, Bool.false_eq_true]

/-- Concluding a statement changes nothing but what has been read. It asks for a terminator,
    unless the parse is relaxed. -/
theorem conclude_ok {statement a : Statement} {env : Env} {s t : State}
    (h : conclude statement env s = .ok a t) :
    a = statement ∧ s.Reads t ∧ (s.isRelaxed = true ∨ s.token.kind.isTerminator = true) := by
  rw [conclude_run] at h
  split at h
  · cases h
    exact ⟨rfl, State.Reads.refl s, .inl ‹_›⟩
  · split at h
    · cases h
      exact ⟨rfl, s.reads_filled, .inr ‹_›⟩
    · cases h

/-- A newline terminates a statement as well as the end of the text does. -/
theorem Abreast.conclude {env : Env} {statement a : Statement} {t : State} (env' : Env)
    (statement' : Statement) (h : Abreast e s s') (hrun : conclude statement env s = .ok a t) :
    a = statement ∧ ∃ t', Parse.conclude statement' env' s' = .ok statement' t' ∧
      Abreast e t t' := by
  rw [conclude_run] at hrun
  -- Where the text is over, the copy may go on with a newline, which terminates as well.
  have hterminator : s'.token.kind.isTerminator = s.token.kind.isTerminator :=
    h.kind_ahead s.sees 0 (fun i hi => absurd hi (Nat.not_lt_zero i)) fun _ => rfl
  cases hrelaxed : s.isRelaxed with
  | true =>
      rw [hrelaxed, if_pos rfl] at hrun
      cases hrun
      exact ⟨rfl, s', by rw [conclude_run, h.frame.2.2, hrelaxed, if_pos rfl], h⟩
  | false =>
      rw [hrelaxed, if_neg (by decide)] at hrun
      split at hrun
      · rename_i hends
        cases hrun
        refine ⟨rfl, s'.filled, ?_, h.filled⟩
        rw [conclude_run, h.frame.2.2, hrelaxed, if_neg (by decide), hterminator, if_pos hends]
      · cases hrun

/-- Handlers that are asked in order give the same answers in both parses. One that declines has
    left its state as it was but for what was read, so the next one is asked in states that still
    correspond. -/
theorem follows_tryHandlers {g g' : Grammar} (hkeeps : (e.watch guard).Keeps g)
    (hg : Follows e guard g g') (hproper : g.Proper) {handlers : List Handler}
    (hbuiltin : ∀ h ∈ handlers, ∃ settings, h = Handler.builtin settings) {κ : Nat → Kind}
    (hlive : γ = γ.seeing κ) (hstage : γ.stage = .free)
    (hκ : κ 0 ≠ .newline ∧ κ 0 ≠ .endOfInput) (hcoded : γ.coded = false)
    (hs : (e.watch guard).inv γ s) (hstep : Abreast e s s') (first first' : Token) {a : Statement}
    {t : State} (hcode : a.hasCode = false)
    (hrun : tryHandlers g first s.cursor handlers (e.first (.ofList Language.defaults) guard) s =
      .ok a t) :
    ∃ t', tryHandlers g' first' s'.cursor handlers
      (e.second (.ofList Language.defaults) guard) s' = .ok (a.shift e.shift) t' ∧
        Abreast e t t' := by
  induction handlers generalizing s s' with
  | nil => cases hrun
  | cons handler rest ih =>
      rcases hbuiltin handler List.mem_cons_self with ⟨settings, rfl⟩
      have hasked : Chases e guard γ (Option.map (Statement.shift e.shift))
          (Parse.nested ((Handler.builtin settings).parse g))
          (Parse.nested ((Handler.builtin settings).parse g')) (Attempted tidyPlace γ κ) := by
        refine Chases.nested (hg.derived hkeeps ?_)
        rw [hlive]
        exact alike_builtin hproper hstage fun _ => hκ.1
      unfold tryHandlers at hrun ⊢
      rw [bind_run] at hrun
      split at hrun
      · rename_i answer u hanswer
        rcases hasked s s' hs (fun _ => hstep) answer u hanswer with ⟨γ', hattempted, hu, hnext⟩
        cases answer with
        | some statement =>
            rcases hattempted with ⟨-, κ', rfl⟩
            -- What ends a statement does not change it.
            have hstatement : a = statement := (conclude_ok hrun).1
            subst hstatement
            have htracked : (View.seeing (γ.coding a.hasCode) κ').Tracked :=
              View.tracked_seeing.2 (by rw [View.coding, hcode, hcoded]; rfl)
            rcases hnext htracked with ⟨-, u', hanswer', hstep'⟩
            rcases hstep'.conclude (e.second (.ofList Language.defaults) guard)
              (a.shift e.shift) hrun with ⟨-, t', hrun', hstep''⟩
            exact ⟨t', by rw [bind_run, hanswer']; exact hrun', hstep''⟩
        | none =>
            -- A handler that declines has only read, in both parses.
            have hreads : s.Reads u := (quiet_builtin settings g).nested _ s u hanswer
            have hseeing : γ' = γ.seeing κ := by
              refine hattempted.resolve_left fun hspent => ?_
              have hsees := ((e.watch guard).sees hu).token
              have hbefore := ((e.watch guard).sees hs).token
              rw [hspent, View.kind_spent, hreads.token_eq, hbefore, hlive] at hsees
              exact hκ.2 hsees
            rcases hnext (by rw [hseeing]; exact View.tracked_seeing.2 hcoded) with
              ⟨-, u', hanswer', hstep'⟩
            have hreads' : s'.Reads u' := (quiet_builtin settings g').nested _ s' u' hanswer'
            have hcursor : ∀ {s u : State}, s.Reads u →
                ({ u with cursor := s.cursor } : State) = u ∧ u.cursor = s.cursor := by
              rintro s _ ⟨n, rfl⟩
              exact ⟨rfl, rfl⟩
            rw [hseeing, ← hlive] at hu
            have hrest := ih (fun h hmem => hbuiltin h (List.mem_cons_of_mem _ hmem)) hu hstep' (by
              change tryHandlers g first s.cursor rest _ { u with cursor := s.cursor } = _ at hrun
              rw [(hcursor hreads).1] at hrun
              rw [(hcursor hreads).2]
              exact hrun)
            rcases hrest with ⟨t', hrun', hstep''⟩
            refine ⟨t', ?_, hstep''⟩
            rw [bind_run, hanswer']
            change tryHandlers g' first' s'.cursor rest _ { u' with cursor := s'.cursor } = _
            rw [(hcursor hreads').1, ← (hcursor hreads').2]
            exact hrun'
      · cases hrun

/-- Statements of two dispatchers stay in step if their parts do. Where the first text is over
    the copy may go on behind a line end, and nearsighted handlers do not ask for one. -/
theorem follows_dispatch {registry : Registry} (hbuiltin : registry.IsBuiltin)
    (hnear : registry.Nearsighted) {g g' : Grammar} (hkeeps : (e.watch guard).Keeps g)
    (hg : Follows e guard g g') (hproper : g.Proper) :
    FollowsStatement e guard (dispatch registry g) (dispatch registry g') := by
  intro γ s s' a t hlive hstage hnewline hcoded hcode hs hstep hrun
  rcases dispatch_run registry g s with ⟨u, hu, -, hasked⟩
  rcases dispatch_run registry g' s' with ⟨u', hu', -, hasked'⟩
  rw [hasked] at hrun
  rw [hasked']
  have hcursor : ∀ {s u : State}, s.Reads u → u.cursor = s.cursor := by
    rintro s _ ⟨n, rfl⟩
    rfl
  -- At the end of the text no statement begins.
  have hend : s.token.kind ≠ .endOfInput := by
    intro hend
    rcases stopsAt_dispatch hbuiltin (Registry.excusedAt_end hend registry) (.inl hend)
      (hproper.stops s.token hend).expression _ s rfl with ⟨_, _, _, _, hfail⟩
    rw [hasked] at hfail
    cases hfail.symm.trans hrun
  have htoken := ((e.watch guard).sees hs).token
  have hwindow := hnear.window
  cases hcount : registry.windowSize with
  | zero =>
      rw [hcount] at hrun
      cases hrun
  | succ count =>
      rcases hstep.tokensFrom_similar ⟨by rw [htoken]; exact hnewline, hend⟩
        (show count ≤ 1 by omega) with ⟨rest, rest', hrest, hrest', hsimilar⟩
      rw [hcount, hrest] at hrun
      rw [hrest']
      simp only at hrun ⊢
      rw [Registry.candidates_similar hbuiltin hnear hsimilar]
      rw [← hcursor hu] at hrun
      rw [← hcursor hu']
      rcases hlive with ⟨κ, hκ⟩
      have hkinds : κ 0 ≠ .newline ∧ κ 0 ≠ .endOfInput := by
        rw [hκ, View.kind_seeing] at htoken hnewline
        exact ⟨hnewline, by rw [← htoken]; exact hend⟩
      exact follows_tryHandlers hkeeps hg hproper (fun h => isBuiltin_asked hbuiltin) hκ hstage
        hkinds hcoded ((e.watch guard).reads hs hu) ((hstep.reads hu).reads' hu') _ _ hcode hrun

/-- All levels of the grammar stay in step. The copy may be longer and have more levels, so the
    levels that are compared need not be the same ones. -/
theorem follows_level {registry : Registry} (hbuiltin : registry.IsBuiltin)
    (hnear : registry.Nearsighted) (n n' : Nat) (hle : n ≤ n') :
    Follows e guard (Grammar.level registry n) (Grammar.level registry n') := by
  -- The longer text has more levels, so the induction is on those of the shorter one.
  induction n generalizing n' with
  | zero =>
      exact ⟨fun _ _ _ _ _ _ _ _ _ h => (by cases h), fun _ _ _ _ _ _ _ _ _ h => (by cases h),
        fun _ _ _ _ _ _ _ _ _ h => (by cases h), fun _ _ _ _ _ _ _ _ _ _ _ _ h => (by cases h),
        fun _ _ _ _ _ _ _ _ _ _ _ h => (by cases h)⟩
  | succ n ih =>
      obtain ⟨n', rfl⟩ : ∃ k, n' = k + 1 := ⟨n' - 1, by omega⟩
      have hproper := Grammar.proper_level hbuiltin n
      have hkeeps : (e.watch guard).Keeps (Grammar.level registry n) :=
        Discipline.keeps_level hbuiltin n
      have hg := ih n' (by omega)
      have hderived : ∀ {α : Type} {p q : Parse α} {V : α → Prop} {m : α → α},
          (∀ γ κ, Alike tidyPlace tidy.tongues e.shift (Grammar.level registry n)
            (Grammar.level registry n') (γ.seeing κ) m p q (Settled γ V)) →
          FollowsPart e guard m p q := by
        intro α p q V m h γ s s' a t hlive hcoded hs hstep hrun
        rcases hlive with ⟨κ, hκ⟩
        rw [hκ] at hs
        rcases hg.derived hkeeps (h γ κ) s s' hs (fun _ => hstep) a t hrun with
          ⟨_, ⟨-, κ', rfl⟩, -, hnext⟩
        exact (hnext (View.tracked_seeing.2 hcoded)).2
      exact {
        expression := hderived fun γ κ => alike_expression hproper
        operand := hderived fun γ κ => alike_operand hproper
        pattern := hderived fun γ κ => alike_pattern hproper
        statement := follows_dispatch hbuiltin hnear hkeeps hg hproper
        conditional := by
          rintro γ s s' a t ⟨κ, hκ⟩ hstage hcoded hcode hs hstep hrun
          rw [hκ] at hs
          rcases hg.derived hkeeps (alike_conditional hproper hstage) s s' hs (fun _ => hstep) a t
            hrun with ⟨_, ⟨-, κ', rfl⟩, -, hnext⟩
          refine (hnext (View.tracked_seeing.2 ?_)).2
          rw [View.coding, hcode, hcoded]
          rfl }

end Parse

end PolyScript
