import PolyScript.Proofs.Dispatching

/-!
# Statements One After Another

A program is read in rounds: separators are skipped, then a statement is read, until the
text is over. Here the rounds of two parses are compared. Until the first text is over
both parses read the same statements. Then, if the second text goes on, the second parse
reads on as it would from the beginning of the next line.

Both the loop that skips separators and the one that reads statements run within a
budget. The first one cannot spend it, because every separator takes a character. So what
is skipped depends on the text alone, and it can be cut in two where the first text ends.

## Main definitions

* `Parse.State.Skips`: What skipping separators leads to.
* `Parse.Rounds`: The statements that follow a state, up to the end of the text.

## Theorems

* `Parse.skipSeparators_iff`: Separators are skipped.
* `Parse.program_of_rounds`, `Parse.rounds_of_program`: Programs are read in rounds.
* `Parse.Abreast.rounds`: The rounds of two parses.
-/

namespace PolyScript

theorem Position.length_le_byteCount (cs : List Char) : cs.length ≤ byteCount cs := by
  induction cs with
  | nil => exact Nat.le_refl 0
  | cons c cs ih =>
      have hsize : byteCount (c :: cs) = c.utf8Size + byteCount cs := rfl
      have hpos := Char.utf8Size_pos c
      rw [List.length_cons]
      omega

theorem Lexer.Within.length_le {source : String} {lx : Lexer} (h : lx.Within source) :
    lx.cursor.rest.length ≤ source.utf8ByteSize := by
  rcases h.2 with ⟨before, hsource, -⟩
  have hlength := congrArg List.length hsource
  rw [List.length_append] at hlength
  have hle := Position.length_le_byteCount source.toList
  rw [byteSize_eq]
  omega

namespace Parse

open Lexer

variable {e : Excerpt} {guard : Guard} {γ : View} {env : Env} {s s' t u : State}

/-! ### Separators -/

/-- Skipping separators leads from one state to another. -/
inductive State.Skips : State → State → Prop
  | stop {s : State} : isSeparator s.token.kind = false → s.Skips s.filled
  | step {s t : State} : isSeparator s.token.kind = true → s.advanced.Skips t → s.Skips t

/-- Separators are skipped in one way only. -/
theorem State.Skips.unique (h : s.Skips t) (h' : s.Skips u) : t = u := by
  induction h with
  | stop hstop =>
      cases h' with
      | stop => rfl
      | step hstep => rw [hstop] at hstep; cases hstep
  | step hstep _ ih =>
      cases h' with
      | stop hstop => rw [hstop] at hstep; cases hstep
      | step _ h' => exact ih h'

theorem State.Skips.filled (h : s.Skips t) : t.filled = t := by
  induction h with
  | @stop s _ => exact s.filled_filled
  | step _ _ ih => exact ih

/-- One round of skipping separators. -/
def skipSeparator (_ : Unit) : Parse (Unit ⊕ Unit) := do
  if isSeparator (← peekKind 0) then
    let _ ← consume
    return .inl ()
  else return .inr ()

theorem skipSeparator_run (env : Env) (s : State) :
    skipSeparator () env s = if isSeparator s.token.kind = true then .ok (.inl ()) s.advanced
      else .ok (.inr ()) s.filled := by
  unfold skipSeparator
  rw [bind_run, peekKind_run, ← s.advanced_filled]
  change (if isSeparator s.token.kind = true then consume >>= fun _ => pure (.inl ())
    else pure (.inr ()) : Parse (Unit ⊕ Unit)) env s.filled = _
  split <;> rfl

theorem skips_of_iterate {n : Nat} (h : iterate skipSeparator n () env s = .ok () t) :
    s.Skips t := by
  induction n generalizing s with
  | zero => cases h
  | succ n ih =>
      rw [iterate_succ_run, skipSeparator_run] at h
      by_cases hseparator : isSeparator s.token.kind = true
      · rw [if_pos hseparator] at h
        exact .step hseparator (ih h)
      · rw [if_neg hseparator] at h
        cases h
        exact .stop (by simpa using hseparator)

/-- Every separator takes a character, so the budget lasts. -/
theorem iterate_of_skips {lx : Lexer} {n : Nat} (h : s.Skips t) (hat : s.At lx)
    (hs : s.Sound env.source) (hn : lx.cursor.rest.length < n) :
    iterate skipSeparator n () env s = .ok () t := by
  induction h generalizing lx n with
  | stop hstop =>
      obtain ⟨n, rfl⟩ : ∃ k, n = k + 1 := ⟨n - 1, by omega⟩
      rw [iterate_succ_run, skipSeparator_run, hstop]
      rfl
  | @step s t hseparator _ ih =>
      obtain ⟨n, rfl⟩ : ∃ k, n = k + 1 := ⟨n - 1, by omega⟩
      have hend : s.token.kind ≠ .endOfInput := by
        intro hend
        rw [hend] at hseparator
        cases hseparator
      have hnot : s.token.isEnd = false := by simp [Token.isEnd, hend]
      rcases hat.next_of_token hs hend with ⟨lx', hnext⟩
      have hshorter := next_shorter hnext hnot
      rw [iterate_succ_run, skipSeparator_run, if_pos hseparator]
      exact ih (hat.advanced hs hnext hnot) hs.advanced (by omega)

theorem skips_of_skipSeparators (h : skipSeparators env s = .ok () t) : s.Skips t :=
  skips_of_iterate h

/-- Separators are skipped. -/
theorem skipSeparators_iff {lx : Lexer} (hat : s.At lx) (hlx : lx.Within env.source)
    (hs : s.Sound env.source) : skipSeparators env s = .ok () t ↔ s.Skips t := by
  refine ⟨skips_of_skipSeparators, fun h => ?_⟩
  have hle := hlx.length_le
  exact iterate_of_skips h hat hs (by omega)

theorem State.kept_advanced (s : State) : s.Kept s.advanced :=
  State.Reads.kept (c := if s.token.isEnd then s.cursor else s.cursor + 1) s.reads_filled

/-- Two parses skip the same separators. If the first text ends and the second one does
    not, the second parse goes on behind the line feed between them. -/
theorem Abreast.skips (h : Abreast e s s') (hskips : s.Skips t) :
    (t.token.kind ≠ .endOfInput ∨ e.tail = [] → ∃ t', s'.Skips t' ∧ Abreast e t t') ∧
      (t.token.kind = .endOfInput → e.tail ≠ [] → ∃ u', Beyond e u' ∧ s'.Kept u' ∧
        ∀ t', u'.Skips t' → s'.Skips t') := by
  -- By induction on the separators that the first parse skips.
  induction hskips generalizing s' with
  | @stop s hstop =>
      rw [State.token_filled]
      have hline : s.token.kind ≠ .newline := by
        intro hline
        rw [hline] at hstop
        cases hstop
      refine ⟨fun hgoes => ⟨s'.filled, .stop ?_, h.filled⟩, fun hend htail => ?_⟩
      · have htoken : s'.token.kind = s.token.kind := by
          by_cases hend : s.token.kind = .endOfInput
          · rcases h.atEnd hend with ⟨-, htoken⟩ | ⟨-, hbeyond⟩
            · rw [htoken, Token.shift_kind]
            · rcases hbeyond.reached with ⟨_, _, htail, _⟩
              rw [hgoes.resolve_left (fun hne => hne hend)] at htail
              cases htail
          · rw [(h.take ⟨hline, hend⟩).1, Token.shift_kind]
        rw [htoken]
        exact hstop
      · rcases h.atEnd hend with ⟨hnil, -⟩ | ⟨hnewline, hbeyond⟩
        · exact absurd hnil htail
        · exact ⟨s'.advanced, hbeyond, s'.kept_advanced, fun t' ht' =>
            .step (by rw [hnewline]; rfl) ht'⟩
  | @step s t hseparator hrest ih =>
      have hend : s.token.kind ≠ .endOfInput := by
        intro hend
        rw [hend] at hseparator
        cases hseparator
      have hseparator' : isSeparator s'.token.kind = true := by
        by_cases hline : s.token.kind = .newline
        · rw [(h.newline hline).1, Token.shift_kind]
          exact hseparator
        · rw [(h.take ⟨hline, hend⟩).1, Token.shift_kind]
          exact hseparator
      -- The last newline of the first text, if the second one goes on, leads both lexers out of
      -- the excerpt.
      by_cases hover : s.token.kind = .newline ∧ s.advanced.token.kind = .endOfInput ∧ e.tail ≠ []
      · have hlast : t.token.kind = .endOfInput := by
          cases hrest with
          | stop _ => rw [State.token_filled]; exact hover.2.1
          | step hagain _ => rw [hover.2.1] at hagain; cases hagain
        refine ⟨fun hgoes => ?_, fun _ _ => ⟨s'.advanced,
          (h.newline hover.1).2.2 hover.2.1 hover.2.2, s'.kept_advanced, fun t' ht' =>
            .step hseparator' ht'⟩⟩
        rcases hgoes with hgoes | hnil
        · exact absurd hlast hgoes
        · exact absurd hnil hover.2.2
      · have hstep : Abreast e s.advanced s'.advanced := by
          by_cases hline : s.token.kind = .newline
          · refine (h.newline hline).2.1 ?_
            by_cases hnil : e.tail = []
            · exact .inr hnil
            · exact .inl fun hend => hover ⟨hline, hend, hnil⟩
          · exact (h.take ⟨hline, hend⟩).2
        refine ⟨fun hgoes => ?_, fun hends htail => ?_⟩
        · rcases (ih hstep).1 hgoes with ⟨t', ht', hstep'⟩
          exact ⟨t', .step hseparator' ht', hstep'⟩
        · rcases (ih hstep).2 hends htail with ⟨u', hbeyond, hkept, hskips⟩
          exact ⟨u', hbeyond, s'.kept_advanced.trans hkept, fun t' ht' =>
            .step hseparator' (hskips t' ht')⟩

/-- Skipping separators leaves what is known of a parse. -/
theorem Discipline.skips {P : Position → Prop} {C : Prop} (D : Discipline P C env)
    (h : s.Skips t) {κ : Nat → Kind} (hs : D.inv (γ.seeing κ) s) :
    ∃ κ', D.inv (γ.seeing κ') t ∧ isSeparator (κ' 0) = false := by
  induction h generalizing κ with
  | @stop s hstop =>
      refine ⟨κ, D.reads hs s.reads_filled, ?_⟩
      rw [← View.kind_seeing γ κ 0, ← (D.sees hs).token]
      exact hstop
  | @step s t hseparator _ ih =>
      have htoken : s.token.kind = κ 0 := (D.sees hs).token
      rw [htoken] at hseparator
      have htakes : (γ.seeing κ).Takes (κ 0) (γ.seeing κ) := by
        simp only [isSeparator, Bool.or_eq_true, decide_eq_true_eq] at hseparator
        rcases hseparator with hline | hsemicolon
        · exact .newline hline
        · exact .mark (.inl (by rw [hsemicolon]; rfl))
      have htaken := D.take hs rfl htakes
      exact ih htaken

/-! ### Rounds -/

/-- The statements that follow a state, up to the end of the text, and the state there. -/
inductive Rounds (g : Grammar) (env : Env) : State → List Statement → State → Prop
  | done {s t : State} : skipSeparators env s = .ok () t → t.token.kind = .endOfInput →
    Rounds g env s [] t
  | next {s t u v : State} {a : Statement} {as : List Statement} :
    skipSeparators env s = .ok () t → t.token.kind ≠ .endOfInput → g.statement env t = .ok a u →
    Rounds g env u as v → Rounds g env s (a :: as) v

theorem Rounds.skips {g : Grammar} {as : List Statement} (h : Rounds g env s as u) :
    ∃ t, skipSeparators env s = .ok () t := by
  cases h with
  | done hskip _ => exact ⟨_, hskip⟩
  | next hskip _ _ _ => exact ⟨_, hskip⟩

/-- What comes before the first statement may be skipped from elsewhere. -/
theorem Rounds.of_skip {g : Grammar} {as : List Statement} (h : Rounds g env s as u)
    (hskip : ∀ t, skipSeparators env s = .ok () t → skipSeparators env s' = .ok () t) :
    Rounds g env s' as u := by
  cases h with
  | done hs hend => exact .done (hskip _ hs) hend
  | next hs hend hstatement hrest => exact .next (hskip _ hs) hend hstatement hrest

/-- One round of reading statements. -/
def statementRound (g : Grammar) (acc : List Statement) :
    Parse (List Statement ⊕ List Statement) := do
  if ← hasMore then
    let next ← g.statement
    skipSeparators
    return .inl (acc ++ [next])
  else return .inr acc

/-- A round of a program is over at the end of the text. Else it reads one statement and the
    separators behind it. -/
theorem statementRound_run (g : Grammar) (acc : List Statement) (env : Env) {t : State}
    (ht : t.filled = t) : statementRound g acc env t =
      if t.token.kind = .endOfInput then .ok (.inr acc) t
      else match g.statement env t with
        | .ok a u => match skipSeparators env u with
          | .ok _ v => .ok (.inl (acc ++ [a])) v
          | .error err v => .error err v
        | .error err u => .error err u := by
  unfold statementRound
  -- Separators have been skipped, so the token is there and looking at it reads nothing.
  have hmore : hasMore env t = .ok (decide (t.token.kind ≠ .endOfInput)) t := by
    change EStateM.Result.ok (decide (t.token.kind ≠ .endOfInput)) t.filled = _
    rw [ht]
  rw [bind_run, hmore]
  by_cases hend : t.token.kind = .endOfInput
  · simp only [hend, ne_eq, not_true_eq_false, decide_false, Bool.false_eq_true, if_false, if_true]
    rfl
  · simp only [hend, ne_eq, not_false_eq_true, decide_true, if_true, if_false]
    rw [bind_run]
    cases g.statement env t with
    | error err u => rfl
    | ok a u =>
        simp only
        rw [bind_run]
        cases skipSeparators env u with
        | error err v => rfl
        | ok _ v => rfl

/-- A program skips the separators in front of it and reads statements up to the end of the
    text. -/
theorem program_run (g : Grammar) (env : Env) (s : State) :
    program g env s = match skipSeparators env s with
      | .ok _ t => match iterate (statementRound g) (env.source.utf8ByteSize + 2) [] env t with
        | .ok as u => .ok ⟨as⟩ u
        | .error err u => .error err u
      | .error err t => .error err t := by
  change ((skipSeparators >>= fun _ => loop [] (statementRound g)) >>= fun as => pure ⟨as⟩ :
    Parse Program) env s = _
  rw [bind_run, bind_run]
  cases skipSeparators env s with
  | error err t => rfl
  | ok _ t =>
      simp only
      rw [loop_run]
      cases iterate (statementRound g) (env.source.utf8ByteSize + 2) [] env t with
      | error err u => rfl
      | ok as u => rfl

/-- A loop of statements that comes to an end has gone through rounds, and appended one statement
    for each of them. -/
theorem rounds_of_iterate {g : Grammar} {n : Nat} {acc as : List Statement}
    (hskip : skipSeparators env s = .ok () t)
    (h : iterate (statementRound g) n acc env t = .ok as u) :
    ∃ new, as = acc ++ new ∧ new.length < n ∧ Rounds g env s new u := by
  -- By induction on the rounds that are left; the statements found so far are the first part.
  induction n generalizing s t acc with
  | zero => cases h
  | succ n ih =>
      rw [iterate_succ_run,
        statementRound_run g acc env (skips_of_skipSeparators hskip).filled] at h
      by_cases hend : t.token.kind = .endOfInput
      · rw [if_pos hend] at h
        cases h
        exact ⟨[], by simp, by simp, .done hskip hend⟩
      · rw [if_neg hend] at h
        cases hstatement : g.statement env t with
        | error err v => rw [hstatement] at h; cases h
        | ok a v =>
            rw [hstatement] at h
            simp only at h
            cases hskip' : skipSeparators env v with
            | error err w => rw [hskip'] at h; cases h
            | ok _ w =>
                rw [hskip'] at h
                rcases ih hskip' h with ⟨new, hnew, hlength, hrounds⟩
                refine ⟨a :: new, by simp [hnew], ?_, .next hskip hend hstatement hrounds⟩
                rw [List.length_cons]
                omega

/-- Programs are read in rounds. -/
theorem rounds_of_program {g : Grammar} {p : Program} (h : program g env s = .ok p t) :
    Rounds g env s p.statements t ∧ p.statements.length ≤ env.source.utf8ByteSize + 1 := by
  rw [program_run] at h
  split at h
  · rename_i hskip
    split at h
    · rename_i hloop
      cases h
      rcases rounds_of_iterate hskip hloop with ⟨new, hnew, hlength, hrounds⟩
      rw [List.nil_append] at hnew
      subst hnew
      exact ⟨hrounds, Nat.lt_succ_iff.1 hlength⟩
    · cases h
  · cases h

/-- A loop of statements goes through the rounds that there are, if it may take one more than
    there are statements. -/
theorem iterate_of_rounds {g : Grammar} {n : Nat} {acc as : List Statement}
    (h : Rounds g env s as u) (hskip : skipSeparators env s = .ok () t) (hn : as.length < n) :
    iterate (statementRound g) n acc env t = .ok (acc ++ as) u := by
  induction h generalizing t n acc with
  | @done s t' hskip' hend =>
      -- Both runs have skipped the same separators.
      cases hskip'.symm.trans hskip
      obtain ⟨n, rfl⟩ : ∃ k, n = k + 1 := ⟨n - 1, by omega⟩
      rw [iterate_succ_run, statementRound_run g acc env (skips_of_skipSeparators hskip).filled,
        if_pos hend, List.append_nil]
  | @next s t' u v a as hskip' hend hstatement hrounds ih =>
      cases hskip'.symm.trans hskip
      rw [List.length_cons] at hn
      obtain ⟨n, rfl⟩ : ∃ k, n = k + 1 := ⟨n - 1, by omega⟩
      rw [iterate_succ_run, statementRound_run g acc env (skips_of_skipSeparators hskip).filled,
        if_neg hend, hstatement]
      rcases hrounds.skips with ⟨w, hw⟩
      simp only
      rw [hw]
      simp only
      rw [ih hw (by omega), List.append_assoc]
      rfl

/-- What is read in rounds is a program, if the budget for statements lasts. -/
theorem program_of_rounds {g : Grammar} {as : List Statement} (h : Rounds g env s as t)
    (hlength : as.length ≤ env.source.utf8ByteSize + 1) : program g env s = .ok ⟨as⟩ t := by
  rcases h.skips with ⟨w, hw⟩
  rw [program_run, hw]
  simp only
  rw [iterate_of_rounds h hw (by omega), List.nil_append]

/-- The statements of the text are read by the second parse too. If the second text goes
    on, so does the second parse. -/
theorem Abreast.rounds {g g' : Grammar} (hkeeps : (e.watch guard).Keeps g)
    (hg : Follows e guard g g') (hmade : g'.Made) (hstage : γ.stage = .free)
    (hcoded : γ.coded = false) {as : List Statement} {κ : Nat → Kind}
    (h : Rounds g (e.first (.ofList Language.defaults) guard) s as t)
    (hcode : ∀ a ∈ as, a.hasCode = false) (hs : (e.watch guard).inv (γ.seeing κ) s)
    (hstep : Abreast e s s') :
    (e.tail = [] → ∃ t', Abreast e t t' ∧ t.token.kind = .endOfInput ∧
      Rounds g' (e.second (.ofList Language.defaults) guard) s'
        (as.map (Statement.shift e.shift)) t') ∧
      (e.tail ≠ [] → ∃ u', Beyond e u' ∧ s'.Kept u' ∧ ∀ bs v,
        Rounds g' (e.second (.ofList Language.defaults) guard) u' bs v →
        Rounds g' (e.second (.ofList Language.defaults) guard) s'
          (as.map (Statement.shift e.shift) ++ bs) v) := by
  have hsecond : ∀ {s s' t'}, Abreast e s s' → s'.Skips t' →
      skipSeparators (e.second (.ofList Language.defaults) guard) s' = .ok () t' := by
    rintro s s' t' ⟨lx, mx, hpaired⟩ hskips
    exact (skipSeparators_iff hpaired.second hpaired.within' hpaired.sound').2 hskips
  -- By induction on the rounds of the first parse.
  induction h generalizing κ s' with
  | @done s t hskip hend =>
      rcases hstep.skips (skips_of_skipSeparators hskip) with ⟨hgoes, hends⟩
      refine ⟨fun hnil => ?_, fun htail => ?_⟩
      · rcases hgoes (.inr hnil) with ⟨t', hskips', hstep'⟩
        refine ⟨t', hstep', hend, .done (hsecond hstep hskips') ?_⟩
        rcases hstep'.atEnd hend with ⟨-, htoken⟩ | ⟨-, hbeyond⟩
        · rw [htoken, Token.shift_kind, hend]
        · rcases hbeyond.reached with ⟨_, _, htail, _⟩
          rw [hnil] at htail
          cases htail
      · rcases hends hend htail with ⟨u', hbeyond, hkept, hskips⟩
        exact ⟨u', hbeyond, hkept, fun bs v hrounds => hrounds.of_skip fun w hw =>
          hsecond hstep (hskips _ (skips_of_skipSeparators hw))⟩
  | @next s t u v a as hskip hend hstatement hrounds ih =>
      have hskips := skips_of_skipSeparators hskip
      rcases (hstep.skips hskips).1 (.inl hend) with ⟨t', hskips', hstep'⟩
      rcases (e.watch guard).skips hskips hs with ⟨κ₁, hinv, hseparator⟩
      have hline : κ₁ 0 ≠ .newline := by
        intro hline
        rw [hline] at hseparator
        cases hseparator
      have hplain : a.hasCode = false := hcode a List.mem_cons_self
      rcases hg.statement _ t t' a u (γ.live_seeing κ₁) hstage hline hcoded hplain hinv hstep'
        hstatement with ⟨u', hstatement', hstep''⟩
      -- What was seen of the tokens ahead is needed again for the next round.
      have hyields := hkeeps.statement _ t (γ.live_seeing κ₁) hstage hline hinv
      rw [hstatement] at hyields
      rcases hyields with ⟨_, ⟨-, κ₂, rfl⟩, hu⟩
      rw [hplain, View.coding_false] at hu
      have hend' : t'.token.kind ≠ .endOfInput := by
        have htoken : t.token.kind = κ₁ 0 := ((e.watch guard).sees hinv).token
        rw [(hstep'.take ⟨by rw [htoken]; exact hline, hend⟩).1, Token.shift_kind]
        exact hend
      have hskip' := hsecond hstep hskips'
      have hkept : s'.Kept u' :=
        (made_skipSeparators.kept_ok hskip').trans (hmade.statement.kept_ok hstatement')
      rcases ih (fun b hb => hcode b (List.mem_cons_of_mem _ hb)) hu hstep'' with ⟨hclosed, hopen⟩
      refine ⟨fun hnil => ?_, fun htail => ?_⟩
      · rcases hclosed hnil with ⟨v', hstep₃, hover, hrounds'⟩
        exact ⟨v', hstep₃, hover, .next hskip' hend' hstatement' hrounds'⟩
      · rcases hopen htail with ⟨w', hbeyond, hkept', hrounds'⟩
        exact ⟨w', hbeyond, hkept.trans hkept', fun bs v hv =>
          .next hskip' hend' hstatement' (hrounds' bs v hv)⟩

end Parse

end PolyScript
