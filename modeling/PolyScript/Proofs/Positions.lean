import PolyScript.Proofs.Discipline

/-!
# Positions Agree With the Text

Whatever a parse mentions stands where it says it stands. Line and column are kept
up to date by the lexer character by character, computed afresh behind a block of
guest code, and set back to those of a token whenever the mode is switched. All of
these agree with counting from the start of the text, for trees as well as for
errors, under any settings.

The proof has one discipline, `Parse.placing`: states stay sound, and errors stand
at places. The only step that is not about tokens is the one behind guest code,
where reading resumes at a place that was found by cutting the text.

## Main definitions

* `Position.Agrees`: Line, column and offset are what counting gives.
* `Parse.placing`: The discipline of sound states.

## Theorems

* `Parse.guestCodeAt?_place`: Reading resumes at a place behind the brace.
* `positions_agree`: Every position of a parse agrees with the text.
-/

namespace PolyScript

/-- A position agrees with a text: its offset falls between two characters, its line
    is one more than the number of line feeds before it, and its column is one more
    than the number of characters since the last of them. -/
def Position.Agrees (source : String) (p : Position) : Prop :=
  ∃ before rest, source.toList = before ++ rest ∧ p.offset = byteCount before ∧
    p.line = 1 + before.count '\n' ∧ p.column = 1 + (lastLine before).length

theorem ParseError.Ordinary.within {P : Position → Prop} {e : ParseError} (h : e.Ordinary P) :
    e.Within P := by
  cases e with
  | tooDeep => exact h.elim
  | lexical => exact h.elim
  | _ => exact h

/-- Whatever an outcome mentions agrees with a text. -/
def AgreesThroughout {α : Type} (source : String) (positions : α → List Position) :
    Except ParseError α → Prop
  | .ok a => ∀ p ∈ positions a, p.Agrees source
  | .error e => ∀ p ∈ e.positions, p.Agrees source

/-- A rule never raises the error of the guard by itself. -/
theorem ParseError.Ordinary.ne_tooDeep {P : Position → Prop} {e : ParseError} (h : e.Ordinary P)
    {limit : Nat} : ∀ depth p, e = .tooDeep depth p → depth = limit := by
  rintro depth p rfl
  exact h.elim

namespace Parse

/-! ### Guest code -/

/-- A text that can be split at a number of bytes is put together again from the parts, and the
    first one is that long. -/
theorem splitBytes?_append {n : Nat} {cs before rest : List Char}
    (h : Text.splitBytes? n cs = some (before, rest)) :
    cs = before ++ rest ∧ Position.byteCount before = n := by
  fun_induction Text.splitBytes? n cs generalizing before with
  | case1 =>
      cases h
      exact ⟨rfl, rfl⟩
  | case2 => cases h
  | case3 =>
      cases h
      exact ⟨rfl, rfl⟩
  | case4 n c cs hn hle inner after heq ih =>
      cases h
      rcases ih heq with ⟨hcs, hcount⟩
      refine ⟨by rw [hcs, List.cons_append], ?_⟩
      rw [Position.byteCount] at hcount ⊢
      rw [List.map_cons, List.sum_cons, hcount]
      omega
  | case5 => cases h
  | case6 => cases h

/-- Guest code ends before a closing brace. -/
theorem guestCode_append {depth : Nat} {quote : Option Char} {escaped : Bool}
    {cs code : List Char} (h : guestCode depth quote escaped cs = some code) :
    ∃ rest, cs = code ++ '\x7d' :: rest := by
  -- Whatever the state of the scan, a character that is passed over only lengthens the code.
  have hcons : ∀ {c : Char} {cs code : List Char} {inner : Option (List Char)},
      (∀ code, inner = some code → ∃ rest, cs = code ++ '\x7d' :: rest) →
      inner.map (c :: ·) = some code → ∃ rest, c :: cs = code ++ '\x7d' :: rest := by
    intro c cs code inner hinner hmap
    rcases Option.map_eq_some_iff.1 hmap with ⟨tail, htail, rfl⟩
    rcases hinner tail htail with ⟨rest, rfl⟩
    exact ⟨rest, rfl⟩
  fun_induction guestCode depth quote escaped cs generalizing code with
  | case1 => cases h
  | case2 _ _ _ _ ih => exact hcons (fun _ => ih) h
  | case3 _ _ _ ih => exact hcons (fun _ => ih) h
  | case4 _ _ _ _ _ _ ih => exact hcons (fun _ => ih) h
  | case5 _ _ _ _ _ _ ih => exact hcons (fun _ => ih) h
  | case6 _ _ _ _ _ ih => exact hcons (fun _ => ih) h
  | case7 _ _ _ _ ih => exact hcons (fun _ => ih) h
  | case8 =>
      cases h
      exact ⟨_, rfl⟩
  | case9 _ _ _ _ _ ih => exact hcons (fun _ => ih) h
  | case10 _ _ _ _ _ _ _ ih => exact hcons (fun _ => ih) h

/-- Reading resumes at a place of the text, behind the brace that opens guest
    code. -/
theorem guestCodeAt?_place {source code : String} {start : Nat} {resume : Position}
    (h : guestCodeAt? source start = some (code, resume)) :
    resume.IsPlace source.toList ∧ start < resume.offset := by
  unfold guestCodeAt? at h
  split at h
  · cases h
  · rename_i before rest hsplit
    rcases Option.map_eq_some_iff.1 h with ⟨code, hcode, hresume⟩
    cases hresume
    rcases splitBytes?_append hsplit with ⟨hsource, hcount⟩
    rcases guestCode_append hcode with ⟨after, hrest⟩
    refine ⟨⟨before ++ code ++ ['\x7d'], after, ?_, rfl⟩, ?_⟩
    · rw [hsource, hrest]
      simp
    · rw [Position.offset_after, Position.byteCount, List.map_append, List.map_append,
        List.sum_append, List.sum_append]
      rw [Position.byteCount] at hcount
      -- The brace that ends the code takes one byte.
      have hbrace : ([Char.utf8Size '\x7d']).sum = 1 := rfl
      simp only [List.map_cons, List.map_nil, hbrace]
      omega

/-- Resuming behind guest code keeps a state sound. -/
theorem State.Sound.guest {source : String} {s : State} (h : s.Sound source) {code : String}
    {resume : Position} (hbrace : s.token.kind = .leftBrace)
    (hcode : guestCodeAt? source s.token.stop = some (code, resume)) :
    ({ s.advanced with
      buffer := s.advanced.buffer.restart s.advanced.cursor resume } : State).Sound source := by
  rcases guestCodeAt?_place hcode with ⟨hplace, hbehind⟩
  have hnot : s.token.isEnd = false := by simp [Token.isEnd, hbrace]
  refine h.advanced.restart hplace fun t ht => ?_
  rw [State.cursor_advanced hnot, List.take_add_one] at ht
  have hstop := h.place.2
  rcases List.mem_append.1 ht with hbefore | hlast
  · have := h.filled.before_cursor h.getElem?_filled t hbefore
    omega
  · change t ∈ (s.filled.buffer.tokens.toList[s.cursor]?).toList at hlast
    rw [Array.getElem?_toList, h.getElem?_filled] at hlast
    rw [Option.mem_toList.1 hlast |> Option.some.inj |>.symm]
    omega

/-! ### The discipline -/

/-- Sound states, and errors at places of the text, among which those of the guard
    name its limit. -/
def placing (env : Env) : Discipline (Position.IsPlace env.source.toList) True env where
  inv γ s := s.Sound env.source ∧ s.Sees γ.kind
  fails e t := e.Within (Position.IsPlace env.source.toList) ∧ t.Sound env.source ∧
    ∀ depth p, e = .tooDeep depth p → depth = env.guard.maxDepth
  sees h := h.2
  place h _ := h.1.place.1
  reads h hreads := ⟨h.1.reads hreads, h.2.reads hreads⟩
  take := by
    intro γ γ' s κ h hahead htakes
    have hsees : s.Sees κ := by
      have := h.2
      rwa [show γ.kind = κ by funext n; rw [View.kind, hahead]] at this
    exact ⟨h.1.advanced, hsees.advanced htakes.ne_end⟩
  spend := by
    intro γ s h hend
    refine ⟨h.1, fun n => ?_⟩
    have htoken : s.token.kind = .endOfInput := by rw [h.2.token, hend]
    rw [h.1.tokenAt_end (by simp [Token.isEnd, htoken]), htoken]
    rfl
  revive := by
    intro γ s h hahead
    refine ⟨h.1, fun n => ?_⟩
    rw [h.2 n, View.kind, hahead]
    rfl
  frame _ _ _ h := ⟨⟨h.1.1, h.1.2, h.1.3⟩, h.2⟩
  sizeOn h _ _ := ⟨_, h.1.switchSizeMode true, State.sees _⟩
  sizeOff h _ := ⟨_, h.1.switchSizeMode false, State.sees _⟩
  allowed _ _ _ _ := trivial
  last _ := ⟨env.source.toList, [], by simp, rfl⟩
  guest _ h _ _ hbrace hcode := ⟨_, h.1.guest hbrace hcode, State.sees _⟩
  refuse h he := ⟨he.within, h.1, ParseError.Ordinary.ne_tooDeep he⟩
  reject := by
    intro γ s e h he
    refine ⟨fun p hp => ?_, h.1.filled, ParseError.Ordinary.ne_tooDeep he.2⟩
    rcases he.2.within p hp with hplace | rfl
    · exact hplace
    · exact h.1.place.1
  deep h hwanders :=
    ⟨List.forall_mem_singleton.2 (h.1.wanders hwanders).place.1, (h.1.wanders hwanders).filled,
      fun _ _ he => (ParseError.tooDeep.inj he).1.symm⟩
  failsFrame _ _ _ h := ⟨h.1, ⟨h.2.1.1, h.2.1.2, h.2.1.3⟩, h.2.2⟩
  failsSize h := ⟨h.1, h.2.1.switchSizeMode false, h.2.2⟩

/-- A parser that runs under the discipline of sound states mentions places only. This holds
    of its result, of its own error, and of the error of the lexer that takes the place of
    either. -/
theorem agrees_run {α : Type} {p : Parse α} {positions : α → List Position} {env : Env}
    (h : ∀ s κ, (placing env).inv (View.start κ) s → (placing env).Yields
      (fun a _ => ∀ q ∈ positions a, q.IsPlace env.source.toList) (p env s)) :
    AgreesThroughout env.source positions (run p env) := by
  have hagrees : ∀ q, q.IsPlace env.source.toList → Position.Agrees env.source q :=
    fun q => (Position.isPlace_iff env.source.toList q).1
  have hlexical : ∀ (t : State) (lex : LexError), t.Sound env.source →
      t.buffer.lexError? = some lex → ∀ q ∈ [lex.position], Position.Agrees env.source q := by
    intro t lex ht hlex
    rcases Option.map_eq_some_iff.1 hlex with ⟨⟨i, e⟩, hfailure, rfl⟩
    exact List.forall_mem_singleton.2 (hagrees _ (ht.buffer.failed i e hfailure).2.1)
  have hstart := h (State.initial env.source) _ ⟨State.sound_initial env.source, State.sees _⟩
  -- With a result or an error of its own, the state may still carry an error of the lexer, which
  -- has a place as well.
  cases hrun : p env (State.initial env.source) with
  | ok a t =>
      rw [run_of_ok hrun]
      rw [hrun] at hstart
      rcases hstart with ⟨_, ha, ht, _⟩
      cases hlex : t.buffer.lexError? with
      | none =>
          simp only [settle]
          exact fun q hq => hagrees q (ha q hq)
      | some lex =>
          simp only [settle]
          exact hlexical t lex ht hlex
  | error e t =>
      rw [run_of_error hrun]
      rw [hrun] at hstart
      cases hlex : t.buffer.lexError? with
      | none =>
          simp only [settle]
          exact fun q hq => hagrees q (hstart.1 q hq)
      | some lex =>
          simp only [settle]
          split
          · exact fun q hq => hagrees q (hstart.1 q hq)
          · exact hlexical t lex hstart.2.1 hlex

end Parse

/-- Under any settings, every position that a parse of a program, an expression or a
    pattern mentions, in its tree or in its error, agrees with the text. -/
theorem positions_agree (settings : Settings) (source : String) :
    AgreesThroughout source Program.positions ((Parser.ofSettings settings).parse source) ∧
      AgreesThroughout source Expr.positions
        ((Parser.ofSettings settings).parseExpression source) ∧
      AgreesThroughout source Pattern.positions
        ((Parser.ofSettings settings).parsePattern source) := by
  have hbuiltin := Registry.isBuiltin_ofSettings settings
  refine ⟨?_, ?_, ?_⟩
  · apply Parse.agrees_run
    intro s κ hs
    exact (Parse.Discipline.yields_program hbuiltin _ hs).imp fun _ _ h => h.1
  · apply Parse.agrees_run
    intro s κ hs
    exact (Parse.Discipline.yields_expressionText hbuiltin _ hs).imp fun _ _ h => h.1
  · apply Parse.agrees_run
    intro s κ hs
    exact (Parse.Discipline.yields_patternText hbuiltin _ hs).imp fun _ _ h => h.1

end PolyScript
