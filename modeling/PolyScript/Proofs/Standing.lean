import PolyScript.Proofs.Discipline
import PolyScript.Proofs.Fate

/-!
# The Lexer Behind a State

A state holds tokens that were read ahead and a lexer that stands behind them. What
a parser will see from its cursor on is settled all the same by one lexer, the one
that stood at the cursor: the tokens at hand are those that it yields, and the lexer
of the buffer is where it comes to by yielding them. `Parse.State.At` says this of a
state and a lexer, and the lemmas say how the lexer moves when the state does. So
facts about texts, which are facts about lexers, become facts about parses.

Two lexers that seek the next token from different places but find it at the same one
are as good as each other, which spares us from knowing whether the white space before
the cursor has been passed over yet.

## Main definitions

* `Lexer.Same`: Lexers that find the next token at the same place.
* `TokenBuffer.Feeds`: Tokens of a buffer were read from a lexer.
* `Parse.State.At`: What a state holds from its cursor on was read from a lexer.

## Theorems

* `Parse.State.At.reads`: Reading ahead leaves the lexer where it is.
* `Parse.State.At.token_ok`, `Parse.State.At.token_error`: The current token.
* `Parse.State.At.advanced`: Taking a token moves the lexer past it.
* `Parse.State.At.switched`: Switching the mode switches the lexer's.
-/

namespace PolyScript

namespace Lexer

/-- Lexers of one text that find the next token at the same place, in the same mode. -/
def Same (lx mx : Lexer) : Prop :=
  lx.source = mx.source ∧ lx.sizeMode = mx.sizeMode ∧ lx.tokenStart = mx.tokenStart

variable {lx mx : Lexer}

theorem Same.refl (lx : Lexer) : lx.Same lx := ⟨rfl, rfl, rfl⟩

theorem Same.symm (h : lx.Same mx) : mx.Same lx := ⟨h.1.symm, h.2.1.symm, h.2.2.symm⟩

theorem Same.trans {nx : Lexer} (h : lx.Same mx) (h' : mx.Same nx) : lx.Same nx :=
  ⟨h.1.trans h'.1, h.2.1.trans h'.2.1, h.2.2.trans h'.2.2⟩

theorem Same.next (h : lx.Same mx) : lx.next = mx.next := by
  rcases lx with ⟨source, cursor, sizeMode⟩
  rcases mx with ⟨source', cursor', sizeMode'⟩
  rcases h with ⟨rfl, rfl, hstart⟩
  rw [next_eq, next_eq, hstart]

/-- The place of the next token is as good a place to seek it from. -/
theorem same_of_tokenStart (hsource : lx.source = mx.source) (hmode : lx.sizeMode = mx.sizeMode)
    (hcursor : lx.cursor = mx.tokenStart) : lx.Same mx := by
  refine ⟨hsource, hmode, ?_⟩
  rw [tokenStart, hcursor]
  exact skipBlank_skipBlank false false mx.cursor.rest mx.cursor.here

theorem same_of_cursor (hsource : lx.source = mx.source) (hmode : lx.sizeMode = mx.sizeMode)
    (hcursor : lx.cursor = mx.cursor) : lx.Same mx :=
  ⟨hsource, hmode, by rw [tokenStart, tokenStart, hcursor]⟩

theorem Within.tokenStart {source : String} (h : lx.Within source) :
    lx.tokenStart.Stands source.toList :=
  (cursor_leads_tokenStart lx).stands h.2

end Lexer

namespace TokenBuffer

/-- The tokens, the last ones of a buffer, were read from a lexer. Unless they end in
    the end of the text, or in what stands for it, the lexer of the buffer reads on
    behind them. -/
inductive Feeds (b : TokenBuffer) : Lexer → List Token → Prop
  | rest {lx : Lexer} : b.finished = false → b.failure = none → b.lexer.Same lx → b.Feeds lx []
  | token {lx lx' : Lexer} {t : Token} {ts : List Token} :
    lx.next = (.ok t, lx') → t.isEnd = false → b.Feeds lx' ts → b.Feeds lx (t :: ts)
  | done {lx : Lexer} {t : Token} : lx.next = (.ok t, b.lexer) → t.isEnd = true →
    b.finished = true → b.failure = none → b.Feeds lx [t]
  | fail {lx : Lexer} {i : Nat} {e : LexError} : lx.next = (.error e, b.lexer) →
    b.finished = true → b.failure = some (i, e) → b.Feeds lx [Token.endAt e.position]

variable {b : TokenBuffer} {lx mx : Lexer} {ts : List Token}

theorem Feeds.of_same (h : b.Feeds lx ts) (hsame : lx.Same mx) : b.Feeds mx ts := by
  cases h with
  | rest hopen hnone hlexer => exact .rest hopen hnone (hlexer.trans hsame)
  | token hnext hend h => exact .token (hsame.next ▸ hnext) hend h
  | done hnext hend hfinished hnone => exact .done (hsame.next ▸ hnext) hend hfinished hnone
  | fail hnext hfinished hfailure => exact .fail (hsame.next ▸ hnext) hfinished hfailure

/-- The lexers on the way share the text and the mode. -/
theorem Feeds.lexer (h : b.Feeds lx ts) :
    b.lexer.source = lx.source ∧ b.lexer.sizeMode = lx.sizeMode := by
  induction h with
  | rest _ _ hsame => exact ⟨hsame.1, hsame.2.1⟩
  | token hnext _ _ ih =>
      rcases Lexer.next_ok hnext with ⟨hlx, _⟩
      rw [hlx] at ih
      exact ih
  | done hnext =>
      rcases Lexer.next_ok hnext with ⟨hlx, _⟩
      rw [hlx]
      exact ⟨rfl, rfl⟩
  | fail hnext =>
      rcases Lexer.next_error hnext with ⟨hlx, _⟩
      rw [hlx]
      exact ⟨rfl, rfl⟩

/-- Reading one token more appends one to those that were read from the lexer. Nothing is
    appended behind the end of the text, which the hypothesis excludes. -/
theorem Feeds.readOne (h : b.Feeds lx ts) (hopen : b.finished = false) :
    ∃ t, b.readOne.tokens = b.tokens.push t ∧ b.readOne.Feeds lx (ts ++ [t]) := by
  cases hnext : b.lexer.next with
  | mk result lexer =>
  cases result with
  | ok t =>
      have hread : b.readOne =
          { b with lexer, tokens := b.tokens.push t, finished := t.isEnd } := by
        rw [TokenBuffer.readOne, hnext]
      refine ⟨t, by rw [hread], ?_⟩
      induction h with
      | rest _ hnone hsame =>
          rw [hsame.next] at hnext
          by_cases hend : t.isEnd = true
          · exact .done (by rw [hread]; exact hnext) hend (by rw [hread]; exact hend)
              (by rw [hread]; exact hnone)
          · rw [Bool.not_eq_true] at hend
            refine .token hnext hend (.rest ?_ ?_ ?_)
            · rw [hread]
              exact hend
            · rw [hread]
              exact hnone
            · rw [hread]
              exact .refl _
      -- what was read before stays read: only the last rule of the derivation is replaced
      | token hbefore hnot _ ih => exact .token hbefore hnot ih
      | done _ _ hfinished => rw [hopen] at hfinished; cases hfinished
      | fail _ hfinished => rw [hopen] at hfinished; cases hfinished
  | error e =>
      have hread : b.readOne =
          ⟨lexer, b.tokens.push (Token.endAt e.position), true, some (b.tokens.size, e)⟩ := by
        rw [TokenBuffer.readOne, hnext]
      refine ⟨Token.endAt e.position, by rw [hread], ?_⟩
      induction h with
      | rest _ _ hsame =>
          rw [hsame.next] at hnext
          exact .fail (by rw [hread]; exact hnext) (by rw [hread]) (by rw [hread])
      | token hbefore hnot _ ih => exact .token hbefore hnot ih
      | done _ _ hfinished => rw [hopen] at hfinished; cases hfinished
      | fail _ hfinished => rw [hopen] at hfinished; cases hfinished

/-- Reading more tokens keeps those from an index on a part of what the lexer yields. -/
theorem Feeds.readMore {c : Nat} (h : b.Feeds lx (b.tokens.toList.drop c))
    (hc : c ≤ b.tokens.size) (n : Nat) :
    (readMore n b).Feeds lx ((readMore n b).tokens.toList.drop c) := by
  induction n generalizing b with
  | zero => exact h
  | succ n ih =>
      unfold TokenBuffer.readMore
      split
      · exact h
      · rename_i hopen
        rcases h.readOne (by simpa using hopen) with ⟨t, ht, hnext⟩
        refine ih ?_ (by rw [ht, Array.size_push]; omega)
        rw [ht, Array.toList_push, List.drop_append_of_le_length (by simpa using hc)]
        exact hnext

end TokenBuffer

namespace Parse

namespace State

/-- What a state holds from its cursor on was read from a lexer. -/
def At (s : State) (lx : Lexer) : Prop :=
  s.buffer.Feeds lx (s.buffer.tokens.toList.drop s.cursor)

variable {source : String} {s t : State} {lx lx' mx : Lexer} {u : Token} {e : LexError}

theorem at_initial (source : String) : (State.initial source).At (Lexer.ofSource source) :=
  .rest rfl rfl (.refl _)

theorem At.of_same (h : s.At lx) (hsame : lx.Same mx) : s.At mx := TokenBuffer.Feeds.of_same h hsame

theorem At.withFrame (h : s.At lx) (depth loopDepth : Nat) (isRelaxed : Bool) :
    (s.withFrame depth loopDepth isRelaxed).At lx := h

theorem At.mode (h : s.At lx) : s.buffer.lexer.sizeMode = lx.sizeMode :=
  (TokenBuffer.Feeds.lexer h).2

theorem At.reads (h : s.At lx) (hs : s.Sound source) (hreads : s.Reads t) : t.At lx := by
  rcases hreads with ⟨n, rfl⟩
  exact TokenBuffer.Feeds.readMore h hs.cursor_le n

theorem At.filled (h : s.At lx) (hs : s.Sound source) : s.filled.At lx :=
  h.reads hs s.reads_filled

theorem Sound.drop_filled (hs : s.Sound source) :
    s.filled.buffer.tokens.toList.drop s.cursor =
      s.token :: s.filled.buffer.tokens.toList.drop (s.cursor + 1) := by
  have hsome := hs.getElem?_filled
  rw [← Array.getElem?_toList] at hsome
  rcases List.getElem?_eq_some_iff.1 hsome with ⟨hlt, hget⟩
  rw [List.drop_eq_getElem_cons hlt, hget]

/-- The current token is the next one of the lexer. -/
theorem At.token_ok (h : s.At lx) (hs : s.Sound source) (hnext : lx.next = (.ok u, lx')) :
    s.token = u := by
  have hfeeds := h.filled hs
  rw [At, show s.filled.cursor = s.cursor from rfl, hs.drop_filled] at hfeeds
  generalize s.filled.buffer.tokens.toList.drop (s.cursor + 1) = rest at hfeeds
  generalize s.token = v at hfeeds ⊢
  cases hfeeds with
  | token hlx => cases hlx.symm.trans hnext; rfl
  | done hlx => cases hlx.symm.trans hnext; rfl
  | fail hlx => cases hlx.symm.trans hnext

/-- An error of the lexer is feigned to be the end of the text, and recorded. -/
theorem At.token_error (h : s.At lx) (hs : s.Sound source) (hnext : lx.next = (.error e, lx')) :
    s.token = Token.endAt e.position ∧ ∃ i, s.filled.buffer.failure = some (i, e) := by
  have hfeeds := h.filled hs
  rw [At, show s.filled.cursor = s.cursor from rfl, hs.drop_filled] at hfeeds
  generalize s.filled.buffer.tokens.toList.drop (s.cursor + 1) = rest at hfeeds
  generalize s.token = u at hfeeds
  cases hfeeds with
  | token hlx => cases hlx.symm.trans hnext
  | done hlx => cases hlx.symm.trans hnext
  | fail hlx _ hfailure =>
      cases hlx.symm.trans hnext
      exact ⟨rfl, _, hfailure⟩

/-- A current token that is not the end of the text was read by the lexer. -/
theorem At.next_of_token (h : s.At lx) (hs : s.Sound source)
    (hend : s.token.kind ≠ .endOfInput) : ∃ lx', lx.next = (.ok s.token, lx') := by
  cases hnext : lx.next with
  | mk result lx' =>
  cases result with
  | ok u => exact ⟨lx', by rw [h.token_ok hs hnext]⟩
  | error e =>
      rw [(h.token_error hs hnext).1] at hend
      exact absurd rfl hend

/-- Taking the current token moves the lexer past it. -/
theorem At.advanced (h : s.At lx) (hs : s.Sound source) (hnext : lx.next = (.ok u, lx'))
    (hend : u.isEnd = false) : s.advanced.At lx' := by
  have htoken := h.token_ok hs hnext
  have hfeeds := h.filled hs
  rw [At, show s.filled.cursor = s.cursor from rfl, hs.drop_filled, htoken] at hfeeds
  rw [At, cursor_advanced (by rw [htoken]; exact hend)]
  change s.filled.buffer.Feeds lx' (s.filled.buffer.tokens.toList.drop (s.cursor + 1))
  generalize s.filled.buffer.tokens.toList.drop (s.cursor + 1) = rest at hfeeds
  cases hfeeds with
  | token hlx _ hrest =>
      cases hlx.symm.trans hnext
      exact hrest
  | done _ hdone => rw [hend] at hdone; cases hdone
  | fail hlx => cases hlx.symm.trans hnext

/-- A failure stands at the last token, which is not before the cursor. -/
theorem Sound.failure_restart (hs : s.Sound source) (resume : Position) :
    (s.buffer.restart s.cursor resume).failure = none := by
  cases hfailure : s.buffer.failure with
  | none => simp [TokenBuffer.restart, hfailure]
  | some f =>
      rcases f with ⟨i, e⟩
      rcases hs.buffer.failed i e hfailure with ⟨hfinished, _, ts, hall, hlength⟩
      have hlt := hs.cursor_lt hfinished
      rw [← Array.length_toList, hall] at hlt
      simp only [List.length_append, List.length_singleton] at hlt
      simp only [TokenBuffer.restart, hfailure, Option.filter_eq_none_iff, Option.some.injEq,
        decide_eq_true_eq]
      rintro _ rfl
      simp only
      omega

theorem drop_restart (s : State) (resume : Position) :
    (s.buffer.restart s.cursor resume).tokens.toList.drop s.cursor = [] := by
  simp [TokenBuffer.restart]

/-- The state after reading is set to another place of the text. -/
theorem Sound.at_restart (hs : s.Sound source) (resume : Position) :
    ({ s with buffer := s.buffer.restart s.cursor resume } : State).At
      (s.buffer.lexer.resetTo resume) := by
  change TokenBuffer.Feeds _ _ ((s.buffer.restart s.cursor resume).tokens.toList.drop s.cursor)
  rw [drop_restart]
  exact .rest rfl (hs.failure_restart resume) (.refl _)

/-- Where reading resumes if the mode is switched. -/
def resume (s : State) : Position :=
  match s.buffer.tokens[s.cursor]? with
  | some token => token.position
  | none => s.buffer.lexer.location

/-- Behind a switch of the mode, a state stands at its lexer as it was at the place where reading
    resumes. -/
theorem Sound.at_switched (hs : s.Sound source) {sizeMode : Bool}
    (hmode : s.buffer.lexer.sizeMode ≠ sizeMode) :
    (Parse.switchSizeMode sizeMode s).At { s.buffer.lexer.resetTo s.resume with sizeMode } := by
  have hswitch : Parse.switchSizeMode sizeMode s = { s with
      buffer := { s.buffer.restart s.cursor s.resume with
        lexer := { s.buffer.lexer.resetTo s.resume with sizeMode } } } := by
    unfold Parse.switchSizeMode TokenBuffer.setSizeMode
    rw [if_neg hmode]
    rfl
  rw [hswitch]
  change TokenBuffer.Feeds _ _ ((s.buffer.restart s.cursor s.resume).tokens.toList.drop s.cursor)
  rw [drop_restart]
  exact .rest rfl (hs.failure_restart s.resume) (.refl _)

/-- Reading resumes at the next token, unless it could not be read. -/
theorem At.resume_eq (h : s.At lx) :
    s.resume = lx.tokenStart.here ∨ s.buffer.lexer.Same lx ∧ s.resume = s.buffer.lexer.location ∨
      ∃ e lx', lx.next = (.error e, lx') ∧ s.resume = e.position := by
  rw [At] at h
  unfold State.resume
  cases htoken : s.buffer.tokens[s.cursor]? with
  | none =>
      have hnil : s.buffer.tokens.toList.drop s.cursor = [] := by
        rw [List.drop_eq_nil_iff, Array.length_toList]
        simpa using htoken
      rw [hnil] at h
      cases h with
      | rest _ _ hsame => exact .inr (.inl ⟨hsame, rfl⟩)
  | some u =>
      rw [← Array.getElem?_toList] at htoken
      rcases List.getElem?_eq_some_iff.1 htoken with ⟨hlt, hget⟩
      rw [List.drop_eq_getElem_cons hlt, hget] at h
      -- What is behind the current token has no part in it.
      generalize s.buffer.tokens.toList.drop (s.cursor + 1) = rest at h
      cases h with
      | token hnext => exact .inl (Lexer.next_ok hnext).2.1
      | done hnext => exact .inl (Lexer.next_ok hnext).2.1
      | fail hnext => exact .inr (.inr ⟨_, _, hnext, rfl⟩)

/-- The lexer that reads on where a token was found finds it again. -/
theorem At.same_resetTo (h : s.At lx) (hlx : lx.Within source) (sizeMode : Bool) :
    ({ s.buffer.lexer.resetTo lx.tokenStart.here with sizeMode } : Lexer).Same
      { lx with sizeMode } := by
  have hsource : s.buffer.lexer.source = lx.source := (TokenBuffer.Feeds.lexer h).1
  refine Lexer.same_of_tokenStart hsource rfl (Lexer.resetTo_cursor ?_)
  rw [hsource, hlx.1]
  exact hlx.tokenStart

/-- So does the lexer that reads on where that of the buffer stands. -/
theorem Sound.same_resetTo_location (hs : s.Sound source) (sizeMode : Bool) :
    ({ s.buffer.lexer.resetTo s.buffer.lexer.location with sizeMode } : Lexer).Same
      { s.buffer.lexer with sizeMode } := by
  refine Lexer.same_of_cursor rfl rfl ?_
  exact Lexer.resetTo_cursor (c := s.buffer.lexer.cursor)
    (by rw [hs.buffer.source_eq]; exact hs.buffer.stands)

/-- Switching the mode switches that of the lexer, except at an invalid escape: there
    the lexer resumes at the backslash. -/
theorem At.switched (h : s.At lx) (hs : s.Sound source) (hlx : lx.Within source)
    (sizeMode : Bool) :
    (Parse.switchSizeMode sizeMode s).At { lx with sizeMode } ∨
      ∃ sequence p lx' mx rest, lx.next = (.error (.invalidEscape sequence p), lx') ∧
        (Parse.switchSizeMode sizeMode s).At mx ∧ mx.Within source ∧ mx.sizeMode = sizeMode ∧
        mx.cursor = ⟨'\\' :: rest, p⟩ := by
  by_cases hmode : s.buffer.lexer.sizeMode = sizeMode
  · left
    have hkept : Parse.switchSizeMode sizeMode s = s := by
      unfold Parse.switchSizeMode TokenBuffer.setSizeMode
      rw [if_pos hmode]
    rw [hkept, ← hmode, h.mode]
    exact h
  · have hswitched := hs.at_switched hmode
    -- where the lexer resumes: at the current token, where it stands, or at its error
    rcases h.resume_eq with hresume | ⟨hsame, hresume⟩ | ⟨e, lx', hnext, hresume⟩
    · rw [hresume] at hswitched
      exact .inl (hswitched.of_same (h.same_resetTo hlx sizeMode))
    · rw [hresume] at hswitched
      have hahead : ({ s.buffer.lexer with sizeMode } : Lexer).Same { lx with sizeMode } :=
        ⟨hsame.1, rfl, hsame.2.2⟩
      exact .inl (hswitched.of_same ((hs.same_resetTo_location sizeMode).trans hahead))
    · rcases Lexer.next_error hnext with ⟨_, _, hplace | ⟨sequence, rest, p, rfl, hleads⟩⟩
      · rw [hresume, hplace] at hswitched
        exact .inl (hswitched.of_same (h.same_resetTo hlx sizeMode))
      · have hstands := hleads.stands hlx.tokenStart
        have hsource : s.buffer.lexer.source = source :=
          (TokenBuffer.Feeds.lexer h).1.trans hlx.1
        have hcursor : (s.buffer.lexer.resetTo s.resume).cursor = ⟨'\\' :: rest, p⟩ := by
          rw [hresume]
          exact Lexer.resetTo_cursor (c := ⟨'\\' :: rest, p⟩) (by rw [hsource]; exact hstands)
        refine .inr ⟨sequence, p, lx', _, rest, hnext, hswitched, ⟨hsource, ?_⟩, rfl, hcursor⟩
        change (s.buffer.lexer.resetTo s.resume).cursor.Stands source.toList
        rw [hcursor]
        exact hstands

end State

end Parse

end PolyScript
