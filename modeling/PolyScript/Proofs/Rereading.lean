import PolyScript.Proofs.Cursors
import PolyScript.Proofs.Standing

/-!
# Reading Again in the Other Mode

A stream whose mode is switched drops the tokens that it read ahead and reads them again.
What it shows from then on should be what a lexer shows that is set to the first character
of the current token in the new mode. How much had been read ahead should not matter, and
neither should an error that was met on the way, since it is dropped with the tokens.

The stream does not remember where the current token begins. It resumes at the position of
the token that it holds, and if it holds none, where its lexer stands. For a token that was
read this is its first character. For one that could not be read the stream holds an end of
the text in its place, at the position of the error, which is where the scan began, unless
the error is an invalid escape. That one is reported at the backslash, so the stream goes on
in the middle of the string, and the backslash is then a character that begins no token.

## Main definitions

* `StreamOp`, `TokenStream`: A buffer that is read through one cursor.
* `TokenStream.scanStart`: Where the scan of the current token begins.
* `TokenStream.AtInvalidEscape`: The current token was found to be a string with an invalid
  escape.
* `TokenStream.Shows`: What a stream shows from its cursor on is what a lexer reads.

## Theorems

* `Parse.State.At.tokenAt_eager`, `Parse.State.At.lexError?_eager`: What lies ahead of a
  state is what its lexer reads beforehand.
* `Parse.State.At.switched_of_escape`: Switching the mode at any other token switches that
  of the lexer.
* `mode_switch_rereads`: After a switch the stream reads the same text from the same place
  in the new mode, and switching back undoes it.
* `mode_switch_inside_string`: At an invalid escape it does not.
-/

namespace PolyScript

namespace Lexer

variable {lx lx' : Lexer} {t : Token} {e : LexError}

theorem eager_token (hnext : lx.next = (.ok t, lx')) (hend : t.isEnd = false) :
    lx.eager = (t :: lx'.eager.1, lx'.eager.2) := by
  have hshorter := next_shorter hnext hend
  have hrest : eagerWithin lx.cursor.rest.length lx' = lx'.eager := by
    have hle := length_eagerWithin_le (lx'.cursor.rest.length + 1) lx'
    have hall : lx'.eager.1.length ≤ lx.cursor.rest.length := Nat.le_trans hle hshorter
    rw [eagerWithin_eq, List.take_of_length_le hall, if_pos hall]
  rw [eager, eagerWithin, hnext]
  simp only [hend, hrest, Bool.false_eq_true, if_false]

theorem eager_end (hnext : lx.next = (.ok t, lx')) (hend : t.isEnd = true) :
    lx.eager = ([t], none) := by
  rw [eager, eagerWithin, hnext]
  simp only [hend, if_true]

theorem eager_error (hnext : lx.next = (.error e, lx')) :
    lx.eager = ([Token.endAt e.position], some e) := by
  rw [eager, eagerWithin, hnext]

/-- Only the last of the tokens is the end. -/
theorem length_eagerWithin_of_isEnd {n i : Nat} {lx : Lexer} {t : Token}
    (ht : (eagerWithin n lx).1[i]? = some t) (hend : t.isEnd = true) :
    (eagerWithin n lx).1.length ≤ i + 1 := by
  induction n generalizing i lx with
  | zero => exact Nat.zero_le _
  | succ n ih =>
      rw [eagerWithin] at ht ⊢
      rcases hnext : lx.next with ⟨e | token, after⟩
      · simp
      · by_cases hlast : token.isEnd = true
        · simp [hlast]
        · simp only [hnext, hlast, Bool.false_eq_true, if_false, List.length_cons] at ht ⊢
          cases i with
          | zero =>
              cases ht
              exact absurd hend hlast
          | succ i => exact Nat.succ_le_succ (ih ht)

theorem length_eager_le {n : Nat} (h : (TokenList.get lx.eager.1 n).isEnd = true) :
    lx.eager.1.length ≤ n + 1 := by
  rw [TokenList.get] at h
  cases hnth : lx.eager.1[n]? with
  | none => exact Nat.le_succ_of_le (List.getElem?_eq_none_iff.1 hnth)
  | some t =>
      rw [hnth] at h
      exact length_eagerWithin_of_isEnd hnth h

end Lexer

/-! ### What lies ahead -/

namespace TokenBuffer

variable {b : TokenBuffer} {lx : Lexer} {ts : List Token}

/-- A buffer that has come to the end holds all tokens that its lexer reads beforehand. -/
theorem Feeds.eager_of_finished (h : b.Feeds lx ts) (hfinished : b.finished = true) :
    ts = lx.eager.1 ∧ b.lexError? = lx.eager.2 := by
  induction h with
  | rest hopen => exact Bool.noConfusion (hopen.symm.trans hfinished)
  | token hnext hend _ ih =>
      rw [Lexer.eager_token hnext hend]
      exact ⟨congrArg _ ih.1, ih.2⟩
  | done hnext hend _ hnone =>
      rw [Lexer.eager_end hnext hend, lexError?, hnone]
      exact ⟨rfl, rfl⟩
  | fail hnext _ hfailure =>
      rw [Lexer.eager_error hnext, lexError?, hfailure]
      exact ⟨rfl, rfl⟩

/-- One that has not holds the first of them, and knows of no error. -/
theorem Feeds.eager_of_open (h : b.Feeds lx ts) (hopen : b.finished = false) :
    b.lexError? = none ∧ ts.length < lx.eager.1.length ∧ ts <+: lx.eager.1 := by
  induction h with
  | rest _ hnone =>
      rw [lexError?, hnone]
      exact ⟨rfl, Lexer.eager_length_pos _, List.nil_prefix⟩
  | token hnext hend _ ih =>
      rw [Lexer.eager_token hnext hend]
      exact ⟨ih.1, Nat.succ_lt_succ ih.2.1, (List.prefix_cons_inj _).2 ih.2.2⟩
  | done _ _ hfinished => exact Bool.noConfusion (hopen.symm.trans hfinished)
  | fail _ hfinished => exact Bool.noConfusion (hopen.symm.trans hfinished)

end TokenBuffer

namespace Parse

namespace State

variable {source : String} {s : State} {lx : Lexer}

/-- The state after a look at the token some places ahead. -/
def filledTo (s : State) (n : Nat) : State := { s with buffer := s.buffer.fill (s.cursor + n) }

theorem reads_filledTo (s : State) (n : Nat) : s.Reads (s.filledTo n) := ⟨_, rfl⟩

/-- The tokens ahead are those that the lexer reads beforehand. Whatever has been read already,
    and however often the mode was switched to get here, the list from the cursor on is that of
    one lexer. -/
theorem At.tokenAt_eager (h : s.At lx) (hs : s.Sound source) (n : Nat) :
    s.buffer.tokenAt (s.cursor + n) = TokenList.get lx.eager.1 n := by
  have hfeeds : (s.filledTo n).At lx := h.reads hs (s.reads_filledTo n)
  have hready := TokenBuffer.fill_ready s.buffer (s.cursor + n)
  change (s.filledTo n).buffer.get (s.cursor + n) = _
  rw [At, show (s.filledTo n).cursor = s.cursor from rfl] at hfeeds
  have hget : (s.filledTo n).buffer.tokens[s.cursor + n]? =
      ((s.filledTo n).buffer.tokens.toList.drop s.cursor)[n]? := by
    rw [List.getElem?_drop, Array.getElem?_toList]
  -- If all has been read, the tokens are all there are and the last one stands for those behind
  -- it. Otherwise the token in question has been read.
  cases hfinished : (s.filledTo n).buffer.finished with
  | true =>
      rcases hfeeds.eager_of_finished hfinished with ⟨hall, _⟩
      have hlast : (s.filledTo n).buffer.tokens.back? = lx.eager.1.getLast? := by
        have hpos := lx.eager_length_pos
        rw [← hall, List.length_drop] at hpos
        rw [← Array.getLast?_toList, ← hall, List.getLast?_drop, if_neg (by omega)]
      rw [hall] at hget
      rw [TokenBuffer.get, TokenList.get, hget, hlast]
      cases hnth : lx.eager.1[n]? with
      | some t => rfl
      | none =>
          rcases Lexer.eager_last_isEnd lx with ⟨t, ht, _⟩
          rw [ht]
          rfl
  | false =>
      rcases hfeeds.eager_of_open hfinished with ⟨_, _, hinitial⟩
      have hlt : s.cursor + n < (s.filledTo n).buffer.tokens.size := by
        rcases hready with hdone | hlt
        · exact Bool.noConfusion (hfinished.symm.trans hdone)
        · exact hlt
      have hn : n < ((s.filledTo n).buffer.tokens.toList.drop s.cursor).length := by
        rw [List.length_drop, Array.length_toList]
        omega
      have hnth : lx.eager.1[n]? = some ((s.filledTo n).buffer.tokens.toList.drop s.cursor)[n] := by
        rw [hinitial.getElem hn, List.getElem?_eq_getElem]
      rw [List.getElem?_eq_getElem hn] at hget
      rw [TokenBuffer.get, TokenList.get, hget, hnth]
      rfl

/-- Whoever comes to the end learns the error that the lexer ends in. -/
theorem At.lexError?_eager (h : s.At lx) (hs : s.Sound source) {n : Nat}
    (hn : lx.eager.1.length ≤ n + 1) :
    (s.buffer.fill (s.cursor + n)).lexError? = lx.eager.2 := by
  have hfeeds : (s.filledTo n).At lx := h.reads hs (s.reads_filledTo n)
  have hready := TokenBuffer.fill_ready s.buffer (s.cursor + n)
  rw [At, show (s.filledTo n).cursor = s.cursor from rfl] at hfeeds
  cases hfinished : (s.filledTo n).buffer.finished with
  | true => exact (hfeeds.eager_of_finished hfinished).2
  | false =>
      rcases hfeeds.eager_of_open hfinished with ⟨_, hshort, _⟩
      rw [List.length_drop, Array.length_toList] at hshort
      rcases hready with hdone | hlt
      · exact Bool.noConfusion (hfinished.symm.trans hdone)
      · change s.cursor + n < (s.filledTo n).buffer.tokens.size at hlt
        omega

/-- An error that is known already is the one that the lexer ends in. -/
theorem At.eager_of_lexError? (h : s.At lx) {e : LexError}
    (he : s.buffer.lexError? = some e) : lx.eager.2 = some e := by
  cases hfinished : s.buffer.finished with
  | true => rw [← (TokenBuffer.Feeds.eager_of_finished h hfinished).2, he]
  | false =>
      rw [(TokenBuffer.Feeds.eager_of_open h hfinished).1] at he
      cases he

/-! ### Switching the mode -/

/-- A state that holds no current token has a lexer that is to read it. -/
theorem At.same_of_none (h : s.At lx) (htoken : s.buffer.tokens[s.cursor]? = none) :
    s.buffer.lexer.Same lx := by
  have hnil : s.buffer.tokens.toList.drop s.cursor = [] := by
    rw [List.drop_eq_nil_iff, Array.length_toList]
    simpa using htoken
  rw [At, hnil] at h
  cases h with
  | rest _ _ hsame => exact hsame

/-- The lexer behind a state stands at the token that the state holds, or would find it from
    where the lexer of the buffer stands. -/
theorem At.tokenStart_eq (h : s.At lx) (hs : s.Sound source)
    (hescape : ∀ sequence p, s.buffer.failure ≠ some (s.cursor, .invalidEscape sequence p)) :
    lx.tokenStart.here =
      match s.buffer.tokens[s.cursor]? with
      | some token => token.position
      | none => s.buffer.lexer.tokenStart.here := by
  cases htoken : s.buffer.tokens[s.cursor]? with
  | none => exact congrArg Cursor.here (h.same_of_none htoken).2.2.symm
  | some u =>
      rw [At] at h
      rw [← Array.getElem?_toList] at htoken
      rcases List.getElem?_eq_some_iff.1 htoken with ⟨hlt, hget⟩
      rw [List.drop_eq_getElem_cons hlt, hget] at h
      generalize hrest : s.buffer.tokens.toList.drop (s.cursor + 1) = rest at h
      cases h with
      | token hnext => exact (Lexer.next_ok hnext).2.1.symm
      | done hnext => exact (Lexer.next_ok hnext).2.1.symm
      | @fail _ i e hnext _ hfailure =>
          rcases Lexer.next_error hnext with ⟨_, _, hplace | ⟨sequence, _, p, rfl, _⟩⟩
          · exact hplace.symm
          -- the failure stands at the last token, which is the one at the cursor
          · rcases hs.buffer.failed _ _ hfailure with ⟨_, _, ts, hall, hlength⟩
            have hcursor : i = s.cursor := by
              rw [List.drop_eq_nil_iff] at hrest
              have hsize := congrArg List.length hall
              rw [List.length_append, List.length_singleton] at hsize
              omega
            rw [hcursor] at hfailure
            exact absurd hfailure (hescape sequence p)

/-- Switching the mode switches that of the lexer, unless the current token was found to be
    a string with an invalid escape. -/
theorem At.switched_of_escape (h : s.At lx) (hs : s.Sound source) (hlx : lx.Within source)
    (hescape : ∀ sequence p, s.buffer.failure ≠ some (s.cursor, .invalidEscape sequence p))
    (sizeMode : Bool) : (Parse.switchSizeMode sizeMode s).At { lx with sizeMode } := by
  have hstart := h.tokenStart_eq hs hescape
  -- In the mode that is already on nothing is read again.
  by_cases hmode : s.buffer.lexer.sizeMode = sizeMode
  · have hkept : Parse.switchSizeMode sizeMode s = s := by
      unfold Parse.switchSizeMode TokenBuffer.setSizeMode
      rw [if_pos hmode]
    rw [hkept, ← hmode, h.mode]
    exact h
  · have hswitched := hs.at_switched hmode
    -- The lexer goes back to the current token if there is one. If not, it has not gone beyond
    -- it.
    cases htoken : s.buffer.tokens[s.cursor]? with
    | some u =>
        have hresume : s.resume = lx.tokenStart.here := by
          rw [hstart, State.resume]
          simp only [htoken]
        rw [hresume] at hswitched
        exact hswitched.of_same (h.same_resetTo hlx sizeMode)
    | none =>
        have hsame := h.same_of_none htoken
        have hresume : s.resume = s.buffer.lexer.location := by
          rw [State.resume]
          simp only [htoken]
        have hahead : ({ s.buffer.lexer with sizeMode } : Lexer).Same { lx with sizeMode } :=
          ⟨hsame.1, rfl, hsame.2.2⟩
        rw [hresume] at hswitched
        exact hswitched.of_same ((hs.same_resetTo_location sizeMode).trans hahead)

end State

end Parse

/-! ### Streams -/

/-- What a stream can be asked to do. -/
inductive StreamOp where
  | peek (n : Nat)
  | consume
  | setSizeMode (enabled : Bool)
  deriving DecidableEq, Repr

/-- A buffer that is read through one cursor. -/
structure TokenStream where
  buffer : TokenBuffer
  cursor : Nat

namespace TokenStream

/-- A stream over a text. -/
def ofSource (source : String) : TokenStream := ⟨TokenBuffer.ofSource source, 0⟩

/-- The token some places ahead, and the stream after the look. -/
def peek (st : TokenStream) (n : Nat) : Token × TokenStream :=
  let (token, buffer) := st.buffer.peek st.cursor n
  (token, ⟨buffer, st.cursor⟩)

/-- One operation. -/
def perform (st : TokenStream) : StreamOp → TokenStream
  | .peek n => (st.peek n).2
  | .consume =>
    let (_, cursor, buffer) := st.buffer.consume st.cursor
    ⟨buffer, cursor⟩
  | .setSizeMode enabled => ⟨st.buffer.setSizeMode st.cursor enabled, st.cursor⟩

/-- Operations one after the other. -/
def run (ops : List StreamOp) (st : TokenStream) : TokenStream := ops.foldl perform st

/-- The mode in which the stream reads. -/
def sizeMode (st : TokenStream) : Bool := st.buffer.lexer.sizeMode

/-- The lexical error that the stream knows of. -/
def lexError? (st : TokenStream) : Option LexError := st.buffer.lexError?

/-- Where the scan of the current token begins, unless it is a string with an invalid
    escape: at the token that the stream holds, or where its lexer will find it. -/
def scanStart (st : TokenStream) : Position :=
  match st.buffer.tokens[st.cursor]? with
  | some token => token.position
  | none => st.buffer.lexer.tokenStart.here

/-- The current token was found to be a string with an invalid escape. -/
def AtInvalidEscape (st : TokenStream) : Prop :=
  ∃ sequence p, st.buffer.failure = some (st.cursor, .invalidEscape sequence p)

/-- What the stream shows from its cursor on is what the lexer reads: the tokens, the error
    once the end has been seen, and no other error before. -/
structure Shows (st : TokenStream) (lx : Lexer) : Prop where
  tokens : ∀ n, (st.peek n).1 = TokenList.get lx.eager.1 n
  error : ∀ n, (st.peek n).1.isEnd = true → (st.peek n).2.lexError? = lx.eager.2
  known : ∀ e, st.lexError? = some e → lx.eager.2 = some e

/-- The lexer over a text that is set to the scan of the current token, in the given
    mode. -/
def lexerFrom (st : TokenStream) (source : String) (sizeMode : Bool) : Lexer :=
  { (Lexer.ofSource source).resetTo st.scanStart with sizeMode }

/-- The stream as a state of a parse. -/
def state (st : TokenStream) : Parse.State := ⟨st.buffer, st.cursor, 0, 0, false⟩

/-- The stream is sound, and what it holds from the cursor on was read from the lexer. -/
def Stands (source : String) (st : TokenStream) (lx : Lexer) : Prop :=
  st.state.Sound source ∧ lx.Within source ∧ st.state.At lx

variable {source : String} {st : TokenStream} {lx : Lexer}

theorem stands_ofSource (source : String) :
    (ofSource source).Stands source (Lexer.ofSource source) :=
  ⟨Parse.State.sound_initial source, ⟨rfl, [], rfl, rfl⟩, Parse.State.at_initial source⟩

theorem Stands.peek (h : st.Stands source lx) (n : Nat) : (st.peek n).2.Stands source lx :=
  have hreads : st.state.Reads (st.peek n).2.state := ⟨_, rfl⟩
  ⟨h.1.reads hreads, h.2.1, h.2.2.reads h.1 hreads⟩

theorem Stands.peeks (h : st.Stands source lx) (ns : List Nat) :
    (run (ns.map .peek) st).Stands source lx := by
  induction ns generalizing st with
  | nil => exact h
  | cons n ns ih => exact ih (h.peek n)

/-- One operation leaves a stream at some lexer of the text. -/
theorem Stands.perform (h : st.Stands source lx) (op : StreamOp) :
    ∃ mx, (st.perform op).Stands source mx := by
  rcases h with ⟨hs, hlx, hat⟩
  cases op with
  | peek n => exact ⟨lx, Stands.peek ⟨hs, hlx, hat⟩ n⟩
  | consume =>
      have hadvanced : (st.perform .consume).state = st.state.advanced := rfl
      -- The end of the text is read again and again; any other token brings the next one.
      by_cases hend : st.state.token.isEnd = true
      · have hkept : st.state.advanced = st.state.filled := by
          rw [Parse.State.advanced, if_pos hend]
          rfl
        refine ⟨lx, ?_, hlx, ?_⟩
        · rw [hadvanced]
          exact hs.advanced
        · rw [hadvanced, hkept]
          exact hat.filled hs
      · rcases hat.next_of_token hs (by simpa [Token.isEnd] using hend) with ⟨lx', hnext⟩
        exact ⟨lx', hs.advanced, hlx.next_ok hnext,
          hat.advanced hs hnext (by simpa using hend)⟩
  | setSizeMode enabled =>
      -- Nothing is switched if the mode is the right one already.
      rcases hat.switched hs hlx enabled with hswitched | ⟨_, _, _, mx, _, _, hmx, hwithin, _⟩
      · exact ⟨{ lx with sizeMode := enabled }, hs.switchSizeMode enabled, hlx, hswitched⟩
      · exact ⟨mx, hs.switchSizeMode enabled, hwithin, hmx⟩

/-- So do any number of them. -/
theorem Stands.run (h : st.Stands source lx) (ops : List StreamOp) :
    ∃ mx, (run ops st).Stands source mx := by
  induction ops generalizing st lx with
  | nil => exact ⟨lx, h⟩
  | cons op ops ih =>
      rcases h.perform op with ⟨mx, hop⟩
      exact ih hop

theorem Stands.switch (h : st.Stands source lx) (hescape : ¬ st.AtInvalidEscape)
    (enabled : Bool) :
    (st.perform (.setSizeMode enabled)).Stands source { lx with sizeMode := enabled } := by
  rcases h with ⟨hs, hlx, hat⟩
  exact ⟨hs.switchSizeMode enabled, hlx, hat.switched_of_escape hs hlx
    (fun sequence p hfailure => hescape ⟨sequence, p, hfailure⟩) enabled⟩

/-- A lexer as good as the one behind a stream reads what the stream shows. -/
theorem Stands.shows {mx : Lexer} (h : st.Stands source lx) (hsame : lx.Same mx) :
    st.Shows mx := by
  rcases h with ⟨hs, _, hat⟩
  have htokens := (hat.of_same hsame).tokenAt_eager hs
  refine ⟨htokens, fun n hend => ?_, fun e he => (hat.of_same hsame).eager_of_lexError? he⟩
  rw [show (st.peek n).1 = TokenList.get mx.eager.1 n from htokens n] at hend
  exact (hat.of_same hsame).lexError?_eager hs (Lexer.length_eager_le hend)

/-- The lexer that is set to the scan of the current token is as good as the one behind the
    stream. -/
theorem Stands.lexerFrom (h : st.Stands source lx) (hescape : ¬ st.AtInvalidEscape)
    (enabled : Bool) :
    ({ lx with sizeMode := enabled } : Lexer).Same (st.lexerFrom source enabled) := by
  rcases h with ⟨hs, hlx, hat⟩
  have hstart : lx.tokenStart.here = st.scanStart := hat.tokenStart_eq hs
    fun sequence p hfailure => hescape ⟨sequence, p, hfailure⟩
  have hcursor : (st.lexerFrom source enabled).cursor = lx.tokenStart := by
    rw [TokenStream.lexerFrom, ← hstart]
    exact Lexer.resetTo_cursor hlx.tokenStart
  have hsame : (st.lexerFrom source enabled).Same { lx with sizeMode := enabled } :=
    Lexer.same_of_tokenStart hlx.1.symm rfl hcursor
  exact hsame.symm

end TokenStream

/-- Switching the mode of a stream reads its text again from the first character of the
    current token, in any state that peeking, consuming and switching can lead to, unless
    the current token was found to be a string with an invalid escape. From then on the
    stream shows what a lexer reads that is set there in the new mode: the tokens, and the
    error that they end in. Whatever is peeked at in between, on the same condition,
    switching back to the old mode changes no token and no error that is seen at the end. -/
theorem mode_switch_rereads (source : String) (ops : List StreamOp)
    (hescape : ¬ ((TokenStream.ofSource source).run ops).AtInvalidEscape) :
    let st := (TokenStream.ofSource source).run ops
    ∀ enabled : Bool,
      (st.perform (.setSizeMode enabled)).Shows (st.lexerFrom source enabled) ∧
      ∀ ns : List Nat,
        let mid := (st.perform (.setSizeMode enabled)).run (ns.map .peek)
        ¬ mid.AtInvalidEscape →
          let back := mid.perform (.setSizeMode st.sizeMode)
          ∀ n, (back.peek n).1 = (st.peek n).1 ∧
            ((st.peek n).1.isEnd = true →
              (back.peek n).2.lexError? = (st.peek n).2.lexError?) := by
  intro st enabled
  rcases (TokenStream.stands_ofSource source).run ops with ⟨lx, hst⟩
  have hswitched := hst.switch hescape enabled
  refine ⟨?_, ?_⟩
  · exact hswitched.shows (hst.lexerFrom hescape enabled)
  · intro ns mid hmid back n
    -- Peeking does not move the stream, so switching back leads to the same place.
    have hback : back.Stands source { lx with sizeMode := st.sizeMode } :=
      (hswitched.peeks ns).switch hmid st.sizeMode
    rw [show st.sizeMode = lx.sizeMode from hst.2.2.mode] at hback
    have htoken : (back.peek n).1 = (st.peek n).1 := by
      rw [(hback.shows (.refl _)).tokens n, (hst.shows (.refl _)).tokens n]
    refine ⟨htoken, fun hend => ?_⟩
    rw [(hback.shows (.refl _)).error n (by rw [htoken]; exact hend),
      (hst.shows (.refl _)).error n hend]

/-- The size of a segment, of which the first token was read with size mode off, as the name
    `n-m`. With size mode on it is a subtraction. -/
theorem mode_switch_rereads_size :
    let st := (TokenStream.ofSource "<<x:n-m>>").run [.consume, .consume, .consume, .peek 0]
    ¬ st.AtInvalidEscape ∧
      (st.perform (.setSizeMode true)).Shows (st.lexerFrom "<<x:n-m>>" true) ∧
      (st.lexerFrom "<<x:n-m>>" true).eager.1.map Token.text = ["n", "-", "m", ">>", ""] := by
  intro st
  have hnone : st.buffer.failure = none := by decide +kernel
  have hescape : ¬ st.AtInvalidEscape := by
    rintro ⟨_, _, hfailure⟩
    rw [hnone] at hfailure
    cases hfailure
  exact ⟨hescape, (mode_switch_rereads "<<x:n-m>>" _ hescape true).1, by decide +kernel⟩

/-- A string with an invalid escape has been looked at. A lexer that is set to its quote ends
    in that escape in either mode. The stream, once its mode is switched, and even if it is
    switched back, complains of the backslash instead. -/
theorem mode_switch_inside_string :
    let source := "\"\\q\""
    let st := (TokenStream.ofSource source).run [.peek 0]
    let escape := LexError.invalidEscape "q" ⟨1, 2, 1⟩
    let backslash := LexError.unexpectedCharacter '\\' ⟨1, 2, 1⟩
    (∀ sizeMode : Bool, ({ (Lexer.ofSource source).resetTo Position.start with sizeMode } :
        Lexer).eager.2 = some escape) ∧
      (st.peek 0).2.lexError? = some escape ∧
      ((st.run [.setSizeMode true]).peek 0).2.lexError? = some backslash ∧
      ((st.run [.setSizeMode true, .setSizeMode false]).peek 0).2.lexError? =
        some backslash := by
  decide +kernel

end PolyScript
