import PolyScript.Proofs.Fate

/-!
# Cursors Over One Buffer

Any number of cursors may read through one buffer, and each of them finds what it would
find in a list of all tokens, read beforehand. The buffer is filled by whichever cursor
looks furthest, and no cursor can tell by whom.

The reason is that looking never does anything but read on. So the buffer is at all times
the fresh buffer of the text after some number of tokens have been read, and the tokens
at the indices are settled from the start. That number also decides whether a lexical
error is known: it is as soon as someone has looked at the index of the token that cannot
be read, or past it.

## Main definitions

* `Lexer.eager`: All tokens of a text, read beforehand.
* `CursorOp`, `CursorAnswer`: What a cursor can be asked, and what it answers.
* `SharedCursors`: Cursors that share a buffer.
* `PrivateCursors`: Cursors that are indices into a list of tokens.

## Theorems

* `Lexer.tokenize_eq_eager`: The tokens that are read beforehand.
* `TokenBuffer.answer_unread`: One operation, on a buffer from which something was read.
* `cursors_independent`: Cursors that share a buffer answer as those that do not.
-/

namespace PolyScript

/-! ### Reading beforehand -/

namespace Lexer

/-- Reads at most the given number of tokens, and none past the end of the text. One that
    cannot be read counts as the end, and the reason is given. -/
def eagerWithin : Nat → Lexer → List Token × Option LexError
  | 0, _ => ([], none)
  | n + 1, lx =>
    match lx.next with
    | (.ok token, after) =>
      if token.isEnd then ([token], none)
      else (token :: (eagerWithin n after).1, (eagerWithin n after).2)
    | (.error e, _) => ([Token.endAt e.position], some e)

/-- Reads all tokens up to the end of the text, or up to the first that cannot be read. -/
def eager (lx : Lexer) : List Token × Option LexError :=
  eagerWithin (lx.cursor.rest.length + 1) lx

/-- Reading a bounded number of tokens yields a list of them or the error that comes first,
    whichever way the tokens are collected. -/
theorem tokenizeWithin_eq_eagerWithin (n : Nat) (lx : Lexer) :
    tokenizeWithin n lx =
      match (eagerWithin n lx).2 with
      | none => .ok (eagerWithin n lx).1
      | some e => .error e := by
  induction n generalizing lx with
  | zero => rfl
  | succ n ih =>
      rw [tokenizeWithin, eagerWithin]
      rcases lx.next with ⟨e | token, after⟩
      · rfl
      · simp only [ih after]
        cases token.isEnd
        · cases (eagerWithin n after).2 <;> rfl
        · rfl

/-- The tokens that are read beforehand are those of the text, if it has no error. -/
theorem tokenize_eq_eager (lx : Lexer) :
    lx.tokenize =
      match lx.eager.2 with
      | none => .ok lx.eager.1
      | some e => .error e := tokenizeWithin_eq_eagerWithin _ lx

/-- There is the end of the text at least. -/
theorem eagerWithin_length_pos (n : Nat) (lx : Lexer) : 0 < (eagerWithin (n + 1) lx).1.length := by
  rw [eagerWithin]
  rcases lx.next with ⟨e | token, after⟩
  · exact Nat.one_pos
  · simp only
    split <;> exact Nat.succ_pos _

/-- No more tokens are read than were asked for. -/
theorem length_eagerWithin_le (n : Nat) (lx : Lexer) : (eagerWithin n lx).1.length ≤ n := by
  induction n generalizing lx with
  | zero => exact Nat.le_refl _
  | succ n ih =>
      rw [eagerWithin]
      rcases lx.next with ⟨e | token, after⟩
      · exact Nat.succ_le_succ (Nat.zero_le n)
      · simp only
        split
        · exact Nat.succ_le_succ (Nat.zero_le n)
        · exact Nat.succ_le_succ (ih after)

/-- Reading fewer tokens gives the first of them, and the reason only if all are read. -/
theorem eagerWithin_eq_take {n N : Nat} {lx : Lexer} (hN : lx.cursor.rest.length < N) :
    eagerWithin n lx =
      ((eagerWithin N lx).1.take n,
        if (eagerWithin N lx).1.length ≤ n then (eagerWithin N lx).2 else none) := by
  induction n generalizing N lx with
  | zero =>
      obtain ⟨N, rfl⟩ : ∃ k, N = k + 1 := ⟨N - 1, by omega⟩
      rw [if_neg (Nat.not_le.2 (eagerWithin_length_pos N lx))]
      rfl
  | succ n ih =>
      cases N with
      | zero => omega
      | succ N =>
          rw [eagerWithin, eagerWithin]
          -- One more token is read, unless it is the end or cannot be read.
          rcases hnext : lx.next with ⟨e | token, after⟩
          · simp
          · by_cases hend : token.isEnd = true
            · simp [hend]
            · have hshorter := next_shorter hnext (by simpa using hend)
              have hfuel : after.cursor.rest.length < N := by omega
              have hrest := ih hfuel
              simp only [hend, Bool.false_eq_true, if_false, List.take_succ_cons,
                List.length_cons, Nat.add_le_add_iff_right]
              rw [hrest]

theorem eagerWithin_eq (n : Nat) (lx : Lexer) :
    eagerWithin n lx = (lx.eager.1.take n, if lx.eager.1.length ≤ n then lx.eager.2 else none) :=
  eagerWithin_eq_take (Nat.lt_succ_self _)

/-- The last of the tokens is the end, which reading beforehand always comes to. -/
theorem eagerWithin_last_isEnd {n : Nat} {lx : Lexer} (hn : lx.cursor.rest.length < n) :
    ∃ t, (eagerWithin n lx).1.getLast? = some t ∧ t.isEnd = true := by
  induction n generalizing lx with
  | zero => omega
  | succ n ih =>
      rw [eagerWithin]
      rcases hnext : lx.next with ⟨e | token, after⟩
      · exact ⟨_, rfl, rfl⟩
      · by_cases hend : token.isEnd = true
        · simp only [hend, if_true]
          exact ⟨token, rfl, hend⟩
        · have hshorter := next_shorter hnext (by simpa using hend)
          have hfuel : after.cursor.rest.length < n := by omega
          rcases ih hfuel with ⟨t, hlast, ht⟩
          refine ⟨t, ?_, ht⟩
          simp only [hend, Bool.false_eq_true, if_false]
          rw [List.getLast?_cons, hlast]
          rfl

theorem eager_last_isEnd (lx : Lexer) : ∃ t, lx.eager.1.getLast? = some t ∧ t.isEnd = true :=
  eagerWithin_last_isEnd (Nat.lt_succ_self _)

theorem eager_length_pos (lx : Lexer) : 0 < lx.eager.1.length := eagerWithin_length_pos _ lx

end Lexer

/-! ### Requests -/

/-- What a cursor can be asked. -/
inductive CursorOp where
  /-- For another cursor at the same index. -/
  | clone
  | peek (n : Nat)
  | peekKind (n : Nat)
  | current
  | window (count : Nat)
  | consume
  | hasMore
  | setPosition (index : Nat)
  deriving DecidableEq, Repr

/-- What a cursor answers. -/
inductive CursorAnswer where
  | done
  | token (token : Token)
  | kind (kind : Kind)
  | tokens (tokens : List Token)
  | truth (value : Bool)
  /-- There is no such cursor. -/
  | absent
  deriving DecidableEq, Repr

namespace TokenBuffer

/-- One operation on a cursor of a buffer: the answer, where the cursor stands then, and
    what has been read by then. -/
def answer (b : TokenBuffer) (cursor : Nat) : CursorOp → CursorAnswer × Nat × TokenBuffer
  | .clone => (.done, cursor, b)
  | .peek n => (.token (b.peek cursor n).1, cursor, (b.peek cursor n).2)
  | .peekKind n => (.kind (b.peek cursor n).1.kind, cursor, (b.peek cursor n).2)
  | .current => (.token (b.peek cursor 0).1, cursor, (b.peek cursor 0).2)
  | .window count => (.tokens (b.window cursor count).1, cursor, (b.window cursor count).2)
  | .consume => (.token (b.consume cursor).1, (b.consume cursor).2)
  | .hasMore => (.truth ((b.peek cursor 0).1.kind ≠ .endOfInput), cursor, (b.peek cursor 0).2)
  | .setPosition index => (.done, index, b)

end TokenBuffer

/-- A list of tokens that are all there from the start. -/
abbrev TokenList := List Token

namespace TokenList

/-- The token at an index. Past the end this is the last token. -/
def get (ts : TokenList) (index : Nat) : Token := (ts[index]?.or ts.getLast?).getD default

/-- Up to the given number of tokens from an index on. The end of the text is the last of
    them. -/
def window (ts : TokenList) : Nat → Nat → List Token
  | _, 0 => []
  | i, count + 1 =>
    if (ts.get i).isEnd then [ts.get i] else ts.get i :: ts.window (i + 1) count

/-- One operation on an index: the answer, the index it comes to, and at which indices it
    has looked. -/
def answer (ts : TokenList) (cursor : Nat) : CursorOp → CursorAnswer × Nat × List Nat
  | .clone => (.done, cursor, [])
  | .peek n => (.token (ts.get (cursor + n)), cursor, [cursor + n])
  | .peekKind n => (.kind (ts.get (cursor + n)).kind, cursor, [cursor + n])
  | .current => (.token (ts.get cursor), cursor, [cursor])
  | .window count => (.tokens (ts.window cursor count), cursor,
      List.range' cursor (ts.window cursor count).length)
  | .consume => (.token (ts.get cursor),
      if (ts.get cursor).isEnd then cursor else cursor + 1, [cursor])
  | .hasMore => (.truth ((ts.get cursor).kind ≠ .endOfInput), cursor, [cursor])
  | .setPosition index => (.done, index, [])

end TokenList

/-- The cursors after one of them has come to an index. A new one stands where the cursor
    stands that was asked for it. -/
def placeCursor (cursors : List Nat) (i index : Nat) : CursorOp → List Nat
  | .clone => cursors ++ [index]
  | _ => cursors.set i index

/-- Cursors that share a buffer. -/
structure SharedCursors where
  buffer : TokenBuffer
  cursors : List Nat

namespace SharedCursors

/-- One cursor at the start of a text. -/
def ofSource (source : String) : SharedCursors := ⟨TokenBuffer.ofSource source, [0]⟩

/-- An operation on one of the cursors. -/
def perform (s : SharedCursors) (i : Nat) (op : CursorOp) : CursorAnswer × SharedCursors :=
  match s.cursors[i]? with
  | none => (.absent, s)
  | some cursor =>
    let (answer, index, buffer) := s.buffer.answer cursor op
    (answer, ⟨buffer, placeCursor s.cursors i index op⟩)

/-- Operations one after the other, each on one of the cursors there are by then. -/
def run : List (Nat × CursorOp) → SharedCursors → List CursorAnswer × SharedCursors
  | [], s => ([], s)
  | (i, op) :: rest, s =>
    let (answer, s) := s.perform i op
    let (answers, s) := run rest s
    (answer :: answers, s)

end SharedCursors

/-- Indices into a list of tokens, and the indices at which has been looked. -/
structure PrivateCursors where
  cursors : List Nat
  read : List Nat

namespace PrivateCursors

/-- One index at the start. -/
def initial : PrivateCursors := ⟨[0], []⟩

/-- An operation on one of the indices. -/
def perform (ts : TokenList) (s : PrivateCursors) (i : Nat) (op : CursorOp) :
    CursorAnswer × PrivateCursors :=
  match s.cursors[i]? with
  | none => (.absent, s)
  | some cursor =>
    let (answer, index, read) := ts.answer cursor op
    (answer, ⟨placeCursor s.cursors i index op, s.read ++ read⟩)

/-- Operations one after the other. -/
def run (ts : TokenList) :
    List (Nat × CursorOp) → PrivateCursors → List CursorAnswer × PrivateCursors
  | [], s => ([], s)
  | (i, op) :: rest, s =>
    let (answer, s) := s.perform ts i op
    let (answers, s) := run ts rest s
    (answer :: answers, s)

end PrivateCursors

/-! ### A buffer from which something was read -/

namespace TokenBuffer

/-- Reading from a buffer gives what is read beforehand, as far as that goes. -/
theorem readMore_eager (n : Nat) {b : TokenBuffer} (hopen : b.finished = false)
    (hnone : b.failure = none) :
    (readMore n b).tokens.toList = b.tokens.toList ++ (b.lexer.eagerWithin n).1 ∧
      (readMore n b).lexError? = (b.lexer.eagerWithin n).2 := by
  induction n generalizing b with
  | zero =>
      refine ⟨(List.append_nil _).symm, ?_⟩
      rw [readMore, lexError?, hnone]
      rfl
  | succ n ih =>
      rw [readMore, hopen, Lexer.eagerWithin]
      simp only [Bool.false_eq_true, if_false]
      -- an error and the end both close the buffer; only behind another token reading goes on
      rcases hnext : b.lexer.next with ⟨e | token, after⟩
      · have hread : b.readOne = ⟨after, b.tokens.push (Token.endAt e.position), true,
            some (b.tokens.size, e)⟩ := by
          rw [readOne, hnext]
        rw [hread, readMore_finished rfl]
        exact ⟨Array.toList_push, rfl⟩
      · have hread : b.readOne =
            { b with lexer := after, tokens := b.tokens.push token, finished := token.isEnd } := by
          rw [readOne, hnext]
        rw [hread]
        by_cases hend : token.isEnd = true
        · simp only [hend, if_true]
          rw [readMore_finished rfl]
          refine ⟨Array.toList_push, ?_⟩
          rw [lexError?, hnone]
          rfl
        · rw [Bool.not_eq_true] at hend
          simp only [hend, Bool.false_eq_true, if_false]
          rcases ih (b := ⟨after, b.tokens.push token, false, b.failure⟩) rfl hnone with
            ⟨htokens, herror⟩
          refine ⟨?_, herror⟩
          rw [htokens]
          simp

/-- Only tokens of a text have been read, this many of them, or all. -/
def HasRead (lx : Lexer) (n : Nat) (b : TokenBuffer) : Prop := b = readMore n (ofLexer lx)

variable {lx : Lexer} {n : Nat} {b : TokenBuffer}

theorem HasRead.tokens (h : b.HasRead lx n) : b.tokens.toList = lx.eager.1.take n := by
  have hread := (readMore_eager n (b := ofLexer lx) rfl rfl).1
  rw [← h, Lexer.eagerWithin_eq] at hread
  exact hread

/-- A lexical error is known as soon as all tokens before it have been read, and it has
    been met. -/
theorem HasRead.lexError? (h : b.HasRead lx n) :
    b.lexError? = if lx.eager.1.length ≤ n then lx.eager.2 else none := by
  have hread := (readMore_eager n (b := ofLexer lx) rfl rfl).2
  rw [← h, Lexer.eagerWithin_eq] at hread
  exact hread

/-- The token at an index is that of the list. -/
theorem HasRead.tokenAt (h : b.HasRead lx n) (i : Nat) :
    b.tokenAt i = TokenList.get lx.eager.1 i := by
  have hread : ((ofLexer lx).fill i).HasRead lx (i + 1) := rfl
  have htokens := hread.tokens
  have hpos := lx.eager_length_pos
  rw [h, tokenAt_readMore, TokenBuffer.tokenAt, TokenBuffer.get, TokenList.get,
    ← Array.getElem?_toList, ← Array.getLast?_toList, htokens]
  rcases Nat.lt_or_ge i lx.eager.1.length with hlt | hge
  · rw [List.getElem?_take_of_lt (Nat.lt_succ_self i), List.getElem?_eq_getElem hlt]
    rfl
  · rw [List.take_of_length_le (Nat.le_succ_of_le hge), List.getElem?_eq_none hge]
    cases hlast : lx.eager.1.getLast? with
    | none =>
        rw [List.getLast?_eq_none_iff] at hlast
        rw [hlast] at hpos
        cases hpos
    | some t => rfl

/-- Looking at an index reads up to it. -/
theorem HasRead.fill (h : b.HasRead lx n) (i : Nat) :
    ∃ m, (b.fill i).HasRead lx m ∧
      (lx.eager.1.length ≤ m ↔ lx.eager.1.length ≤ n ∨ lx.eager.1.length ≤ i + 1) := by
  have hsize : b.tokens.size = min n lx.eager.1.length := by
    rw [← Array.length_toList, h.tokens, List.length_take]
  refine ⟨n + (i + 1 - b.tokens.size), ?_, by omega⟩
  rw [HasRead, TokenBuffer.fill, readMore_add, ← h]

/-- A window reads up to its last token. -/
theorem HasRead.windowFrom (h : b.HasRead lx n) (cursor count k : Nat) :
    (b.windowFrom cursor count k).1 = TokenList.window lx.eager.1 (cursor + k) count ∧
      ∃ m, (b.windowFrom cursor count k).2.HasRead lx m ∧
        (lx.eager.1.length ≤ m ↔ lx.eager.1.length ≤ n ∨
          ∃ i ∈ List.range' (cursor + k) (TokenList.window lx.eager.1 (cursor + k) count).length,
            lx.eager.1.length ≤ i + 1) := by
  induction count generalizing k n b with
  | zero => exact ⟨rfl, n, h, by simp [TokenList.window]⟩
  | succ count ih =>
      rcases h.fill (cursor + k) with ⟨m, hfill, hm⟩
      rw [TokenBuffer.windowFrom, peek_eq, TokenList.window, h.tokenAt]
      by_cases hend : (TokenList.get lx.eager.1 (cursor + k)).isEnd = true
      · simp only [hend, if_true]
        exact ⟨trivial, m, hfill, by simpa using hm⟩
      · rcases ih hfill (k + 1) with ⟨htokens, m', hread, hm'⟩
        rw [← Nat.add_assoc] at htokens hm'
        simp only [hend, Bool.false_eq_true, if_false, List.length_cons, List.range'_succ,
          List.mem_cons, or_and_right, exists_or, exists_eq_left, htokens, true_and]
        exact ⟨m', hread, by rw [hm', hm, or_assoc]⟩

/-- One operation answers as on the list, and it reads no further than it looks. The last part
    counts what was read, because an error becomes known exactly when reading gets to it. -/
theorem HasRead.answer (h : b.HasRead lx n) (cursor : Nat) (op : CursorOp) :
    (b.answer cursor op).1 = (TokenList.answer lx.eager.1 cursor op).1 ∧
      (b.answer cursor op).2.1 = (TokenList.answer lx.eager.1 cursor op).2.1 ∧
      ∃ m, (b.answer cursor op).2.2.HasRead lx m ∧
        (lx.eager.1.length ≤ m ↔ lx.eager.1.length ≤ n ∨
          ∃ i ∈ (TokenList.answer lx.eager.1 cursor op).2.2, lx.eager.1.length ≤ i + 1) := by
  -- Looking at a place reads up to that place and no further.
  have hlook : ∀ i, ∃ m, (b.fill i).HasRead lx m ∧
      (lx.eager.1.length ≤ m ↔ lx.eager.1.length ≤ n ∨
        ∃ j ∈ [i], lx.eager.1.length ≤ j + 1) := fun i => by
    simpa using h.fill i
  cases op with
  | clone => exact ⟨rfl, rfl, n, h, by simp [TokenList.answer]⟩
  | setPosition index => exact ⟨rfl, rfl, n, h, by simp [TokenList.answer]⟩
  | peek k =>
      refine ⟨?_, rfl, hlook (cursor + k)⟩
      rw [TokenBuffer.answer, peek_eq, h.tokenAt]
      rfl
  | peekKind k =>
      refine ⟨?_, rfl, hlook (cursor + k)⟩
      rw [TokenBuffer.answer, peek_eq, h.tokenAt]
      rfl
  | current =>
      refine ⟨?_, rfl, hlook cursor⟩
      rw [TokenBuffer.answer, peek_eq, h.tokenAt]
      rfl
  | hasMore =>
      refine ⟨?_, rfl, hlook cursor⟩
      rw [TokenBuffer.answer, peek_eq, h.tokenAt]
      rfl
  | consume =>
      have hconsume : b.consume cursor = (TokenList.get lx.eager.1 cursor,
          if (TokenList.get lx.eager.1 cursor).isEnd then cursor else cursor + 1,
          b.fill cursor) := by
        rw [TokenBuffer.consume, peek_eq, h.tokenAt]
        rfl
      simp only [TokenBuffer.answer, TokenList.answer, hconsume, true_and]
      exact hlook cursor
  | window count =>
      rcases h.windowFrom cursor count 0 with ⟨htokens, hread⟩
      refine ⟨?_, rfl, hread⟩
      rw [TokenBuffer.answer, TokenBuffer.window, htokens]
      rfl

end TokenBuffer

/-! ### Any number of cursors -/

namespace SharedCursors

/-- The cursors that share a buffer stand where the others stand, and a token that could
    not be read is known once one of them has looked there. -/
def Mirrors (lx : Lexer) (s : SharedCursors) (p : PrivateCursors) : Prop :=
  s.cursors = p.cursors ∧ ∃ n, s.buffer.HasRead lx n ∧
    (lx.eager.1.length ≤ n ↔ ∃ i ∈ p.read, lx.eager.1.length ≤ i + 1)

variable {lx : Lexer} {s : SharedCursors} {p : PrivateCursors}

theorem mirrors_initial (source : String) :
    (ofSource source).Mirrors (Lexer.ofSource source) .initial := by
  have hpos := (Lexer.ofSource source).eager_length_pos
  refine ⟨rfl, 0, rfl, ?_⟩
  simp only [PrivateCursors.initial, List.not_mem_nil, false_and, exists_false, iff_false]
  omega

/-- One operation. -/
theorem Mirrors.perform (h : s.Mirrors lx p) (i : Nat) (op : CursorOp) :
    (s.perform i op).1 = (p.perform lx.eager.1 i op).1 ∧
      (s.perform i op).2.Mirrors lx (p.perform lx.eager.1 i op).2 := by
  rcases s with ⟨buffer, cursors⟩
  rcases p with ⟨cursors', read⟩
  rcases h with ⟨hcursors, n, hread, hseen⟩
  cases hcursors
  rw [SharedCursors.perform, PrivateCursors.perform]
  cases hcursor : cursors[i]? with
  | none => exact ⟨rfl, rfl, n, hread, hseen⟩
  | some cursor =>
      rcases hread.answer cursor op with ⟨hanswer, hindex, m, hread', hm⟩
      refine ⟨hanswer, ?_, m, hread', ?_⟩
      · exact congrArg (placeCursor cursors i · op) hindex
      · rw [hm, hseen]
        simp only [List.mem_append, or_and_right, exists_or]

/-- Any number of operations. -/
theorem Mirrors.run (h : s.Mirrors lx p) (ops : List (Nat × CursorOp)) :
    (SharedCursors.run ops s).1 = (PrivateCursors.run lx.eager.1 ops p).1 ∧
      (SharedCursors.run ops s).2.Mirrors lx (PrivateCursors.run lx.eager.1 ops p).2 := by
  induction ops generalizing s p with
  | nil => exact ⟨rfl, h⟩
  | cons request rest ih =>
      rcases h.perform request.1 request.2 with ⟨hanswer, hnext⟩
      rcases ih hnext with ⟨hanswers, hlast⟩
      exact ⟨congrArg₂ List.cons hanswer hanswers, hlast⟩

end SharedCursors

namespace PrivateCursors

/-- The answer depends on nothing but the index that is asked. -/
theorem perform_answer (ts : TokenList) (s : PrivateCursors) (i : Nat) (op : CursorOp) :
    (s.perform ts i op).1 =
      (s.cursors[i]?.map fun cursor => (ts.answer cursor op).1).getD .absent := by
  rw [perform]
  cases s.cursors[i]? <;> rfl

/-- An operation on an index leaves the others where they are. -/
theorem perform_cursor_other (ts : TokenList) (s : PrivateCursors) {i j : Nat} (hij : i ≠ j)
    (hj : j < s.cursors.length) (op : CursorOp) :
    (s.perform ts i op).2.cursors[j]? = s.cursors[j]? := by
  rw [perform]
  cases s.cursors[i]? with
  | none => rfl
  | some cursor =>
      cases op with
      | clone => exact List.getElem?_append_left hj
      | _ => exact List.getElem?_set_ne hij

/-- So what is asked of another index is answered as before. -/
theorem perform_other (ts : TokenList) (s : PrivateCursors) {i j : Nat} (hij : i ≠ j)
    (hj : j < s.cursors.length) (op op' : CursorOp) :
    ((s.perform ts i op).2.perform ts j op').1 = (s.perform ts j op').1 := by
  rw [perform_answer, perform_answer, perform_cursor_other ts s hij hj op]

end PrivateCursors

/-- Cursors that share the buffer of a text answer as private indices into the list of its
    tokens do, which ends with the end of the text, and they come to stand at the same
    indices. So an operation on one of them changes no answer of another. A lexical error is
    known if and only if one of them has looked at the token that cannot be read, which is
    the last of the list, or past it. -/
theorem cursors_independent (source : String) (ops : List (Nat × CursorOp)) :
    let text := (Lexer.ofSource source).eager
    let shared := SharedCursors.run ops (.ofSource source)
    let alone := PrivateCursors.run text.1 ops .initial
    (∃ t, text.1.getLast? = some t ∧ t.isEnd = true) ∧
      shared.1 = alone.1 ∧ shared.2.cursors = alone.2.cursors ∧
      (∀ i j op op', i ≠ j → j < shared.2.cursors.length →
        ((shared.2.perform i op).2.perform j op').1 = (shared.2.perform j op').1) ∧
      ∀ e, shared.2.buffer.lexError? = some e ↔
        text.2 = some e ∧ ∃ i ∈ alone.2.read, text.1.length ≤ i + 1 := by
  intro text shared alone
  rcases (SharedCursors.mirrors_initial source).run ops with ⟨hanswers, hmirrors⟩
  have hmirrors' := hmirrors
  rcases hmirrors' with ⟨hcursors, n, hread, hseen⟩
  refine ⟨Lexer.eager_last_isEnd _, hanswers, hcursors, fun i j op op' hij hj => ?_, fun e => ?_⟩
  -- The answers are those of private indices, and there an operation moves one index only.
  · rw [((hmirrors.perform i op).2.perform j op').1, (hmirrors.perform j op').1]
    exact PrivateCursors.perform_other _ _ hij (by rw [← hcursors]; exact hj) op op'
  · rw [hread.lexError?]
    -- What cannot be read comes last, so the list was seen through to meet it.
    by_cases hlooked : text.1.length ≤ n
    · rw [if_pos hlooked, and_iff_left (hseen.1 hlooked)]
    · rw [if_neg hlooked]
      simp only [reduceCtorEq, false_iff, not_and]
      exact fun _ hsome => hlooked (hseen.2 hsome)

/-- A clone looks ahead to a token that cannot be read. The cursor it was made from still
    finds the first token, and takes it. -/
example : (SharedCursors.run [(0, .clone), (1, .peekKind 5), (0, .consume), (0, .hasMore),
      (1, .current)] (.ofSource "a $")).1 =
    [.done, .kind .endOfInput, .token ⟨.identifier, "a", ⟨1, 1, 0⟩, 1⟩, .truth false,
      .token ⟨.identifier, "a", ⟨1, 1, 0⟩, 1⟩] := by
  decide +kernel

end PolyScript
