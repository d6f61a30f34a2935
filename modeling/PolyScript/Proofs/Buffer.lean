import PolyScript.Parse.Basic
import PolyScript.Proofs.Place

/-!
# Reading Through the Buffer

What a parser sees of its token buffer.

Reading ahead is invisible: how far the buffer happens to be filled has no
influence on the token at an index. `TokenBuffer.tokenAt` is that token, and
`tokenAt_readMore` is the reason why a look-ahead leaves no trace. What changes
the tokens at an index is a restart and nothing else.

`TokenBuffer.Sound` collects what holds of a buffer throughout a parse, whatever
was read, dropped and read again: the tokens are those of ascending places of the
text, only the last of them can mark an end, and a recorded failure is about that
last token. A restart keeps this as long as it resumes behind the tokens that
stay. For a state the cursor has to lie within the tokens too, and before the end
once that is known; `Parse.State.Sound` adds this.

## Main definitions

* `TokenBuffer.tokenAt`: The token at an index, however much has been read.
* `TokenBuffer.Sound`: Tokens at ascending places, with at most one end.
* `Parse.State.Sound`: The same of a state, with the cursor among the tokens.
* `Parse.State.token`, `Parse.State.filled`, `Parse.State.advanced`: The current
  token, and the states after looking at it and after taking it.
* `Parse.State.Reads`: A state that differs only in how much has been read.

## Theorems

* `TokenBuffer.tokenAt_readMore`: Reading ahead is invisible.
* `TokenBuffer.Sound.readMore`: Reading keeps a buffer sound.
* `TokenBuffer.Sound.restart`: So does a restart behind what stays.
* `Parse.State.Sound.advanced`: So does taking a token.
* `Parse.State.Sound.switchSizeMode`: So does switching the mode.
-/

namespace PolyScript

namespace TokenBuffer

/-! ### Reading ahead -/

theorem readMore_finished {b : TokenBuffer} (h : b.finished = true) (n : Nat) :
    readMore n b = b := by
  cases n with
  | zero => rfl
  | succ n => simp only [readMore, h, if_true]

theorem readMore_add (m n : Nat) (b : TokenBuffer) :
    readMore (m + n) b = readMore n (readMore m b) := by
  induction m generalizing b with
  | zero => simp only [Nat.zero_add, readMore]
  | succ m ih =>
      rw [show m + 1 + n = m + n + 1 by omega]
      by_cases h : b.finished = true
      · rw [readMore_finished h, readMore_finished h, readMore_finished h]
      · simp only [readMore, if_neg h, ih]

theorem readOne_tokens (b : TokenBuffer) : ∃ t, b.readOne.tokens = b.tokens.push t := by
  unfold readOne
  split
  · exact ⟨_, rfl⟩
  · exact ⟨_, rfl⟩

theorem readMore_getElem? (n : Nat) (b : TokenBuffer) (i : Nat) (h : i < b.tokens.size) :
    (readMore n b).tokens[i]? = b.tokens[i]? := by
  induction n generalizing b with
  | zero => rfl
  | succ n ih =>
      unfold readMore
      split
      · rfl
      · rcases readOne_tokens b with ⟨t, ht⟩
        rw [ih _ (by rw [ht, Array.size_push]; omega), ht, Array.getElem?_push]
        simp only [Nat.ne_of_lt h, if_false]

/-- Reading stops at the end of the text or when as much is read as was asked. -/
theorem readMore_ready (n : Nat) (b : TokenBuffer) :
    (readMore n b).finished = true ∨ (readMore n b).tokens.size = b.tokens.size + n := by
  induction n generalizing b with
  | zero => exact .inr rfl
  | succ n ih =>
      unfold readMore
      split
      · exact .inl ‹_›
      · rcases readOne_tokens b with ⟨t, ht⟩
        rcases ih b.readOne with hfinished | hsize
        · exact .inl hfinished
        · rw [ht, Array.size_push] at hsize
          exact .inr (by omega)

theorem fill_ready (b : TokenBuffer) (i : Nat) :
    (b.fill i).finished = true ∨ i < (b.fill i).tokens.size := by
  rcases readMore_ready (i + 1 - b.tokens.size) b with h | h
  · exact .inl h
  · exact .inr (by rw [fill, h]; omega)

theorem size_le_readMore (n : Nat) (b : TokenBuffer) :
    b.tokens.size ≤ (readMore n b).tokens.size := by
  induction n generalizing b with
  | zero => exact Nat.le_refl _
  | succ n ih =>
      unfold readMore
      split
      · exact Nat.le_refl _
      · rcases readOne_tokens b with ⟨t, ht⟩
        have := ih b.readOne
        rw [ht, Array.size_push] at this
        omega

/-- To come to the end of the text takes reading a token. -/
theorem size_lt_of_finished {n : Nat} {b : TokenBuffer} (hopen : b.finished = false)
    (h : (readMore n b).finished = true) : b.tokens.size < (readMore n b).tokens.size := by
  cases n with
  | zero =>
      rw [readMore, hopen] at h
      cases h
  | succ n =>
      have hle := size_le_readMore n b.readOne
      rcases readOne_tokens b with ⟨t, ht⟩
      rw [ht, Array.size_push] at hle
      simp only [readMore, hopen]
      exact hle

/-- The token at an index, however much of the text has been read. -/
def tokenAt (b : TokenBuffer) (i : Nat) : Token := (b.fill i).get i

/-- Once a buffer is far enough for an index, reading on does not change the token
    there. -/
theorem get_readMore (n : Nat) (b : TokenBuffer) (i : Nat)
    (h : b.finished = true ∨ i < b.tokens.size) : (readMore n b).get i = b.get i := by
  rcases h with h | h
  · rw [readMore_finished h]
  · simp only [get, readMore_getElem? n b i h, Array.getElem?_eq_getElem h]

theorem tokenAt_eq_get (n : Nat) (b : TokenBuffer) (i : Nat)
    (h : (readMore n b).finished = true ∨ i < (readMore n b).tokens.size) :
    b.tokenAt i = (readMore n b).get i := by
  have hfill := fill_ready b i
  rcases Nat.le_total n (i + 1 - b.tokens.size) with hle | hle
  · rw [tokenAt, fill, show i + 1 - b.tokens.size = n + (i + 1 - b.tokens.size - n) by omega,
      readMore_add, get_readMore _ _ _ h]
  · rw [show n = i + 1 - b.tokens.size + (n - (i + 1 - b.tokens.size)) by omega, readMore_add]
    exact (get_readMore _ _ _ hfill).symm

/-- Reading ahead is invisible. -/
@[simp] theorem tokenAt_readMore (n : Nat) (b : TokenBuffer) (i : Nat) :
    (readMore n b).tokenAt i = b.tokenAt i := by
  have hready := fill_ready (readMore n b) i
  rw [fill, ← readMore_add] at hready
  rw [tokenAt_eq_get _ b i hready, readMore_add]
  rfl

@[simp] theorem tokenAt_fill (b : TokenBuffer) (i j : Nat) :
    (b.fill j).tokenAt i = b.tokenAt i := tokenAt_readMore _ b i

theorem peek_eq (b : TokenBuffer) (cursor n : Nat) :
    b.peek cursor n = (b.tokenAt (cursor + n), b.fill (cursor + n)) := rfl

theorem fill_fill (b : TokenBuffer) (i : Nat) : (b.fill i).fill i = b.fill i := by
  rcases fill_ready b i with h | h
  · exact readMore_finished h _
  · rw [fill, show i + 1 - (b.fill i).tokens.size = 0 by omega]
    rfl

/-- The tokens from an index on, up to the given number and up to the end of the
    text. -/
def tokensFrom (b : TokenBuffer) : Nat → Nat → List Token
  | _, 0 => []
  | i, count + 1 =>
    if (b.tokenAt i).isEnd then [b.tokenAt i] else b.tokenAt i :: tokensFrom b (i + 1) count

theorem tokensFrom_readMore (n : Nat) (b : TokenBuffer) (i count : Nat) :
    tokensFrom (readMore n b) i count = tokensFrom b i count := by
  induction count generalizing i with
  | zero => rfl
  | succ count ih => simp only [tokensFrom, tokenAt_readMore, ih]

/-- Reading on keeps a buffer far enough for an index. -/
theorem fill_readMore {b : TokenBuffer} {i : Nat} (h : b.fill i = b) (n : Nat) :
    (readMore n b).fill i = readMore n b := by
  have hready := fill_ready b i
  rw [h] at hready
  rcases hready with hfinished | hsize
  · rw [readMore_finished hfinished]
    exact h
  · have hle := size_le_readMore n b
    rw [fill, show i + 1 - (readMore n b).tokens.size = 0 by omega]
    rfl

/-- A window holds the tokens from the cursor on, and it only reads, the first of
    them at least. -/
theorem windowFrom_eq (cursor count n : Nat) (b : TokenBuffer) :
    ∃ m, windowFrom cursor count n b = (tokensFrom b (cursor + n) count, readMore m b) ∧
      (0 < count → (readMore m b).fill (cursor + n) = readMore m b) := by
  induction count generalizing n b with
  | zero => exact ⟨0, rfl, fun h => by omega⟩
  | succ count ih =>
      simp only [windowFrom, peek_eq, tokensFrom]
      by_cases hend : (b.tokenAt (cursor + n)).isEnd = true
      · simp only [hend, if_true]
        exact ⟨_, rfl, fun _ => fill_fill b (cursor + n)⟩
      · rcases ih (n + 1) (b.fill (cursor + n)) with ⟨m, hm, _⟩
        rw [hm]
        simp only [hend]
        refine ⟨cursor + n + 1 - b.tokens.size + m, ?_, fun _ => ?_⟩
        · rw [readMore_add, fill, tokensFrom_readMore, ← Nat.add_assoc]
          rfl
        · rw [readMore_add]
          exact fill_readMore (fill_fill b (cursor + n)) m

/-! ### Sound buffers -/

/-- What holds of the buffer of a text throughout a parse. -/
structure Sound (source : String) (b : TokenBuffer) : Prop where
  source_eq : b.lexer.source = source
  stands : b.lexer.cursor.Stands source.toList
  tokens : ∀ t ∈ b.tokens.toList, t.IsOf source.toList
  ascending : b.tokens.toList.Pairwise fun t u => t.position.offset < u.position.offset
  /-- As long as reading goes on, no token is the end and all lie behind the
      lexer. -/
  unfinished : b.finished = false →
    ∀ t ∈ b.tokens.toList, t.isEnd = false ∧ t.position.offset < b.lexer.location.offset
  /-- Afterwards the last token, and no other, is the end. -/
  finish : b.finished = true →
    ∃ ts t, b.tokens.toList = ts ++ [t] ∧ t.isEnd = true ∧ ∀ u ∈ ts, u.isEnd = false
  /-- A failure is about the last token, which stands in for what could not be
      read. -/
  failed : ∀ i e, b.failure = some (i, e) → b.finished = true ∧ e.position.IsPlace source.toList ∧
    ∃ ts, b.tokens.toList = ts ++ [Token.endAt e.position] ∧ ts.length = i

theorem sound_ofSource (source : String) : (ofSource source).Sound source where
  source_eq := rfl
  stands := ⟨[], rfl, rfl⟩
  tokens := by intro t ht; cases ht
  ascending := List.Pairwise.nil
  unfinished := by intro _ t ht; cases ht
  finish := by intro h; cases h
  failed := by intro i e h; cases h

/-- A token that is pushed behind all others keeps them in order. -/
theorem ascending_push {ts : List Token} {t : Token}
    (h : ts.Pairwise fun t u => t.position.offset < u.position.offset)
    (hlast : ∀ u ∈ ts, u.position.offset < t.position.offset) :
    (ts ++ [t]).Pairwise fun t u => t.position.offset < u.position.offset := by
  refine List.pairwise_append.2 ⟨h, List.pairwise_singleton _ _, ?_⟩
  intro u hu v hv
  rw [List.mem_singleton.1 hv]
  exact hlast u hu

theorem mem_push {b : TokenBuffer} {t u : Token} (h : u ∈ (b.tokens.push t).toList) :
    u ∈ b.tokens.toList ∨ u = t := by
  rw [Array.toList_push] at h
  exact (List.mem_append.1 h).imp_right List.mem_singleton.1

/-- Reading one more token keeps a buffer sound. A token is appended where the lexer stands, and
    an error is recorded together with the end of the text that is feigned in its place. -/
theorem Sound.readOne {source : String} {b : TokenBuffer} (h : b.Sound source)
    (hopen : b.finished = false) : b.readOne.Sound source := by
  have hbehind := h.unfinished hopen
  have hstart := b.lexer.cursor_leads_tokenStart
  have hnone : b.failure = none := by
    rcases hf : b.failure with _ | ⟨i, e⟩
    · rfl
    · rw [(h.failed i e hf).1] at hopen
      cases hopen
  unfold TokenBuffer.readOne
  split
  · rename_i t lexer hnext
    rcases Lexer.next_ok hnext with ⟨hlexer, hposition, -, hleads, hmoved⟩
    have hbefore : ∀ u ∈ b.tokens.toList, u.position.offset < t.position.offset := by
      intro u hu
      rw [hposition]
      exact Nat.lt_of_lt_of_le (hbehind u hu).2 hstart.offset_le
    exact {
      source_eq := by
        rw [hlexer]
        exact h.source_eq
      stands := (hstart.trans hleads).stands h.stands
      tokens := by
        intro u hu
        rcases mem_push hu with hu | rfl
        · exact h.tokens u hu
        · exact Token.isOf_next hnext h.stands
      ascending := by
        rw [Array.toList_push]
        exact ascending_push h.ascending hbefore
      unfinished := by
        intro hfinished u hu
        rcases mem_push hu with hu | rfl
        · exact ⟨(hbehind u hu).1,
            Nat.lt_of_lt_of_le (hbehind u hu).2 (hstart.trans hleads).offset_le⟩
        · exact ⟨hfinished, hmoved hfinished⟩
      finish := fun hfinished =>
        ⟨b.tokens.toList, t, Array.toList_push .., hfinished, fun u hu => (hbehind u hu).1⟩
      failed := by
        intro i e hfailure
        rw [hnone] at hfailure
        cases hfailure }
  -- The end stands in for a token that cannot be read.
  · rename_i e lexer hnext
    rcases Lexer.next_error hnext with ⟨hlexer, hleads, _⟩
    rcases Lexer.error_place hnext h.stands with ⟨hplace, hafter⟩
    exact {
      source_eq := by
        rw [hlexer]
        exact h.source_eq
      stands := (hstart.trans hleads).stands h.stands
      tokens := by
        intro u hu
        rcases mem_push hu with hu | rfl
        · exact h.tokens u hu
        · exact Token.isOf_endAt hplace
      ascending := by
        rw [Array.toList_push]
        refine ascending_push h.ascending fun u hu => ?_
        exact Nat.lt_of_lt_of_le (hbehind u hu).2 hafter
      unfinished := nofun
      finish := fun _ =>
        ⟨b.tokens.toList, _, Array.toList_push .., rfl, fun u hu => (hbehind u hu).1⟩
      failed := by
        intro i e' hfailure
        cases hfailure
        exact ⟨rfl, hplace, b.tokens.toList, Array.toList_push .., by simp⟩ }

theorem Sound.readMore {source : String} {b : TokenBuffer} (h : b.Sound source) (n : Nat) :
    (readMore n b).Sound source := by
  induction n generalizing b with
  | zero => exact h
  | succ n ih =>
      unfold TokenBuffer.readMore
      split
      · exact h
      · rename_i hopen
        exact ih (h.readOne (by simpa using hopen))

/-- A restart keeps a buffer sound if it resumes behind the tokens that stay, and
    if the end of the text, once known, does not stay. -/
theorem Sound.restart {source : String} {b : TokenBuffer} (h : b.Sound source) {index : Nat}
    {resume : Position} (hplace : resume.IsPlace source.toList)
    (hend : b.finished = true → index < b.tokens.size)
    (hbehind : ∀ t ∈ b.tokens.toList.take index, t.position.offset < resume.offset) :
    (b.restart index resume).Sound source := by
  have htokens : (b.restart index resume).tokens.toList = b.tokens.toList.take index := by
    simp [TokenBuffer.restart]
  have hmem : ∀ t ∈ b.tokens.toList.take index, t ∈ b.tokens.toList :=
    fun t ht => List.mem_of_mem_take ht
  have hsource : (b.lexer.resetTo resume).cursor.Stands b.lexer.source.toList :=
    Lexer.resetTo_stands (by rw [h.source_eq]; exact hplace)
  rw [h.source_eq] at hsource
  -- If the end was among the tokens, it is not among those that stay.
  have hshort (hfinished : b.finished = true) {ts : List Token} {last : Token}
      (hall : b.tokens.toList = ts ++ [last]) : index ≤ ts.length := by
    have hindex := hend hfinished
    rw [← Array.length_toList, hall, List.length_append, List.length_singleton] at hindex
    exact Nat.le_of_lt_succ hindex
  exact {
    source_eq := h.source_eq
    stands := hsource
    tokens := by
      intro t ht
      rw [htokens] at ht
      exact h.tokens t (hmem t ht)
    ascending := by
      rw [htokens]
      exact h.ascending.take
    unfinished := by
      intro _ t ht
      rw [htokens] at ht
      refine ⟨?_, hbehind t ht⟩
      by_cases hfinished : b.finished = true
      · rcases h.finish hfinished with ⟨ts, last, hall, _, hnot⟩
        rw [hall, List.take_append_of_le_length (hshort hfinished hall)] at ht
        exact hnot t (List.mem_of_mem_take ht)
      · exact (h.unfinished (by simpa using hfinished) t (hmem t ht)).1
    finish := nofun
    failed := by
      intro i e hfailure
      simp only [TokenBuffer.restart, Option.filter_eq_some_iff, decide_eq_true_eq] at hfailure
      rcases h.failed i e hfailure.1 with ⟨hfinished, _, ts, hall, hlength⟩
      have hle := hshort hfinished hall
      omega }

/-- Switching the mode may drop a lexical error but never raises one. -/
theorem lexError?_setSizeMode {b : TokenBuffer} {cursor : Nat} {enabled : Bool} {lex : LexError}
    (h : (b.setSizeMode cursor enabled).lexError? = some lex) : b.lexError? = some lex := by
  unfold setSizeMode at h
  split at h
  · exact h
  · rcases Option.map_eq_some_iff.1 h with ⟨f, hf, rfl⟩
    exact Option.map_eq_some_iff.2 ⟨f, (Option.filter_eq_some_iff.1 hf).1, rfl⟩

theorem Sound.tokens_pos {source : String} {b : TokenBuffer} (h : b.Sound source)
    (hfinished : b.finished = true) : 0 < b.tokens.size := by
  rcases h.finish hfinished with ⟨ts, t, hall, _, _⟩
  rw [← Array.length_toList, hall]
  simp

/-- The token at an index is among those that are read for it. -/
theorem Sound.tokenAt_mem {source : String} {b : TokenBuffer} (h : b.Sound source) (i : Nat) :
    b.tokenAt i ∈ (b.fill i).tokens.toList := by
  unfold tokenAt get
  split
  · rename_i t ht
    exact Array.mem_toList_iff.2 (Array.mem_of_getElem? ht)
  · rename_i hnone
    have hsize : (b.fill i).tokens.size ≤ i := by simpa using hnone
    have hfinished := (fill_ready b i).resolve_right (by omega)
    have hpos : 0 < (b.fill i).tokens.size :=
      (h.readMore (i + 1 - b.tokens.size)).tokens_pos hfinished
    rcases hback : (b.fill i).tokens.back? with _ | t
    · rw [Array.back?_eq_none_iff] at hback
      rw [hback] at hpos
      cases hpos
    · exact Array.mem_toList_iff.2 (Array.mem_of_back? hback)

/-- Before the end the token at an index is the one that stands there. -/
theorem getElem?_fill {b : TokenBuffer} {i : Nat} (hi : i ≤ b.tokens.size)
    (hend : b.finished = true → i < b.tokens.size) :
    (b.fill i).tokens[i]? = some (b.tokenAt i) := by
  have hsize : i < (b.fill i).tokens.size := by
    by_cases hfinished : b.finished = true
    · rw [fill, readMore_finished hfinished]
      exact hend hfinished
    · rcases Nat.lt_or_ge i b.tokens.size with hlt | hge
      · rw [fill, show i + 1 - b.tokens.size = 0 by omega]
        exact hlt
      · rw [fill, show i + 1 - b.tokens.size = 1 by omega]
        simp only [readMore, if_neg hfinished]
        rcases readOne_tokens b with ⟨t, ht⟩
        rw [ht, Array.size_push]
        omega
  rw [Array.getElem?_eq_getElem hsize, tokenAt, get, Array.getElem?_eq_getElem hsize]

end TokenBuffer

namespace Parse

namespace State

/-! ### Sound states -/

/-- What holds of the state of a parse: a sound buffer, and a cursor among its
    tokens. -/
structure Sound (source : String) (s : State) : Prop where
  buffer : s.buffer.Sound source
  cursor_le : s.cursor ≤ s.buffer.tokens.size
  cursor_lt : s.buffer.finished = true → s.cursor < s.buffer.tokens.size

/-- The second state differs from the first only in that more has been read. -/
def Reads (s t : State) : Prop := ∃ n, t = { s with buffer := s.buffer.readMore n }

/-- The current token. -/
def token (s : State) : Token := s.buffer.tokenAt s.cursor

/-- The state after a look at the current token. -/
def filled (s : State) : State := { s with buffer := s.buffer.fill s.cursor }

/-- The state after the current token is taken. -/
def advanced (s : State) : State :=
  { s.filled with cursor := if s.token.isEnd then s.cursor else s.cursor + 1 }

/-- The state with another depth. -/
def atDepth (s : State) (depth : Nat) : State := { s with depth }

theorem Reads.refl (s : State) : s.Reads s := ⟨0, rfl⟩

theorem Reads.trans {s t u : State} (h1 : s.Reads t) (h2 : t.Reads u) : s.Reads u := by
  rcases h1 with ⟨m, rfl⟩
  rcases h2 with ⟨n, rfl⟩
  exact ⟨m + n, by rw [TokenBuffer.readMore_add]⟩

theorem reads_filled (s : State) : s.Reads s.filled := ⟨_, rfl⟩

theorem Reads.token_eq {s t : State} (h : s.Reads t) : t.token = s.token := by
  rcases h with ⟨n, rfl⟩
  exact TokenBuffer.tokenAt_readMore n s.buffer s.cursor

@[simp] theorem token_filled (s : State) : s.filled.token = s.token := s.reads_filled.token_eq

theorem filled_filled (s : State) : s.filled.filled = s.filled :=
  congrArg (fun buffer => { s with buffer }) (TokenBuffer.fill_fill s.buffer s.cursor)

/-- It makes no difference whether a token was looked at before it is taken. -/
theorem advanced_filled (s : State) : s.filled.advanced = s.advanced := by
  rw [advanced, filled_filled, token_filled]
  rfl

/-- Reading on leaves the current token read. -/
theorem Reads.filled_eq {s t : State} (h : s.Reads t) (hs : s.filled = s) : t.filled = t := by
  rcases h with ⟨n, rfl⟩
  have hbuffer : s.buffer.fill s.cursor = s.buffer := congrArg State.buffer hs
  exact congrArg (fun buffer => { s with buffer }) (TokenBuffer.fill_readMore hbuffer n)

theorem cursor_advanced {s : State} (h : s.token.isEnd = false) :
    s.advanced.cursor = s.cursor + 1 := by
  simp only [advanced, h, Bool.false_eq_true, if_false]

@[simp] theorem tokenAt_advanced (s : State) (i : Nat) :
    s.advanced.buffer.tokenAt i = s.buffer.tokenAt i := TokenBuffer.tokenAt_fill s.buffer i s.cursor

theorem sound_initial (source : String) : (State.initial source).Sound source where
  buffer := TokenBuffer.sound_ofSource source
  cursor_le := Nat.le_refl 0
  cursor_lt := by intro h; cases h

theorem Sound.reads {source : String} {s t : State} (h : s.Sound source) (hreads : s.Reads t) :
    t.Sound source := by
  rcases hreads with ⟨n, rfl⟩
  refine ⟨h.buffer.readMore n, ?_, ?_⟩
  · exact Nat.le_trans h.cursor_le (TokenBuffer.size_le_readMore n s.buffer)
  · intro hfinished
    by_cases hopen : s.buffer.finished = true
    · exact Nat.lt_of_lt_of_le (h.cursor_lt hopen) (TokenBuffer.size_le_readMore n s.buffer)
    · exact Nat.lt_of_le_of_lt h.cursor_le
        (TokenBuffer.size_lt_of_finished (by simpa using hopen) hfinished)

theorem Sound.filled {source : String} {s : State} (h : s.Sound source) :
    s.filled.Sound source := h.reads s.reads_filled

/-- The current token is in the buffer once it was looked at. -/
theorem Sound.getElem?_filled {source : String} {s : State} (h : s.Sound source) :
    s.filled.buffer.tokens[s.cursor]? = some s.token :=
  TokenBuffer.getElem?_fill h.cursor_le h.cursor_lt

/-- The current token is one of the text. -/
theorem Sound.token {source : String} {s : State} (h : s.Sound source) :
    s.token.IsOf source.toList :=
  h.filled.buffer.tokens s.token
    (Array.mem_toList_iff.2 (Array.mem_of_getElem? h.getElem?_filled))

/-- The current token stands at a place of the text. -/
theorem Sound.place {source : String} {s : State} (h : s.Sound source) :
    s.token.position.IsPlace source.toList ∧ s.token.position.offset ≤ s.token.stop :=
  h.token.place

/-- Nothing comes after the end of the text. -/
theorem Sound.tokenAt_end {source : String} {s : State} (h : s.Sound source)
    (hend : s.token.isEnd = true) (n : Nat) : s.buffer.tokenAt (s.cursor + n) = s.token := by
  have hsome := h.getElem?_filled
  have hmem : s.token ∈ s.filled.buffer.tokens.toList :=
    Array.mem_toList_iff.2 (Array.mem_of_getElem? hsome)
  have hfinished : s.filled.buffer.finished = true := by
    by_contra hopen
    have hnot := (h.filled.buffer.unfinished (by simpa using hopen) s.token hmem).1
    rw [hend] at hnot
    cases hnot
  rcases h.filled.buffer.finish hfinished with ⟨ts, last, hall, _, hnot⟩
  -- The current token ends the text, and only the last token does.
  have hlast : s.cursor = ts.length ∧ last = s.token := by
    rw [← Array.getElem?_toList, hall] at hsome
    rcases Nat.lt_trichotomy s.cursor ts.length with hlt | heq | hgt
    · rw [List.getElem?_append_left hlt] at hsome
      have hbefore := hnot s.token (List.mem_of_getElem? hsome)
      rw [hend] at hbefore
      cases hbefore
    · rw [heq, List.getElem?_concat_length] at hsome
      exact ⟨heq, Option.some.inj hsome⟩
    · rw [List.getElem?_eq_none (by simp; omega)] at hsome
      cases hsome
  have hready := TokenBuffer.tokenAt_eq_get (s.cursor + 1 - s.buffer.tokens.size) s.buffer
    (s.cursor + n) (.inl hfinished)
  rw [hready]
  change s.filled.buffer.get (s.cursor + n) = s.token
  unfold TokenBuffer.get
  rw [← Array.getElem?_toList, hall, hlast.1]
  cases n with
  | zero => rw [Nat.add_zero, List.getElem?_concat_length, hlast.2]
  | succ n =>
      rw [List.getElem?_eq_none (by simp), ← Array.getLast?_toList, hall, List.getLast?_concat]
      exact hlast.2

/-- Taking the current token keeps a state sound. At the end of the text the cursor stays where
    it is. -/
theorem Sound.advanced {source : String} {s : State} (h : s.Sound source) :
    s.advanced.Sound source := by
  have hfilled := h.filled
  have hsome := h.getElem?_filled
  have hlt : s.cursor < s.filled.buffer.tokens.size := by
    rcases Array.getElem?_eq_some_iff.1 hsome with ⟨hlt, _⟩
    exact hlt
  unfold State.advanced
  split
  · exact hfilled
  · rename_i hnot
    refine ⟨hfilled.buffer, hlt, fun hfinished => ?_⟩
    -- The last token is the end, so the one just taken is not the last.
    rcases hfilled.buffer.finish hfinished with ⟨ts, last, hall, hlast, _⟩
    have hlength := congrArg List.length hall
    simp only [Array.length_toList, List.length_append, List.length_singleton] at hlength
    have hne : s.cursor ≠ ts.length := by
      intro heq
      rw [← Array.getElem?_toList, hall, heq, List.getElem?_concat_length] at hsome
      rw [Option.some.inj hsome] at hlast
      exact hnot hlast
    simp only
    omega

/-- Restarting at the cursor keeps a state sound if reading resumes at a place
    behind all tokens before the cursor. -/
theorem Sound.restart {source : String} {s : State} (h : s.Sound source) {resume : Position}
    (hplace : resume.IsPlace source.toList)
    (hbehind : ∀ t ∈ s.buffer.tokens.toList.take s.cursor, t.position.offset < resume.offset) :
    ({ s with buffer := s.buffer.restart s.cursor resume } : State).Sound source where
  buffer := h.buffer.restart hplace h.cursor_lt hbehind
  cursor_le := by
    have := h.cursor_le
    simp only [TokenBuffer.restart, Array.take_eq_extract, Array.size_extract]
    omega
  cursor_lt := by intro hfinished; cases hfinished

/-- The tokens before the cursor lie before the one at it. -/
theorem Sound.before_cursor {source : String} {s : State} (h : s.Sound source) {t : Token}
    (ht : s.buffer.tokens[s.cursor]? = some t) :
    ∀ u ∈ s.buffer.tokens.toList.take s.cursor, u.position.offset < t.position.offset := by
  intro u hu
  rw [← Array.getElem?_toList] at ht
  rcases List.getElem?_eq_some_iff.1 ht with ⟨hlt, hget⟩
  have hsplit : s.buffer.tokens.toList =
      s.buffer.tokens.toList.take s.cursor ++ s.buffer.tokens.toList.drop s.cursor :=
    (List.take_append_drop _ _).symm
  have hordered := h.buffer.ascending
  rw [hsplit] at hordered
  refine (List.pairwise_append.1 hordered).2.2 u hu t ?_
  rw [List.drop_eq_getElem_cons hlt, hget]
  exact List.mem_cons_self

/-- In which mode the lexer reads on does not matter. -/
theorem Sound.inMode {source : String} {s : State} (h : s.Sound source) (enabled : Bool) :
    ({ s with buffer.lexer.sizeMode := enabled } : State).Sound source where
  buffer := { h.buffer with }
  cursor_le := h.cursor_le
  cursor_lt := h.cursor_lt

/-- Switching the mode drops what was read ahead and sets the lexer back to the current token, so
    that it stands where this token begins. -/
theorem Sound.switchSizeMode {source : String} {s : State} (h : s.Sound source) (enabled : Bool) :
    (switchSizeMode enabled s).Sound source := by
  unfold Parse.switchSizeMode TokenBuffer.setSizeMode
  split
  · exact h
  · cases ht : s.buffer.tokens[s.cursor]? with
    | some t =>
        have hmem : t ∈ s.buffer.tokens.toList :=
          Array.mem_toList_iff.2 (Array.mem_of_getElem? ht)
        exact (h.restart (h.buffer.tokens t hmem).place.1 (h.before_cursor ht)).inMode enabled
    | none =>
        -- Nothing is held at the cursor, so the text was not read to its end.
        have hsize : s.buffer.tokens.size ≤ s.cursor := by simpa using ht
        have hopen : s.buffer.finished = false := by
          by_contra hfinished
          have := h.cursor_lt (by simpa using hfinished)
          omega
        have hsound := h.restart h.buffer.stands.isPlace fun u hu =>
          (h.buffer.unfinished hopen u (List.mem_of_mem_take hu)).2
        exact hsound.inMode enabled

end State

/-! ### The reading operations -/

theorem current_run (env : Env) (s : State) : current env s = .ok s.token s.filled := rfl

theorem consume_run (env : Env) (s : State) : consume env s = .ok s.token s.advanced := rfl

theorem peek_run (n : Nat) (env : Env) (s : State) :
    peek n env s = .ok (s.buffer.tokenAt (s.cursor + n))
      { s with buffer := s.buffer.fill (s.cursor + n) } := rfl

theorem peekKind_run (n : Nat) (env : Env) (s : State) :
    peekKind n env s = .ok (s.buffer.tokenAt (s.cursor + n)).kind
      { s with buffer := s.buffer.fill (s.cursor + n) } := rfl

/-- A window is read from the cursor on, and nothing is taken. -/
theorem window_run (count : Nat) (s : State) :
    ∃ t, s.Reads t ∧ (0 < count → t.filled = t) ∧
      ∀ env, window count env s = .ok (s.buffer.tokensFrom s.cursor count) t := by
  rcases TokenBuffer.windowFrom_eq s.cursor count 0 s.buffer with ⟨m, hm, hready⟩
  refine ⟨{ s with buffer := s.buffer.readMore m }, ⟨m, rfl⟩, fun hcount => ?_, fun env => ?_⟩
  · exact congrArg (fun buffer => { s with buffer }) (hready hcount)
  · change EStateM.Result.ok (s.buffer.window s.cursor count).1
      { s with buffer := (s.buffer.window s.cursor count).2 } = _
    rw [TokenBuffer.window, hm]
    rfl

theorem check_run (kind : Kind) (env : Env) (s : State) :
    check kind env s = .ok (decide (s.token.kind = kind)) s.filled := rfl

section Compound

variable {α β : Type}

theorem bind_run (p : Parse α) (f : α → Parse β) (env : Env) (s : State) :
    (p >>= f) env s =
      match p env s with
      | .ok a t => f a env t
      | .error e t => .error e t := by
  change EStateM.bind (p env) (fun a => f a env) s = _
  unfold EStateM.bind
  cases p env s <;> rfl

theorem loop_run (start : α) (step : α → Parse (α ⊕ β)) (env : Env) (s : State) :
    loop start step env s = iterate step (env.source.utf8ByteSize + 2) start env s := rfl

theorem bind_loop_run (p : Parse α) (step : α → Parse (α ⊕ β)) (env : Env) (s : State) :
    (p >>= fun a => loop a step) env s =
      (p >>= iterate step (env.source.utf8ByteSize + 2)) env s := by
  rw [bind_run, bind_run]
  cases p env s <;> rfl

theorem iterate_succ_run (step : α → Parse (α ⊕ β)) (n : Nat) (a : α) (env : Env) (s : State) :
    iterate step (n + 1) a env s =
      match step a env s with
      | .ok (.inl next) t => iterate step n next env t
      | .ok (.inr result) t => .ok result t
      | .error e t => .error e t := by
  rw [iterate, bind_run]
  rcases step a env s with ⟨_ | _, t⟩ | ⟨e, t⟩ <;> rfl

theorem expect_run (kind : Kind) (env : Env) (s : State) :
    expect kind env s =
      if s.token.kind = kind then .ok s.filled.token s.filled.advanced
      else .error (.unexpectedToken kind.describe s.filled.token) s.filled.filled := by
  unfold expect
  rw [bind_run, check_run]
  by_cases h : s.token.kind = kind
  · simp only [h, decide_true, if_true]
    rfl
  · simp only [h, decide_false, if_false]
    rfl

/-- Entering a level counts it, unless the guard objects at the token ahead. -/
theorem enter_run (p : Position) (env : Env) (s : State) :
    enter p env s =
      match env.guard.enter s.depth p with
      | .ok depth => .ok () (s.atDepth depth)
      | .error e => .error e s := by
  have hread : (read : Parse Env) env s = .ok env s := rfl
  have hget : (get : Parse State) env s = .ok s s := rfl
  unfold enter
  rw [bind_run, hread]
  simp only
  rw [bind_run, hget]
  simp only
  cases env.guard.enter s.depth p <;> rfl

/-- Entering a level looks at the current token and fails, or else runs the parser
    at the next depth. -/
theorem nested_run (p : Parse α) (env : Env) (s : State) :
    nested p env s =
      match env.guard.enter s.depth s.token.position with
      | .error e => .error e s.filled
      | .ok depth =>
        match p env (s.filled.atDepth depth) with
        | .ok a t => .ok a (t.atDepth (Guard.exit t.depth))
        | .error e t => .error e (t.atDepth (Guard.exit t.depth)) := by
  have hdepth : s.filled.depth = s.depth := rfl
  unfold nested
  rw [bind_run, current_run]
  simp only
  rw [bind_run, enter_run, hdepth]
  cases env.guard.enter s.depth s.token.position <;> rfl

/-- A level can be entered where the guard is off or its limit is not reached. -/
theorem enter_of_below {guard : Guard} {depth : Nat}
    (h : guard.enabled = true → depth < guard.maxDepth) (p : Position) :
    guard.enter depth p = .ok (depth + 1) := by
  rw [Guard.enter, if_neg]
  simpa using h

theorem enter_ok {guard : Guard} {depth next : Nat} {p : Position}
    (h : guard.enter depth p = .ok next) :
    next = depth + 1 ∧ (guard.enabled = true → depth < guard.maxDepth) := by
  unfold Guard.enter at h
  split at h
  · cases h
  · rename_i hbelow
    cases h
    exact ⟨rfl, by simpa using hbelow⟩

theorem enter_error {guard : Guard} {depth : Nat} {p : Position} {e : ParseError}
    (h : guard.enter depth p = .error e) :
    e = .tooDeep guard.maxDepth p ∧ guard.enabled = true := by
  unfold Guard.enter at h
  split at h
  · rename_i hreached
    cases h
    exact ⟨rfl, (Bool.and_eq_true_iff.1 hreached).1⟩
  · cases h

/-- A wrapped parser ends as the parser itself does, in another state. -/
theorem ok_of_around {before after : State → State} {p : Parse α} {env : Env} {s t : State} {a : α}
    (h : around before after p env s = .ok a t) :
    ∃ u, p env (before s) = .ok a u ∧ t = after u := by
  unfold around at h
  split at h <;> cases h
  exact ⟨_, by assumption, rfl⟩

theorem error_of_around {before after : State → State} {p : Parse α} {env : Env} {s t : State}
    {e : ParseError} (h : around before after p env s = .error e t) :
    ∃ u, p env (before s) = .error e u ∧ t = after u := by
  unfold around at h
  split at h <;> cases h
  exact ⟨_, by assumption, rfl⟩

/-- The terminators that hold before are put back. -/
theorem withTerminators_run (isRelaxed : Bool) (p : Parse α) (env : Env) (s : State) :
    withTerminators isRelaxed p env s = around (fun s => { s with isRelaxed })
      (fun t => { t with isRelaxed := s.isRelaxed }) p env s := rfl

/-- A level that is entered wraps the parser. -/
theorem nested_entered {p : Parse α} {env : Env} {s : State} {depth : Nat}
    (h : env.guard.enter s.depth s.token.position = .ok depth) :
    nested p env s = around (fun t => t.atDepth depth)
      (fun t => t.atDepth (Guard.exit t.depth)) p env s.filled := by
  rw [nested_run, h]
  rfl

/-- If a level succeeds then it was entered, and the parser succeeded there. -/
theorem ok_of_nested {p : Parse α} {env : Env} {s t : State} {a : α}
    (h : nested p env s = .ok a t) :
    env.guard.enter s.depth s.token.position = .ok (s.depth + 1) ∧
      ∃ u, p env (s.filled.atDepth (s.depth + 1)) = .ok a u ∧
        t = u.atDepth (Guard.exit u.depth) := by
  cases henter : env.guard.enter s.depth s.token.position with
  | error e =>
      rw [nested_run, henter] at h
      cases h
  | ok depth =>
      rw [nested_entered henter] at h
      rw [(enter_ok henter).1] at h
      exact ⟨by rw [(enter_ok henter).1], ok_of_around h⟩

/-- If a level fails then either the guard complains or the parser failed there. -/
theorem error_of_nested {p : Parse α} {env : Env} {s t : State} {e : ParseError}
    (h : nested p env s = .error e t) :
    (e = .tooDeep env.guard.maxDepth s.token.position ∧ t = s.filled) ∨
      ∃ u, p env (s.filled.atDepth (s.depth + 1)) = .error e u ∧
        t = u.atDepth (Guard.exit u.depth) := by
  cases henter : env.guard.enter s.depth s.token.position with
  | error e =>
      rw [nested_run, henter] at h
      cases h
      exact .inl ⟨(enter_error henter).1, rfl⟩
  | ok depth =>
      rw [nested_entered henter] at h
      rw [(enter_ok henter).1] at h
      exact .inr (error_of_around h)

end Compound

/-! ### Settling -/

theorem run_of_ok {α : Type} {p : Parse α} {env : Env} {a : α} {t : State}
    (h : p env (State.initial env.source) = .ok a t) :
    run p env = settle t.buffer.lexError? (.ok a) := by
  unfold run runFrom
  rw [h]

theorem run_of_error {α : Type} {p : Parse α} {env : Env} {e : ParseError} {t : State}
    (h : p env (State.initial env.source) = .error e t) :
    run p env = settle t.buffer.lexError? (.error e) := by
  unfold run runFrom
  rw [h]

/-- An error before a lexical one stands. -/
theorem settle_earlier {α : Type} {lex : LexError} {e : ParseError}
    (h : e.position.offset < lex.position.offset) :
    settle (some lex) (.error e : Except ParseError α) = .error e := if_pos h

/-- Any other error is overruled by it. -/
theorem settle_overruled {α : Type} {lex : LexError} {e : ParseError}
    (h : lex.position.offset ≤ e.position.offset) :
    settle (some lex) (.error e : Except ParseError α) = .error (.lexical lex) :=
  if_neg (Nat.not_lt.2 h)

/-- A run that succeeds is a parse that succeeds. -/
theorem ok_of_run {α : Type} {p : Parse α} {env : Env} {a : α} (h : run p env = .ok a) :
    ∃ t, p env (State.initial env.source) = .ok a t ∧ t.buffer.lexError? = none := by
  cases hrun : p env (State.initial env.source) with
  | ok b t =>
      rw [run_of_ok hrun] at h
      cases hlex : t.buffer.lexError? with
      | none =>
          rw [hlex] at h
          cases h
          exact ⟨t, rfl, hlex⟩
      | some lex =>
          rw [hlex] at h
          cases h
  | error e t =>
      rw [run_of_error hrun] at h
      -- Whatever error is settled on, it is none of the successes.
      unfold settle at h
      split at h
      · cases h
      · split at h <;> cases h
      · cases h

end Parse

end PolyScript
