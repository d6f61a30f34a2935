import PolyScript.Proofs.Alike
import PolyScript.Proofs.Rounds
import PolyScript.Proofs.Separation

/-!
# The Tokens Before a Parser

What a parser has before it is a tape: the current token and those behind it, up to the
end, which is repeated forever. How much of the tape has been read, and what was read
before, makes no difference to what a rule of the grammar does. So a state is described by
the tape that it offers, and a parser by how it moves along.

Two things change the tape itself. Guest code is passed over without being split into
tokens, and the size of a segment is read in another mode, for which the lexer is set back
to the current token. Neither goes back in the text. In particular the mode may turn one
token into several, but never one that stands before it.

The tokens on a tape are in order, but a buffer may have been cut somewhere and filled again
from another place, and then a part of the text is missing between two of them. A tape is
unbroken if nothing is missing. A parse begins with an unbroken tape, and the tape remains
unbroken, since new tapes are read in one go.

## Main definitions

* `Tape`: The tokens before a parser.
* `Tape.start`, `Tape.tail`, `Tape.drop`: Where it begins, and what is left of it.
* `Tape.Newlines`: The newlines that come first.
* `Tape.Unbroken`: Between tokens there are only white space and comments.
* `Tape.UpTo`, `Tape.Before`: One tape leads to another one.
* `Parse.State.Offers`: A state and its tape.

## Theorems

* `Parse.State.Sound.offers`: Sound states offer tapes.
* `Parse.State.Offers.advanced`: Taking a token leads to the rest of the tape.
* `Parse.State.Offers.unbroken`: What is read in one go is unbroken.
* `Parse.State.Sound.offers_restart`, `Parse.State.Offers.switched`: New tapes.
-/

namespace PolyScript

/-- The tokens before a parser. They stand one behind the other up to the end of the text,
    which is repeated. -/
structure Tape (source : String) where
  token : Nat → Token
  isOf : ∀ n, (token n).IsOf source.toList
  ascending : ∀ n, (token n).isEnd = false →
    (token n).position.offset < (token (n + 1)).position.offset
  repeats : ∀ n, (token n).isEnd = true → token (n + 1) = token n

/-- A token and the one behind it, as they stand in a text. -/
def Token.Precedes (source : String) (t u : Token) : Prop :=
  ∃ before piece gap piece' rest, source.toList = before ++ piece ++ gap ++ piece' ++ rest ∧
    IsSeparation (piece' ++ rest) gap ∧ t.Spells before piece ∧
      u.Spells (before ++ piece ++ gap) piece'

namespace Tape

variable {source : String}

/-- The current token. -/
def head (τ : Tape source) : Token := τ.token 0

/-- Where the tape begins. -/
def start (τ : Tape source) : Nat := τ.head.position.offset

/-- What is left of a tape behind so many tokens. -/
def drop (τ : Tape source) (k : Nat) : Tape source where
  token n := τ.token (k + n)
  isOf n := τ.isOf (k + n)
  ascending n := τ.ascending (k + n)
  repeats n := τ.repeats (k + n)

/-- What is left behind the current token. -/
def tail (τ : Tape source) : Tape source := τ.drop 1

theorem ext_token {τ υ : Tape source} (h : ∀ n, τ.token n = υ.token n) : τ = υ := by
  cases τ
  cases υ
  simp only [mk.injEq]
  exact funext h

@[simp] theorem drop_zero (τ : Tape source) : τ.drop 0 = τ :=
  ext_token fun n => congrArg τ.token (Nat.zero_add n)

@[simp] theorem tail_drop (τ : Tape source) (k : Nat) : (τ.drop k).tail = τ.drop (k + 1) :=
  ext_token fun n => congrArg τ.token (Nat.add_assoc k 1 n).symm

theorem start_le_size (τ : Tape source) : τ.start ≤ source.utf8ByteSize := by
  rcases (τ.isOf 0).place.1 with ⟨before, rest, hsource, hposition⟩
  rw [start, head, hposition, Position.offset_after, byteSize_eq, hsource]
  simp [Position.byteCount]

theorem start_lt_tail {τ : Tape source} (h : τ.head.kind ≠ .endOfInput) :
    τ.start < τ.tail.start :=
  τ.ascending 0 (decide_eq_false h)

theorem start_le_tail (τ : Tape source) : τ.start ≤ τ.tail.start := by
  cases hend : τ.head.isEnd with
  | false => exact Nat.le_of_lt (τ.ascending 0 hend)
  | true => exact Nat.le_of_eq (congrArg (·.position.offset) (τ.repeats 0 hend)).symm

theorem start_le_drop (τ : Tape source) (k : Nat) : τ.start ≤ (τ.drop k).start := by
  induction k with
  | zero => rw [drop_zero]
  | succ k ih =>
      rw [← tail_drop]
      exact Nat.le_trans ih (start_le_tail _)

/-- Tokens before which the end has not come lie apart. -/
theorem add_le_start_drop {τ : Tape source} {k : Nat}
    (h : ∀ i < k, (τ.token i).kind ≠ .endOfInput) : τ.start + k ≤ (τ.drop k).start := by
  induction k with
  | zero => rw [drop_zero]; exact Nat.le_refl _
  | succ k ih =>
      have hle := ih fun i hi => h i (Nat.lt_succ_of_lt hi)
      have hlt : (τ.drop k).start < (τ.drop k).tail.start :=
        start_lt_tail (h k (Nat.lt_succ_self k))
      rw [tail_drop] at hlt
      omega

/-- So many newlines come first, and no more. -/
def Newlines (τ : Tape source) (k : Nat) : Prop :=
  (∀ i < k, (τ.token i).kind = .newline) ∧ (τ.token k).kind ≠ .newline

theorem Newlines.unique {τ : Tape source} {k l : Nat} (h : τ.Newlines k) (h' : τ.Newlines l) :
    k = l := by
  rcases Nat.lt_trichotomy k l with hlt | heq | hgt
  · exact absurd (h'.1 k hlt) h.2
  · exact heq
  · exact absurd (h.1 l hgt) h'.2

/-- Nothing but white space and comments is between two tokens. -/
def Unbroken (τ : Tape source) : Prop :=
  ∀ n, (τ.token n).isEnd = false → (τ.token (n + 1)).isEnd = false →
    (τ.token n).Precedes source (τ.token (n + 1))

theorem Unbroken.drop {τ : Tape source} (h : τ.Unbroken) (k : Nat) : (τ.drop k).Unbroken :=
  fun n => h (k + n)

/-- Two tapes, the second of which does not begin before the first. -/
structure UpTo (τ υ : Tape source) : Prop where
  start : τ.start ≤ υ.start
  unbroken : τ.Unbroken → υ.Unbroken

/-- Two tapes, the second of which begins behind the first. -/
structure Before (τ υ : Tape source) : Prop where
  start : τ.start < υ.start
  unbroken : τ.Unbroken → υ.Unbroken

theorem UpTo.refl (τ : Tape source) : τ.UpTo τ := ⟨Nat.le_refl _, id⟩

theorem upTo_drop (τ : Tape source) (k : Nat) : τ.UpTo (τ.drop k) :=
  ⟨τ.start_le_drop k, fun h => h.drop k⟩

theorem upTo_tail (τ : Tape source) : τ.UpTo τ.tail := τ.upTo_drop 1

variable {τ υ χ : Tape source}

theorem Before.upTo (h : τ.Before υ) : τ.UpTo υ := ⟨Nat.le_of_lt h.start, h.unbroken⟩

theorem UpTo.trans (h : τ.UpTo υ) (h' : υ.UpTo χ) : τ.UpTo χ :=
  ⟨Nat.le_trans h.start h'.start, h'.unbroken ∘ h.unbroken⟩

theorem UpTo.before (h : τ.UpTo υ) (h' : υ.Before χ) : τ.Before χ :=
  ⟨Nat.lt_of_le_of_lt h.start h'.start, h'.unbroken ∘ h.unbroken⟩

theorem Before.trans (h : τ.Before υ) (h' : υ.UpTo χ) : τ.Before χ :=
  ⟨Nat.lt_of_lt_of_le h.start h'.start, h'.unbroken ∘ h.unbroken⟩

theorem before_tail_of_ne (h : τ.head.kind ≠ .endOfInput) : τ.Before τ.tail :=
  ⟨start_lt_tail h, τ.upTo_tail.unbroken⟩

theorem before_tail {kind : Kind} (h : τ.head.kind = kind) (hkind : kind ≠ .endOfInput) :
    τ.Before τ.tail := before_tail_of_ne (by rw [h]; exact hkind)

end Tape

namespace TokenBuffer

variable {source : String} {b : TokenBuffer}

/-- Behind all tokens the last one is found. -/
theorem get_of_length_le {ts : List Token} {t : Token} (h : b.tokens.toList = ts ++ [t]) {i : Nat}
    (hi : ts.length ≤ i) : b.get i = t := by
  unfold get
  rw [← Array.getElem?_toList, ← Array.getLast?_toList, h, List.getLast?_concat]
  rcases Nat.eq_or_lt_of_le hi with rfl | hlt
  · rw [List.getElem?_concat_length]
  · rw [List.getElem?_eq_none (by simp; omega)]
    rfl

/-- A token that is not the end has another one behind it, once enough is read. -/
theorem Sound.length_of_not_end (h : b.Sound source) {i : Nat}
    (hend : (b.tokenAt i).isEnd = false) : i + 1 < (b.fill (i + 1)).tokens.size := by
  have hready := fill_ready b (i + 1)
  refine hready.elim (fun hfinished => ?_) id
  rcases (h.readMore (i + 1 + 1 - b.tokens.size)).finish hfinished with ⟨ts, t, hall, ht, -⟩
  by_contra hshort
  have hlength := congrArg List.length hall
  rw [Array.length_toList, List.length_append, List.length_singleton] at hlength
  rw [tokenAt_eq_get (i + 1 + 1 - b.tokens.size) b i (.inl hfinished),
    get_of_length_le hall (by rw [fill] at hshort; omega), ht] at hend
  cases hend

/-- Tokens are in the order of the text. -/
theorem Sound.tokenAt_ascending (h : b.Sound source) {i : Nat}
    (hend : (b.tokenAt i).isEnd = false) :
    (b.tokenAt i).position.offset < (b.tokenAt (i + 1)).position.offset := by
  have hsize := h.length_of_not_end hend
  have hordered := (h.readMore (i + 1 + 1 - b.tokens.size)).ascending
  have htoken : ∀ j ≤ i + 1, (b.fill (i + 1)).tokens.toList[j]? = some (b.tokenAt j) := by
    intro j hj
    have hlt : j < (b.fill (i + 1)).tokens.size := Nat.lt_of_le_of_lt hj hsize
    rw [tokenAt_eq_get (i + 1 + 1 - b.tokens.size) b j (.inr hlt), ← fill, get,
      Array.getElem?_toList, Array.getElem?_eq_getElem hlt]
  rcases List.getElem?_eq_some_iff.1 (htoken i (Nat.le_succ i)) with ⟨hi, hfirst⟩
  rcases List.getElem?_eq_some_iff.1 (htoken (i + 1) (Nat.le_refl _)) with ⟨hnext, hsecond⟩
  rw [← hfirst, ← hsecond]
  exact List.pairwise_iff_getElem.1 hordered i (i + 1) hi hnext (Nat.lt_succ_self i)

/-- The end of the text is repeated. -/
theorem Sound.tokenAt_repeats (h : b.Sound source) {i : Nat}
    (hend : (b.tokenAt i).isEnd = true) : b.tokenAt (i + 1) = b.tokenAt i := by
  -- The end was read, so there is nothing to read behind it.
  have hfinished : (b.fill i).finished = true := by
    by_contra hopen
    rw [Bool.not_eq_true] at hopen
    have hnot := ((h.readMore (i + 1 - b.tokens.size)).unfinished hopen _ (h.tokenAt_mem i)).1
    rw [hend] at hnot
    cases hnot
  rcases (h.readMore (i + 1 - b.tokens.size)).finish hfinished with ⟨ts, t, hall, -, hnot⟩
  -- Only the last token is the end.
  have hlength : ts.length ≤ i := by
    by_contra hlt
    have hmem : b.tokenAt i ∈ ts := by
      rw [tokenAt, get, ← Array.getElem?_toList]
      rw [← fill] at hall
      rw [hall, List.getElem?_append_left (by omega), List.getElem?_eq_getElem (by omega)]
      exact List.getElem_mem _
    rw [hnot _ hmem] at hend
    cases hend
  rw [tokenAt_eq_get (i + 1 - b.tokens.size) b (i + 1) (.inl hfinished),
    get_of_length_le hall (Nat.le_succ_of_le hlength), tokenAt, fill, get_of_length_le hall hlength]

end TokenBuffer

namespace Parse

namespace State

variable {source : String} {s t : State} {τ : Tape source}

/-- A sound state and the tokens from its cursor on. -/
def Offers (s : State) (τ : Tape source) : Prop :=
  s.Sound source ∧ ∀ n, s.buffer.tokenAt (s.cursor + n) = τ.token n

theorem Offers.token (h : s.Offers τ) : s.token = τ.head := h.2 0

theorem Offers.reads (h : s.Offers τ) (hreads : s.Reads t) : t.Offers τ := by
  refine ⟨h.1.reads hreads, fun n => ?_⟩
  rcases hreads with ⟨m, rfl⟩
  rw [← h.2 n]
  exact TokenBuffer.tokenAt_readMore m s.buffer _

theorem Offers.filled (h : s.Offers τ) : s.filled.Offers τ := h.reads s.reads_filled

theorem Offers.withFrame (h : s.Offers τ) (depth loopDepth : Nat) (isRelaxed : Bool) :
    (s.withFrame depth loopDepth isRelaxed).Offers τ := ⟨⟨h.1.1, h.1.2, h.1.3⟩, h.2⟩

/-- Taking a token leads to the rest of the tape, at the end of the text as well. -/
theorem Offers.advanced (h : s.Offers τ) : s.advanced.Offers τ.tail := by
  refine ⟨h.1.advanced, fun n => ?_⟩
  rw [tokenAt_advanced]
  change _ = τ.token (1 + n)
  rw [← h.2]
  cases hend : s.token.isEnd with
  | false => rw [cursor_advanced hend, Nat.add_assoc]
  | true =>
      have hcursor : s.advanced.cursor = s.cursor := by simp only [State.advanced, hend, if_true]
      rw [hcursor, h.1.tokenAt_end hend, h.1.tokenAt_end hend]

/-- A sound state offers a tape. -/
theorem Sound.offers (h : s.Sound source) : ∃ τ : Tape source, s.Offers τ := by
  refine ⟨⟨fun n => s.buffer.tokenAt (s.cursor + n), fun n => ?_, fun n => ?_, fun n => ?_⟩, h,
    fun n => rfl⟩
  · exact (h.buffer.readMore _).tokens _ (h.buffer.tokenAt_mem (s.cursor + n))
  · exact h.buffer.tokenAt_ascending
  · exact h.buffer.tokenAt_repeats

/-- What is read in one go is unbroken: a lexer yields its tokens one behind the other, with only
    gaps in between. -/
theorem Offers.unbroken (h : s.Offers τ) {lx : Lexer} (hat : s.At lx) (hlx : lx.Within source) :
    τ.Unbroken := by
  intro n hend hnext
  induction n generalizing s τ lx with
  | zero =>
      have htoken : s.token = τ.token 0 := h.token
      have hafter : s.advanced.token = τ.token 1 := h.advanced.token
      rw [← htoken] at hend
      -- Two steps of the lexer, which leaves a gap before each of the tokens.
      rcases hat.next_of_token h.1 (of_decide_eq_false hend) with ⟨mx, hmx⟩
      rw [← hafter] at hnext
      rcases (hat.advanced h.1 hmx hend).next_of_token h.advanced.1 (of_decide_eq_false hnext) with
        ⟨nx, hnx⟩
      rcases hlx.2 with ⟨before, hsource, hhere⟩
      have hresumes : lx.Resumes source before false := by
        exact ⟨[], by rw [List.append_nil]; exact hsource, by rw [List.append_nil]; exact hhere,
          .nil, rfl⟩
      rcases hresumes.next_ok hmx hend with ⟨gap, piece, _, _, _, _, _, hspells, hresumes'⟩
      rcases hresumes'.next_ok hnx hnext with
        ⟨gap', piece', rest, hsource', hgap, _, _, hspells', _⟩
      rw [htoken] at hspells
      rw [hafter] at hspells'
      exact ⟨_, piece, gap', piece', rest, hsource', hgap, hspells, hspells'⟩
  | succ n ih =>
      -- Behind the end there is nothing but the end, so this token is another one.
      have hopen : s.token.isEnd = false := by
        by_contra hover
        rw [Bool.not_eq_false, h.token] at hover
        have hall (n : Nat) : τ.token n = τ.head := by
          induction n with
          | zero => rfl
          | succ n ih => rw [τ.repeats n (by rw [ih]; exact hover), ih]
        rw [hall, hover] at hend
        cases hend
      rcases hat.next_of_token h.1 (of_decide_eq_false hopen) with ⟨mx, hmx⟩
      have hplace (k : Nat) : τ.tail.token k = τ.token (k + 1) :=
        congrArg τ.token (Nat.add_comm 1 k)
      rw [← hplace, ← hplace]
      rw [← hplace] at hend hnext
      exact ih h.advanced (hat.advanced h.1 hmx hopen) (hlx.next_ok hmx) hend hnext

/-- Before anything is read, the lexer is at the cursor. -/
theorem Sound.at_unread (h : s.Sound source) (hopen : s.buffer.finished = false)
    (hsize : s.buffer.tokens.size = s.cursor) : s.At s.buffer.lexer := by
  have hnone : s.buffer.failure = none := by
    rcases hfailure : s.buffer.failure with _ | ⟨i, e⟩
    · rfl
    · rw [(h.buffer.failed i e hfailure).1] at hopen
      cases hopen
  rw [State.At, List.drop_eq_nil_iff.2 (by simp [hsize])]
  exact .rest hopen hnone (.refl _)

theorem Offers.unbroken_unread (h : s.Offers τ) (hopen : s.buffer.finished = false)
    (hsize : s.buffer.tokens.size = s.cursor) : τ.Unbroken :=
  h.unbroken (h.1.at_unread hopen hsize) ⟨h.1.buffer.source_eq, h.1.buffer.stands⟩

/-- A parse begins with an unbroken tape. -/
theorem offers_initial (source : String) :
    ∃ τ : Tape source, (State.initial source).Offers τ ∧ τ.Unbroken := by
  rcases (sound_initial source).offers with ⟨τ, hτ⟩
  exact ⟨τ, hτ, hτ.unbroken_unread rfl rfl⟩

/-- What is read next stands behind the lexer. -/
theorem Sound.location_le_token (h : s.Sound source) (hopen : s.buffer.finished = false)
    (hsize : s.buffer.tokens.size = s.cursor) :
    s.buffer.lexer.location.offset ≤ s.token.position.offset := by
  have hfilled : s.filled.buffer.tokens[s.cursor]? = some s.token := h.getElem?_filled
  have hread : s.filled.buffer = s.buffer.readOne := by
    rw [State.filled, TokenBuffer.fill, hsize, Nat.add_sub_cancel_left]
    simp [TokenBuffer.readMore, hopen]
  have hstart := (Lexer.cursor_leads_tokenStart s.buffer.lexer).offset_le
  rw [hread, TokenBuffer.readOne] at hfilled
  split at hfilled
  · rename_i u lexer hnext
    rw [← hsize, Array.getElem?_push_size] at hfilled
    rw [← Option.some.inj hfilled, (Lexer.next_ok hnext).2.1]
    exact hstart
  · rename_i e lexer hnext
    rw [← hsize, Array.getElem?_push_size] at hfilled
    rw [← Option.some.inj hfilled]
    exact (Lexer.error_place hnext h.buffer.stands).2

/-- Reading on elsewhere leads to a tape that begins there or later. -/
theorem Sound.offers_restart {resume : Position}
    (h : ({ s with buffer := s.buffer.restart s.cursor resume } : State).Sound source)
    (hle : s.cursor ≤ s.buffer.tokens.size) :
    ∃ τ : Tape source, ({ s with buffer := s.buffer.restart s.cursor resume } : State).Offers τ ∧
      τ.Unbroken ∧ resume.offset ≤ τ.start := by
  rcases h.offers with ⟨τ, hτ⟩
  have hsize : (s.buffer.restart s.cursor resume).tokens.size = s.cursor := by
    simp [TokenBuffer.restart, hle]
  refine ⟨τ, hτ, hτ.unbroken_unread rfl hsize, ?_⟩
  have hbehind := h.location_le_token rfl hsize
  rw [hτ.token] at hbehind
  exact hbehind

end State

end Parse

namespace Lexer

/-- An error is met in either mode. -/
theorem next_error_mode {lx lx' : Lexer} {e : LexError} (h : lx.next = (.error e, lx'))
    (sizeMode : Bool) : ({ lx with sizeMode } : Lexer).next.1 = .error e := by
  have hstart : ({ lx with sizeMode } : Lexer).tokenStart = lx.tokenStart := rfl
  rw [next_eq, Prod.mk.injEq] at h
  rw [next_eq, hstart]
  have heq : ∀ mode mode', (scanToken mode lx.tokenStart.rest lx.tokenStart.here).1 = .error e →
      (scanToken mode' lx.tokenStart.rest lx.tokenStart.here).1 = .error e := by
    intro mode mode' hmode
    rcases scanToken_mode lx.tokenStart.rest lx.tokenStart.here with hsame | ⟨c, tail, hcs, hname⟩
    · cases mode <;> cases mode' <;> simp_all
    · rw [hcs, scanToken_word hname] at hmode
      cases hmode
  exact heq _ _ h.1

end Lexer

namespace Parse

namespace State

variable {source : String} {s : State} {τ : Tape source}

/-- Switching the mode before anything is read does not go back. -/
theorem Sound.token_le_unread (h : s.Sound source) (hopen : s.buffer.finished = false)
    (hsize : s.buffer.tokens.size = s.cursor) {enabled : Bool}
    (hmode : s.buffer.lexer.sizeMode ≠ enabled) :
    s.token.position.offset ≤ (Parse.switchSizeMode enabled s).token.position.offset := by
  have hat := h.at_unread hopen hsize
  have hresume : s.resume = s.buffer.lexer.location := by
    rw [State.resume, Array.getElem?_eq_none (by omega)]
  have hsound := h.switchSizeMode enabled
  have hswitched : (Parse.switchSizeMode enabled s).At
      { s.buffer.lexer with sizeMode := enabled } := by
    refine (h.at_switched hmode).of_same (Lexer.same_of_cursor rfl rfl ?_)
    rw [hresume]
    exact Lexer.resetTo_cursor (c := s.buffer.lexer.cursor)
      (by rw [h.buffer.source_eq]; exact h.buffer.stands)
  -- The lexer stands in front of the token in both modes, and each reading begins behind the
  -- white space there.
  rcases hnext : s.buffer.lexer.next with ⟨e | u, lx⟩
  · have hagain := Lexer.next_error_mode hnext enabled
    rcases hswitch : ({ s.buffer.lexer with sizeMode := enabled } : Lexer).next with ⟨r, mx⟩
    rw [hswitch] at hagain
    cases hagain
    rw [(hat.token_error h hnext).1, (hswitched.token_error hsound hswitch).1]
  · rw [hat.token_ok h hnext, (Lexer.next_ok hnext).2.1]
    rcases hswitch : ({ s.buffer.lexer with sizeMode := enabled } : Lexer).next with ⟨e | v, mx⟩
    · rw [(hswitched.token_error hsound hswitch).1]
      -- An escape is found to be invalid behind the quote, if not at it.
      rcases Lexer.next_error hswitch with ⟨-, -, hplace | ⟨sequence, rest, p, rfl, hleads⟩⟩
      · exact Nat.le_of_eq (congrArg Position.offset hplace).symm
      · exact hleads.offset_le
    · rw [hswitched.token_ok hsound hswitch, (Lexer.next_ok hswitch).2.1]
      exact Nat.le_refl _

/-- Switching the mode never goes back in the text. The tokens ahead may be other ones, since
    names are split at dashes in one mode only, but none of them stands in front of the place at
    hand. -/
theorem Offers.switched (h : s.Offers τ) (enabled : Bool) :
    ∃ τ' : Tape source, (Parse.switchSizeMode enabled s).Offers τ' ∧ τ.UpTo τ' := by
  -- Only a change of the mode makes a new tape.
  by_cases hmode : s.buffer.lexer.sizeMode = enabled
  · rw [Parse.switchSizeMode, TokenBuffer.setSizeMode, if_pos hmode]
    exact ⟨τ, h, .refl τ⟩
  · rcases (h.1.switchSizeMode enabled).offers with ⟨τ', hτ'⟩
    have hswitch : (Parse.switchSizeMode enabled s).buffer =
        { s.buffer.restart s.cursor s.resume with
          lexer := { s.buffer.lexer.resetTo s.resume with sizeMode := enabled } } := by
      rw [Parse.switchSizeMode, TokenBuffer.setSizeMode, if_neg hmode]
      rfl
    have hopen : (Parse.switchSizeMode enabled s).buffer.finished = false := by rw [hswitch]; rfl
    have hunread : (Parse.switchSizeMode enabled s).buffer.tokens.size = s.cursor := by
      rw [hswitch]
      change (s.buffer.tokens.take s.cursor).size = s.cursor
      simp [h.1.cursor_le]
    refine ⟨τ', hτ', ?_, fun _ => hτ'.unbroken_unread hopen hunread⟩
    -- The lexer goes back to the current token if that was read. If not, nothing changes but
    -- the mode.
    rw [Tape.start, Tape.start, ← h.token, ← hτ'.token]
    cases htoken : s.buffer.tokens[s.cursor]? with
    | none =>
        have hsize : s.buffer.tokens.size = s.cursor :=
          Nat.le_antisymm (by simpa using htoken) h.1.cursor_le
        have hunfinished : s.buffer.finished = false := by
          by_contra hfinished
          have := h.1.cursor_lt (by simpa using hfinished)
          omega
        exact h.1.token_le_unread hunfinished hsize hmode
    | some t =>
        have hlt : s.cursor < s.buffer.tokens.size := (Array.getElem?_eq_some_iff.1 htoken).1
        have ht : s.token = t := by
          have hfilled := h.1.getElem?_filled
          rw [State.filled, TokenBuffer.fill, TokenBuffer.readMore_getElem? _ _ _ hlt,
            htoken] at hfilled
          exact (Option.some.inj hfilled).symm
        have hbehind := (h.1.switchSizeMode enabled).location_le_token hopen hunread
        rw [hswitch, State.resume, htoken] at hbehind
        rw [ht]
        exact hbehind

end State

end Parse

end PolyScript
