import PolyScript.Proofs.Foresight
import PolyScript.Proofs.Moments
import PolyScript.Proofs.Tail

/-!
# Two Parses in Step

A parse of a text and one of a longer text in which a copy of it stands are in step if
their lexers are. What one of them finds ahead the other one finds too, moved by what
stands before the copy, until the text is over.

## Main definitions

* `Excerpt`: A text, and a longer one with a copy of it.
* `Parse.Abreast`: The states of two parses correspond.
* `Parse.Beyond`: The second parse has left the copy.

## Theorems

* `Parse.Abreast.take`, `Parse.Abreast.newline`, `Parse.Abreast.atEnd`: The current token.
* `Parse.Abreast.ahead`: Tokens further ahead.
-/

namespace PolyScript

/-- A text, and a longer one with a copy of it: behind whole lines, and before a line
    end. The line behind the copy is not one that continues a statement. -/
structure Excerpt where
  source : String
  context : String
  before : List Char
  tail : List Char
  context_eq : context.toList = before ++ source.toList ++ tail
  lineStart : before = [] ∨ ∃ lines, before = lines ++ ['\n']
  lineEnd : LineEnd tail
  fresh : ∀ rest, tail = '\n' :: rest → ∀ t lx,
    (⟨context, Lexer.skipBlank true false rest
      (Position.after (before ++ source.toList ++ ['\n'])), false⟩ : Lexer).next = (.ok t, lx) →
    t.kind ≠ .pipe ∧ t.kind ≠ .kwElse

namespace Excerpt

/-- How far the copy is moved. -/
def shift (e : Excerpt) : Shift := ⟨e.before.count '\n', Position.byteCount e.before⟩

/-- Behind whole lines a text is moved by their number and their size. -/
theorem after_before (e : Excerpt) (cs : List Char) :
    Position.after (e.before ++ cs) = (Position.after cs).shift e.shift := by
  have hstart : Position.after e.before = Position.start.shift e.shift := by
    rcases e.lineStart with hnil | ⟨lines, hlines⟩
    · simp only [shift, hnil]
      rfl
    · rw [Position.after_eq, shift, hlines, Position.lastLine_concat_newline]
      simp only [Position.shift, Position.start, List.length_nil, Nat.zero_add]
  rw [Position.after, Position.advanceAll_append]
  change (Position.after e.before).advanceAll cs = _
  rw [hstart, ← Position.shift_advanceAll]
  rfl

/-- The place behind the copy and its line feed. -/
def next (e : Excerpt) : Position := Position.after (e.before ++ e.source.toList ++ ['\n'])

theorem next_eq (e : Excerpt) :
    e.next = ((Position.after e.source.toList).shift e.shift).advance '\n' := by
  rw [next, Position.after_concat, after_before]

end Excerpt

/-- Where nothing is left of a text, it has been read. -/
theorem Cursor.Stands.here_eq {source : List Char} {c : Cursor} (h : c.Stands source)
    (hrest : c.rest = []) : c.here = Position.after source := by
  rcases h with ⟨before, hsource, hhere⟩
  rw [hsource, hrest, List.append_nil, hhere]

theorem byteSize_eq (s : String) : s.utf8ByteSize = Position.byteCount s.toList := by
  have hlist : ∀ cs : List Char, (String.ofList cs).utf8ByteSize = Position.byteCount cs := by
    intro cs
    induction cs using List.reverseRecOn with
    | nil => rfl
    | append_singleton cs c ih =>
        have hpush : String.ofList (cs ++ [c]) = (String.ofList cs).push c := by simp
        rw [hpush, String.utf8ByteSize_push, ih]
        simp [Position.byteCount]
  rw [← hlist, String.ofList_toList]

namespace Parse

open Lexer

variable {e : Excerpt}

/-- The states of two parses correspond, at two lexers. -/
structure Paired (e : Excerpt) (s s' : State) (lx mx : Lexer) : Prop where
  first : s.At lx
  second : s'.At mx
  within : lx.Within e.source
  within' : mx.Within e.context
  retells : lx.Retells e.shift e.tail mx
  sound : s.Sound e.source
  sound' : s'.Sound e.context
  clean : ∀ n, (s.buffer.readMore n).lexError? = none
  depth : s'.depth = s.depth
  loopDepth : s'.loopDepth = s.loopDepth
  relaxed : s'.isRelaxed = s.isRelaxed

/-- The states of two parses correspond. -/
def Abreast (e : Excerpt) (s s' : State) : Prop := ∃ lx mx, Paired e s s' lx mx

/-- Where no error will be known, the lexer finds a token. -/
theorem State.At.next_clean {source : String} {s : State} {lx : Lexer} (h : s.At lx)
    (hs : s.Sound source) (hclean : ∀ n, (s.buffer.readMore n).lexError? = none) :
    ∃ lx', lx.next = (.ok s.token, lx') := by
  cases hnext : lx.next with
  | mk result lx' =>
  cases result with
  | ok u => exact ⟨lx', by rw [h.token_ok hs hnext]⟩
  | error e =>
      rcases h.token_error hs hnext with ⟨_, i, hfailure⟩
      have hfilled : s.filled.buffer.lexError? = none :=
        hclean (s.cursor + 1 - s.buffer.tokens.size)
      rw [TokenBuffer.lexError?, hfailure] at hfilled
      cases hfilled

theorem State.clean_advanced {s : State} (hclean : ∀ n, (s.buffer.readMore n).lexError? = none)
    (n : Nat) : (s.advanced.buffer.readMore n).lexError? = none := by
  change (TokenBuffer.readMore n (s.buffer.readMore _)).lexError? = none
  rw [← TokenBuffer.readMore_add]
  exact hclean _

/-- A parse of the longer text has left the copy and the line feed behind it. -/
structure Beyond (e : Excerpt) (s' : State) : Prop where
  sound : s'.Sound e.context
  reached : ∃ rest mx, e.tail = '\n' :: rest ∧ s'.At mx ∧ mx.Within e.context ∧
    mx.cursor = skipBlank true false rest e.next

/-- The line behind the copy begins with a token that does not continue a statement. -/
theorem Beyond.token {s' : State} (h : Beyond e s') (hmode : s'.buffer.lexer.sizeMode = false) :
    s'.token.kind ≠ .newline ∧ s'.token.kind ≠ .pipe ∧ s'.token.kind ≠ .kwElse := by
  rcases h.reached with ⟨rest, mx, htail, hat, hmx, hcursor⟩
  rw [hat.mode] at hmode
  cases hnext : mx.next with
  | mk result mx' =>
  cases result with
  | error err =>
      rw [(hat.token_error h.sound hnext).1]
      exact ⟨nofun, nofun, nofun⟩
  | ok u =>
      have hmx' : mx = ⟨e.context, skipBlank true false rest e.next, false⟩ := by
        rw [← hmx.1, ← hcursor, ← hmode]
      rw [hat.token_ok h.sound hnext]
      exact ⟨next_ne_newline hcursor hnext, e.fresh rest htail u mx' (by rw [← hnext, hmx']; rfl)⟩

/-- Two newlines never follow each other. -/
theorem State.At.newline_once {source : String} {s : State} {lx : Lexer} (h : s.At lx)
    (hs : s.Sound source) (hkind : s.token.kind = .newline) : s.advanced.token.kind ≠ .newline := by
  have hend : s.token.isEnd = false := by simp [Token.isEnd, hkind]
  rcases h.next_of_token hs (by rw [hkind]; decide) with ⟨lx', hnext⟩
  have hadvanced := h.advanced hs hnext hend
  have hafter := hnext
  rw [next_eq, Prod.mk.injEq] at hafter
  rcases hafter with ⟨hresult, rfl⟩
  rcases scanToken_newline (Prod.ext hresult rfl) hkind with ⟨-, -, -, hcursor⟩
  cases hnext' : Lexer.next { lx with cursor := _ } with
  | mk result lx'' =>
  cases result with
  | error err =>
      rw [(hadvanced.token_error hs.advanced hnext').1]
      exact nofun
  | ok u =>
      rw [hadvanced.token_ok hs.advanced hnext']
      exact next_ne_newline hcursor hnext'

namespace Abreast

variable {s s' t t' : State} {lx mx : Lexer}

theorem mode (h : Abreast e s s') : s'.buffer.lexer.sizeMode = s.buffer.lexer.sizeMode := by
  rcases h with ⟨lx, mx, h⟩
  rw [h.first.mode, h.second.mode, h.retells.1]

theorem reads (h : Abreast e s s') (hreads : s.Reads t) : Abreast e t s' := by
  rcases h with ⟨lx, mx, h⟩
  refine ⟨lx, mx, ?_⟩
  rcases hreads with ⟨n, rfl⟩
  exact { h with
    first := h.first.reads h.sound ⟨n, rfl⟩
    sound := h.sound.reads ⟨n, rfl⟩
    clean := fun m => by
      rw [← TokenBuffer.readMore_add]
      exact h.clean (n + m) }

theorem reads' (h : Abreast e s s') (hreads : s'.Reads t') : Abreast e s t' := by
  rcases h with ⟨lx, mx, h⟩
  refine ⟨lx, mx, ?_⟩
  rcases hreads with ⟨n, rfl⟩
  exact { h with
    second := h.second.reads h.sound' ⟨n, rfl⟩
    sound' := h.sound'.reads ⟨n, rfl⟩ }

/-- States that correspond still do after both have been given the same frame. Frames say nothing
    about tokens. -/
theorem withFrame (h : Abreast e s s') (depth loopDepth : Nat) (isRelaxed : Bool) :
    Abreast e (s.withFrame depth loopDepth isRelaxed) (s'.withFrame depth loopDepth isRelaxed) := by
  rcases h with ⟨lx, mx, h⟩
  exact ⟨lx, mx, {
    first := h.first
    second := h.second
    within := h.within
    within' := h.within'
    retells := h.retells
    sound := ⟨h.sound.1, h.sound.2, h.sound.3⟩
    sound' := ⟨h.sound'.1, h.sound'.2, h.sound'.3⟩
    clean := h.clean
    depth := rfl
    loopDepth := rfl
    relaxed := rfl }⟩

end Abreast

namespace Paired

variable {s s' : State} {lx mx : Lexer}

/-- The lexer of the first parse finds a token. -/
theorem next (h : Paired e s s' lx mx) : ∃ lx', lx.next = (.ok s.token, lx') :=
  h.first.next_clean h.sound h.clean

/-- So does the lexer of the second one. -/
theorem next' (h : Paired e s s' lx mx) : ∃ u mx', mx.next = (.ok u, mx') := by
  rcases h.next with ⟨lx', hnext⟩
  by_cases hend : s.token.kind = .endOfInput
  · rcases h.retells.next_end e.lineEnd hnext hend with ⟨u, mx', hnext', _⟩
    exact ⟨u, mx', hnext'⟩
  · by_cases hline : s.token.kind = .newline
    · rcases h.retells.next_newline e.lineEnd hnext hline with ⟨mx', hnext', _⟩
      exact ⟨_, mx', hnext'⟩
    · rcases h.retells.next_ok e.lineEnd hnext ⟨hline, hend⟩ with ⟨mx', hnext', _⟩
      exact ⟨_, mx', hnext'⟩

/-- Both parses take a token that their lexers find, if they are in step behind it. -/
theorem advanced (h : Paired e s s' lx mx) {lx' mx' : Lexer} {u : Token}
    (hnext : lx.next = (.ok s.token, lx')) (hnext' : mx.next = (.ok u, mx'))
    (hend : s.token.isEnd = false) (hend' : u.isEnd = false)
    (hretells : lx'.Retells e.shift e.tail mx') :
    Paired e s.advanced s'.advanced lx' mx' where
  first := h.first.advanced h.sound hnext hend
  second := h.second.advanced h.sound' hnext' hend'
  within := h.within.next_ok hnext
  within' := h.within'.next_ok hnext'
  retells := hretells
  sound := h.sound.advanced
  sound' := h.sound'.advanced
  clean := State.clean_advanced h.clean
  depth := h.depth
  loopDepth := h.loopDepth
  relaxed := h.relaxed

end Paired

namespace Abreast

variable {s s' : State}

/-- A token of the first parse is one of the second, and behind it they are in step. -/
theorem take (h : Abreast e s s') (hkind : s.token.kind ≠ .newline ∧ s.token.kind ≠ .endOfInput) :
    s'.token = s.token.shift e.shift ∧ Abreast e s.advanced s'.advanced := by
  rcases h with ⟨lx, mx, h⟩
  have hend : s.token.isEnd = false := by simp [Token.isEnd, hkind.2]
  rcases h.next with ⟨lx', hnext⟩
  rcases h.retells.next_ok e.lineEnd hnext hkind with ⟨mx', hnext', hretells⟩
  exact ⟨h.second.token_ok h.sound' hnext', lx', mx', h.advanced hnext hnext' hend hend hretells⟩

/-- So is a newline, unless the first text is over behind it and the second goes on. -/
theorem newline (h : Abreast e s s') (hkind : s.token.kind = .newline) :
    s'.token = s.token.shift e.shift ∧
      (s.advanced.token.kind ≠ .endOfInput ∨ e.tail = [] → Abreast e s.advanced s'.advanced) ∧
      (s.advanced.token.kind = .endOfInput → e.tail ≠ [] → Beyond e s'.advanced) := by
  rcases h with ⟨lx, mx, h⟩
  have hend : s.token.isEnd = false := by simp [Token.isEnd, hkind]
  rcases h.next with ⟨lx', hnext⟩
  rcases h.retells.next_newline e.lineEnd hnext hkind with
    ⟨mx', hnext', hstart, hretells, hbeyond⟩
  have hpaired := fun hleft => h.advanced hnext hnext' hend hend (hretells hleft)
  rcases (h.first.advanced h.sound hnext hend).next_clean h.sound.advanced
    (State.clean_advanced h.clean) with ⟨lx'', hover⟩
  -- Only the end of the text is reached with nothing left.
  have hnil : lx'.cursor.rest = [] ↔ s.advanced.token.kind = .endOfInput := by
    rw [← hstart]
    exact tokenStart_nil hover
  refine ⟨h.second.token_ok h.sound' hnext', fun hmore => ⟨lx', mx', ?_⟩, fun hlast htail => ?_⟩
  · exact hpaired (hmore.imp (fun hmore hrest => hmore (hnil.1 hrest)) id)
  · refine ⟨h.sound'.advanced, ?_⟩
    rcases e.lineEnd with htail' | ⟨rest, hrest⟩
    · exact absurd htail' htail
    · refine ⟨rest, mx', hrest, h.second.advanced h.sound' hnext' hend,
        h.within'.next_ok hnext', ?_⟩
      rw [hbeyond (hnil.2 hlast) rest hrest, e.next_eq,
        (h.within.next_ok hnext).2.here_eq (hnil.2 hlast)]

/-- Where the first text is over, the second one is too, or a newline follows. -/
theorem atEnd (h : Abreast e s s') (hkind : s.token.kind = .endOfInput) :
    (e.tail = [] ∧ s'.token = s.token.shift e.shift) ∨
      (s'.token.kind = .newline ∧ Beyond e s'.advanced) := by
  rcases h with ⟨lx, mx, h⟩
  rcases h.next with ⟨lx', hnext⟩
  rcases h.retells.next_end e.lineEnd hnext hkind with ⟨u, mx', hnext', hcases⟩
  have htoken := h.second.token_ok h.sound' hnext'
  rcases hcases with ⟨htail, hu, _⟩ | ⟨rest, htail, hu, hcursor⟩
  · exact .inl ⟨htail, by rw [htoken, hu]⟩
  · refine .inr ⟨by rw [htoken, hu], h.sound'.advanced, rest, mx', htail, ?_, ?_, ?_⟩
    · exact h.second.advanced h.sound' hnext' (by simp [Token.isEnd, hu])
    · exact h.within'.next_ok hnext'
    · rw [hcursor, e.next_eq, (Lexer.next_ok hnext).2.1,
        h.within.tokenStart.here_eq ((tokenStart_nil hnext).2 hkind)]

/-- What one parse finds ahead the other one finds too, up to the first line end. There
    a newline may stand for the end. -/
theorem ahead (h : Abreast e s s') {κ : Nat → Kind} (hs : s.Sees κ) (n : Nat)
    (hbefore : ∀ i < n, κ i ≠ .newline ∧ κ i ≠ .endOfInput) :
    s'.buffer.tokenAt (s'.cursor + n) = (s.buffer.tokenAt (s.cursor + n)).shift e.shift ∨
      (κ n = .endOfInput ∧ (s'.buffer.tokenAt (s'.cursor + n)).kind = .newline) := by
  -- By induction on the distance. The tokens before it are no newlines, so both parses take them.
  induction n generalizing s s' κ with
  | zero =>
      by_cases hend : s.token.kind = .endOfInput
      · rcases h.atEnd hend with ⟨-, htoken⟩ | ⟨hkind, -⟩
        · exact .inl htoken
        · exact .inr ⟨by rw [← hs.token, hend], hkind⟩
      · by_cases hline : s.token.kind = .newline
        · exact .inl (h.newline hline).1
        · exact .inl (h.take ⟨hline, hend⟩).1
  | succ n ih =>
      have hkind : s.token.kind ≠ .newline ∧ s.token.kind ≠ .endOfInput := by
        rw [hs.token]
        exact hbefore 0 (Nat.succ_pos n)
      rcases h.take hkind with ⟨htoken, hnext⟩
      have hend : s.token.isEnd = false := by simp [Token.isEnd, hkind.2]
      have hend' : s'.token.isEnd = false := by rw [htoken]; exact hend
      have hrest := ih hnext (hs.advanced (hs.token ▸ hkind.2)) fun i hi =>
        hbefore (i + 1) (by omega)
      rw [State.tokenAt_advanced, State.tokenAt_advanced, State.cursor_advanced hend,
        State.cursor_advanced hend', Nat.add_right_comm, Nat.add_right_comm s.cursor] at hrest
      exact hrest

/-- The same of kinds, for something that does not tell a newline from the end. -/
theorem kind_ahead {α : Type} (h : Abreast e s s') {κ : Nat → Kind} (hs : s.Sees κ) (n : Nat)
    (hbefore : ∀ i < n, κ i ≠ .newline ∧ κ i ≠ .endOfInput) {f : Kind → α}
    (hend : κ n = .endOfInput → f .newline = f .endOfInput) :
    f (s'.buffer.tokenAt (s'.cursor + n)).kind = f (κ n) := by
  rcases h.ahead hs n hbefore with htoken | ⟨hlast, hkind⟩
  · rw [htoken, Token.shift_kind, hs n]
  · rw [hkind, hlast, hend hlast]

end Abreast

end Parse

end PolyScript
