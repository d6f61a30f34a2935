import Mathlib.Algebra.Ring.Int.Defs
import Mathlib.Algebra.Ring.Nat
import Mathlib.Data.List.Induction
import Mathlib.Data.List.TakeDrop
import PolyScript.Lexer.Basic
import PolyScript.Proofs.Lookup

/-!
# Places

Which positions belong to a source text, and how the lexer moves among them.

A position is a place of a text if reading some part of the text from its start
ends there. This is the right notion because it says everything at once: the
offset falls between two characters, and line and column are what counting gives.
`Position.isPlace_iff` spells it out.

A cursor carries more than a position, namely what is left to read, and the two
have to fit together. `Cursor.Stands` says so about a single cursor, while
`Cursor.Leads` relates two cursors of one text by the characters that lie between
them. Every function that scans part of a token leads from its cursor to a later
one, which is all that later arguments about positions need to know about
scanning. That an error stands at a place as well needs one remark: an invalid
escape is reported at its backslash, in the middle of the token.

## Main definitions

* `Position.IsPlace`: A position of a text.
* `Cursor.Stands`: A cursor whose position fits what it has left to read.
* `Cursor.Leads`: One cursor is reached from another by reading.
* `Lexer.ScansAs`: The rules by which tokens are read.
* `Token.IsOf`: A token that is read somewhere in a text.

## Theorems

* `Position.isPlace_iff`: Line, column and offset of a place, by counting.
* `Cursor.Leads.stands`: Reading on keeps a cursor in its text.
* `Lexer.skipBlank_leads`, `Lexer.scanString_leads`, `Lexer.scanToken_leads`:
  The parts of the lexer only read on.
* `Lexer.scansAs_of_scanToken`: Which rule a token was read by.
* `Lexer.scanToken_ok`: Where a token begins and ends.
* `Lexer.scanToken_error`: Where an error stands.
* `Lexer.resetTo_stands`: Setting a lexer to a place.
-/

namespace PolyScript

namespace Position

/-- A position of a text: reading some part of it from the start ends there. -/
def IsPlace (source : List Char) (p : Position) : Prop :=
  ∃ before rest, source = before ++ rest ∧ p = after before

/-- The characters after the last line feed. -/
def lastLine (cs : List Char) : List Char := (cs.reverse.takeWhile (· ≠ '\n')).reverse

/-- The number of bytes that a text takes. -/
def byteCount (cs : List Char) : Nat := (cs.map Char.utf8Size).sum

theorem lastLine_concat_newline (cs : List Char) : lastLine (cs ++ ['\n']) = [] := by
  simp [lastLine]

theorem lastLine_concat (cs : List Char) (c : Char) (h : c ≠ '\n') :
    lastLine (cs ++ [c]) = lastLine cs ++ [c] := by
  simp [lastLine, h]

theorem after_concat (cs : List Char) (c : Char) : after (cs ++ [c]) = (after cs).advance c := by
  simp [after]

theorem offset_advanceAll (p : Position) (cs : List Char) :
    (p.advanceAll cs).offset = p.offset + (cs.map Char.utf8Size).sum := by
  induction cs generalizing p with
  | nil => rfl
  | cons c cs ih =>
      simp only [advanceAll_cons, ih, offset_advance, List.map_cons, List.sum_cons]
      omega

theorem offset_after (cs : List Char) : (after cs).offset = byteCount cs := by
  simp [after, offset_advanceAll, start, byteCount]

/-- The position after a text, by counting. -/
theorem after_eq (cs : List Char) :
    after cs = ⟨1 + cs.count '\n', 1 + (lastLine cs).length, byteCount cs⟩ := by
  induction cs using List.reverseRecOn with
  | nil => rfl
  | append_singleton cs c ih =>
      rw [after_concat, ih]
      by_cases hc : c = '\n'
      · subst hc
        simp only [advance, if_true, lastLine_concat_newline, byteCount, List.map_append,
          List.sum_append, List.count_append]
        simp [Nat.add_assoc]
      · simp only [advance, if_neg hc, lastLine_concat cs c hc, byteCount, List.map_append,
          List.sum_append, List.count_append, List.length_append]
        simp [hc, Nat.add_assoc]

/-- A place cuts the text between two characters, and its line and column are
    found by counting in what comes before the cut. -/
theorem isPlace_iff (source : List Char) (p : Position) :
    p.IsPlace source ↔ ∃ before rest, source = before ++ rest ∧ p.offset = byteCount before ∧
      p.line = 1 + before.count '\n' ∧ p.column = 1 + (lastLine before).length := by
  constructor
  · rintro ⟨before, rest, hs, rfl⟩
    refine ⟨before, rest, hs, ?_, ?_, ?_⟩ <;> rw [after_eq]
  · rintro ⟨before, rest, hs, ho, hl, hc⟩
    refine ⟨before, rest, hs, ?_⟩
    rw [after_eq, ← ho, ← hl, ← hc]

end Position

namespace Cursor

/-- A cursor of a text: its position is where the unread part begins. -/
def Stands (source : List Char) (c : Cursor) : Prop :=
  ∃ before, source = before ++ c.rest ∧ c.here = Position.after before

/-- The second cursor is reached from the first by reading. -/
def Leads (c d : Cursor) : Prop :=
  ∃ cs, c.rest = cs ++ d.rest ∧ d.here = c.here.advanceAll cs

theorem Stands.isPlace {source : List Char} {c : Cursor} (h : c.Stands source) :
    c.here.IsPlace source := by
  rcases h with ⟨before, hs, hp⟩
  exact ⟨before, c.rest, hs, hp⟩

namespace Leads

theorem refl (c : Cursor) : c.Leads c := ⟨[], rfl, rfl⟩

theorem trans {a b c : Cursor} (h1 : a.Leads b) (h2 : b.Leads c) : a.Leads c := by
  rcases h1 with ⟨xs, hx, hpx⟩
  rcases h2 with ⟨ys, hy, hpy⟩
  refine ⟨xs ++ ys, ?_, ?_⟩
  · rw [hx, hy, List.append_assoc]
  · rw [hpy, hpx, Position.advanceAll_append]

/-- Reading one character leads on. -/
theorem step (c : Char) (cs : List Char) (p : Position) :
    Leads ⟨c :: cs, p⟩ ⟨cs, p.advance c⟩ := ⟨[c], rfl, rfl⟩

theorem stands {source : List Char} {c d : Cursor} (h : c.Leads d) (hc : c.Stands source) :
    d.Stands source := by
  rcases h with ⟨cs, hr, hp⟩
  rcases hc with ⟨before, hs, hb⟩
  refine ⟨before ++ cs, ?_, ?_⟩
  · rw [hs, hr, List.append_assoc]
  · rw [hp, hb, Position.after, Position.after, Position.advanceAll_append]

theorem offset_le {c d : Cursor} (h : c.Leads d) : c.here.offset ≤ d.here.offset := by
  rcases h with ⟨cs, _, hp⟩
  rw [hp, Position.offset_advanceAll]
  omega

theorem length_le {c d : Cursor} (h : c.Leads d) : d.rest.length ≤ c.rest.length := by
  rcases h with ⟨cs, hr, -⟩
  rw [hr, List.length_append]
  exact Nat.le_add_left _ _

/-- Reading anything at all moves the offset. -/
theorem offset_lt {c d : Cursor} (h : c.Leads d) (hne : d.rest.length < c.rest.length) :
    c.here.offset < d.here.offset := by
  rcases h with ⟨cs, hr, hp⟩
  rw [hp, Position.offset_advanceAll]
  cases cs with
  | nil => simp [hr] at hne
  | cons x xs =>
      have := x.utf8Size_pos
      simp only [List.map_cons, List.sum_cons]
      omega

/-- Splitting a text leads past the first part. -/
theorem of_append {cs xs ys : List Char} (h : xs ++ ys = cs) (p : Position) :
    Leads ⟨cs, p⟩ ⟨ys, p.advanceAll xs⟩ := ⟨xs, h.symm, rfl⟩

end Leads

end Cursor

namespace Lexer

/-! ### Parts of tokens -/

/-- Skipping blanks moves the cursor along the text. -/
theorem skipBlank_leads (acrossLines : Bool) (inComment : Bool) (cs : List Char) (p : Position) :
    Cursor.Leads ⟨cs, p⟩ (skipBlank acrossLines inComment cs p) := by
  fun_induction skipBlank acrossLines inComment cs p with
  | case1 => exact Cursor.Leads.refl _
  | case2 cs p hacross ih => exact (Cursor.Leads.step _ _ _).trans ih
  | case3 => exact Cursor.Leads.refl _
  | case4 p c cs hc ih => exact (Cursor.Leads.step _ _ _).trans ih
  | case5 p c cs hblank ih => exact (Cursor.Leads.step _ _ _).trans ih
  | case6 p c cs hblank hcomment ih => exact (Cursor.Leads.step _ _ _).trans ih
  | case7 => exact Cursor.Leads.refl _

theorem splitWord_append (sizeMode : Bool) (cs : List Char) :
    (splitWord sizeMode cs).1 ++ (splitWord sizeMode cs).2 = cs := by
  fun_induction splitWord sizeMode cs with
  | case1 => rfl
  | case2 c cs h word rest heq ih => simpa [heq] using ih
  | case3 => rfl

theorem splitRadix_append (radix : Nat) (mark cs : List Char) :
    (splitRadix radix mark cs).text ++ (splitRadix radix mark cs).rest = mark ++ cs := by
  simp [splitRadix, List.span_eq_takeWhile_dropWhile]

theorem splitFraction_append (cs : List Char) :
    (splitFraction cs).1 ++ (splitFraction cs).2 = cs := by
  unfold splitFraction
  split
  · split
    · simp [List.span_eq_takeWhile_dropWhile]
    · rfl
  · rfl

theorem splitSign_append (cs : List Char) : (splitSign cs).1 ++ (splitSign cs).2 = cs := by
  unfold splitSign
  split
  · split <;> rfl
  · rfl

theorem splitExponent_append (cs : List Char) :
    (splitExponent cs).1 ++ (splitExponent cs).2 = cs := by
  unfold splitExponent
  split
  · rename_i e cs
    split
    · have hsign := splitSign_append cs
      simp only [List.span_eq_takeWhile_dropWhile]
      split
      · rfl
      · simp only [List.cons_append, List.append_assoc, List.takeWhile_append_dropWhile, hsign]
    · rfl
  · rfl

theorem splitDecimal_append (cs : List Char) :
    (splitDecimal cs).text ++ (splitDecimal cs).rest = cs := by
  unfold splitDecimal
  simp only [List.append_assoc, splitExponent_append, splitFraction_append]
  simp [List.span_eq_takeWhile_dropWhile]

theorem splitNumber_append (cs : List Char) :
    (splitNumber cs).text ++ (splitNumber cs).rest = cs := by
  unfold splitNumber
  split
  · split
    · rw [splitRadix_append]
      rfl
    · exact splitDecimal_append _
  · exact splitDecimal_append _

/-- Scanning a string moves the cursor along the text. By the cases of the scanner, each of which
    takes one character. -/
theorem scanString_leads (quote : Char) (start : Position) (escape : Option (Position × List Char))
    (text cs : List Char) (p : Position) :
    Cursor.Leads ⟨cs, p⟩ (scanString quote start escape text cs p).2 := by
  fun_induction scanString quote start escape text cs p with
  | case1 => exact Cursor.Leads.refl _
  | case2 => exact Cursor.Leads.refl _
  | case3 escape digits text cs p scalar hscalar ih => exact (Cursor.Leads.step _ _ _).trans ih
  | case4 => exact Cursor.Leads.step _ _ _
  | case5 escape digits text c cs p hc ih => exact (Cursor.Leads.step _ _ _).trans ih
  | case6 => exact Cursor.Leads.step _ _ _
  | case7 => exact Cursor.Leads.refl _
  | case8 => exact Cursor.Leads.step _ _ _
  | case9 text p c cs scalar hscalar hq hn ih => exact .trans ⟨['\\', c], rfl, rfl⟩ ih
  | case10 text p cs hq hn hu ih => exact .trans ⟨['\\', 'u', '\x7b'], rfl, rfl⟩ ih
  | case11 text p c cs => exact ⟨['\\', 'u'], rfl, rfl⟩
  | case12 => exact ⟨['\\', 'u'], rfl, rfl⟩
  | case13 => exact Cursor.Leads.step _ _ _
  | case14 text c cs p hq hn hb ih => exact (Cursor.Leads.step _ _ _).trans ih

/-- A string literal that cannot be read is reported at its quote, or at the
    backslash of an escape: one that is met on the way, or the one that the scan
    was already inside. -/
theorem scanString_error {quote : Char} {start : Position}
    {escape : Option (Position × List Char)} {text cs : List Char} {p : Position} {e : LexError}
    (h : (scanString quote start escape text cs p).1 = .error e) :
    e = .unterminatedString start ∨
      ∃ sequence d, e = .invalidEscape sequence d ∧
        ((∃ rest, Cursor.Leads ⟨cs, p⟩ ⟨'\\' :: rest, d⟩) ∨
          ∃ digits, escape = some (d, digits)) := by
  -- By induction along the scan. What is asked of the rest of the text holds of all of it, since
  -- the scan only reads on.
  fun_induction scanString quote start escape text cs p with
  | case1 => exact .inl (Except.error.inj h).symm
  | case2 escape digits => exact .inr ⟨_, escape, (Except.error.inj h).symm, .inr ⟨digits, rfl⟩⟩
  | case3 escape digits text cs p scalar hscalar ih =>
      rcases ih h with he | ⟨sequence, d, he, ⟨rest, hlead⟩ | ⟨_, hnone⟩⟩
      · exact .inl he
      · exact .inr ⟨sequence, d, he, .inl ⟨rest, (Cursor.Leads.step _ _ _).trans hlead⟩⟩
      · cases hnone
  | case4 escape digits => exact .inr ⟨_, escape, (Except.error.inj h).symm, .inr ⟨digits, rfl⟩⟩
  | case5 escape digits text c cs p hc ih =>
      rcases ih h with he | ⟨sequence, d, he, ⟨rest, hlead⟩ | ⟨_, hsome⟩⟩
      · exact .inl he
      · exact .inr ⟨sequence, d, he, .inl ⟨rest, (Cursor.Leads.step _ _ _).trans hlead⟩⟩
      · cases hsome
        exact .inr ⟨sequence, escape, he, .inr ⟨digits, rfl⟩⟩
  | case6 => cases h
  | case7 => exact .inl (Except.error.inj h).symm
  | case8 => exact .inl (Except.error.inj h).symm
  | case9 text p c cs scalar hscalar hq hn ih =>
      rcases ih h with he | ⟨sequence, d, he, ⟨rest, hlead⟩ | ⟨_, hnone⟩⟩
      · exact .inl he
      · exact .inr ⟨sequence, d, he, .inl ⟨rest, .trans ⟨['\\', c], rfl, rfl⟩ hlead⟩⟩
      · cases hnone
  | case10 text p cs hq hn hu ih =>
      rcases ih h with he | ⟨sequence, d, he, ⟨rest, hlead⟩ | ⟨_, hsome⟩⟩
      · exact .inl he
      · exact .inr ⟨sequence, d, he, .inl ⟨rest, .trans ⟨['\\', 'u', '\x7b'], rfl, rfl⟩ hlead⟩⟩
      · cases hsome
        -- The escape that the scan is inside of begins here.
        exact .inr ⟨sequence, p, he, .inl ⟨_, Cursor.Leads.refl _⟩⟩
  | case11 text p =>
      exact .inr ⟨_, p, (Except.error.inj h).symm, .inl ⟨_, Cursor.Leads.refl _⟩⟩
  | case12 text p =>
      exact .inr ⟨_, p, (Except.error.inj h).symm, .inl ⟨_, Cursor.Leads.refl _⟩⟩
  | case13 text p =>
      exact .inr ⟨_, p, (Except.error.inj h).symm, .inl ⟨_, Cursor.Leads.refl _⟩⟩
  | case14 text c cs p hq hn hb ih =>
      rcases ih h with he | ⟨sequence, d, he, ⟨rest, hlead⟩ | ⟨_, hnone⟩⟩
      · exact .inl he
      · exact .inr ⟨sequence, d, he, .inl ⟨rest, (Cursor.Leads.step _ _ _).trans hlead⟩⟩
      · cases hnone

/-! ### Tokens -/

theorem isNamePart_of_isNameStart {c : Char} (h : isNameStart c = true) : isNamePart c = true := by
  simp only [isNameStart, isNamePart, Text.isAlphanumeric, Bool.or_eq_true] at h ⊢
  tauto

theorem splitWord_rest_length {sizeMode : Bool} {c : Char} {cs : List Char}
    (h : isNameStart c = true) : (splitWord sizeMode (c :: cs)).2.length < (c :: cs).length := by
  have hsplit := congrArg List.length (splitWord_append sizeMode cs)
  simp only [List.length_append] at hsplit
  rw [splitWord, isNamePart_of_isNameStart h]
  simp only [Bool.true_or, if_true, List.length_cons]
  omega

/-- A number that begins with a digit takes at least that digit. -/
theorem splitNumber_rest_length {c : Char} {cs : List Char} (h : c.isDigit = true) :
    (splitNumber (c :: cs)).rest.length < (c :: cs).length := by
  have hpart : isDecimalPart c = true := by simp [isDecimalPart, h]
  have hdecimal : ∀ tail, (splitDecimal (c :: tail)).text ≠ [] := by
    intro tail
    simp [splitDecimal, List.span_eq_takeWhile_dropWhile, hpart]
  have hsplit := congrArg List.length (splitNumber_append (c :: cs))
  have hne : (splitNumber (c :: cs)).text ≠ [] := by
    unfold splitNumber
    split
    · rename_i d tail heq
      cases heq
      split
      · simp [splitRadix]
      · exact hdecimal _
    · exact hdecimal _
  rw [List.length_append] at hsplit
  have := List.length_pos_iff.2 hne
  omega

theorem mem_of_symbol? {cs : List Char} {s : List Char × Kind} (h : symbol? cs = some s) :
    s ∈ Kind.symbols ∧ s.1 ++ cs.drop s.1.length = cs := by
  unfold symbol? at h
  refine ⟨List.mem_of_find?_eq_some h, ?_⟩
  have hinitial := List.find?_some h
  rcases List.isPrefixOf_iff_prefix.1 hinitial with ⟨rest, hrest⟩
  rw [← hrest, List.drop_left]

/-- A symbol has characters and is not the end of the text. -/
theorem symbols_proper :
    ∀ s ∈ Kind.symbols, s.1 ≠ [] ∧ s.2 ≠ .endOfInput ∧ s.2 ≠ .newline := by
  decide

/-- The kinds of words are those of reserved words, and plain identifiers. -/
theorem ofWord_mem (word : String) :
    Kind.ofWord word ∈ .identifier :: Kind.reserved.map Prod.snd := by
  unfold Kind.ofWord Kind.keyword?
  cases h : Kind.reserved.lookup word with
  | none => exact List.mem_cons_self
  | some kind => exact List.mem_cons_of_mem _ (List.mem_map_of_mem (mem_of_lookup_eq_some h))

/-- The kind of a word is never that of a token without a spelling. -/
theorem ofWord_proper (word : String) :
    Kind.ofWord word ≠ .endOfInput ∧ Kind.ofWord word ≠ .newline := by
  have hall : ∀ kind ∈ Kind.identifier :: Kind.reserved.map Prod.snd,
      kind ≠ .endOfInput ∧ kind ≠ .newline := by decide
  exact hall _ (ofWord_mem word)

/-- What characters are scanned as, and where the lexer goes on. The first character decides
    which of the rules it is. -/
inductive ScansAs (sizeMode : Bool) (start : Position) : List Char → Token → Cursor → Prop
  | endOfInput : ScansAs sizeMode start [] (.endAt start) ⟨[], start⟩
  | newline {cs : List Char} : ScansAs sizeMode start ('\n' :: cs)
    ⟨.newline, "\n", start, start.offset + 1⟩
    (skipBlank true false cs (start.advance '\n'))
  | string {quote : Char} {cs : List Char} {text : String} {after : Cursor} :
    quote = '"' ∨ quote = '\'' →
    scanString quote start none [] cs (start.advance quote) = (.ok text, after) →
    ScansAs sizeMode start (quote :: cs) ⟨.string, text, start, after.here.offset⟩ after
  | number {c : Char} {cs : List Char} : c.isDigit = true →
    (splitNumber (c :: cs)).wellFormed = true →
    ScansAs sizeMode start (c :: cs)
      ⟨.number, String.ofList (splitNumber (c :: cs)).text, start,
        (start.advanceAll (splitNumber (c :: cs)).text).offset⟩
      ⟨(splitNumber (c :: cs)).rest, start.advanceAll (splitNumber (c :: cs)).text⟩
  | word {c : Char} {cs : List Char} : isNameStart c = true →
    ScansAs sizeMode start (c :: cs)
      ⟨Kind.ofWord (String.ofList (splitWord sizeMode (c :: cs)).1),
        String.ofList (splitWord sizeMode (c :: cs)).1, start,
        (start.advanceAll (splitWord sizeMode (c :: cs)).1).offset⟩
      ⟨(splitWord sizeMode (c :: cs)).2, start.advanceAll (splitWord sizeMode (c :: cs)).1⟩
  | symbol {c : Char} {cs text : List Char} {kind : Kind} :
    symbol? (c :: cs) = some (text, kind) →
    ScansAs sizeMode start (c :: cs)
      ⟨kind, String.ofList text, start, (start.advanceAll text).offset⟩
      ⟨(c :: cs).drop text.length, start.advanceAll text⟩

/-- A token that is scanned is scanned by one of the rules. The cases are tried in the order of
    the scanner, and each is left by what its test has found. -/
theorem scansAs_of_scanToken {sizeMode : Bool} {cs : List Char} {start : Position} {t : Token}
    {after : Cursor} (h : scanToken sizeMode cs start = (.ok t, after)) :
    ScansAs sizeMode start cs t after := by
  cases cs with
  | nil =>
      cases h
      exact .endOfInput
  | cons c cs =>
      -- The tests of the scanner in its order: newline, quote, digit, letter, symbol.
      simp only [scanToken] at h
      split at h
      · rename_i hline
        subst hline
        cases h
        exact .newline
      · split at h
        · rename_i hquote
          generalize hscan : scanString c start none [] cs (start.advance c) = r at h
          rcases r with ⟨text | text, d⟩
          · cases h
          · cases h
            exact .string hquote hscan
        · split at h
          · rename_i hdigit
            split at h
            · rename_i hformed
              cases h
              exact .number hdigit hformed
            · cases h
          · split at h
            · rename_i hname
              cases h
              exact .word hname
            · split at h
              · rename_i text kind hsymbol
                cases h
                exact .symbol hsymbol
              · cases h

/-- A token begins where the scan began, ends no earlier, and is the end of the
    text exactly if nothing was left to read; otherwise the scan has moved on. -/
theorem scanToken_ok {sizeMode : Bool} {cs : List Char} {start : Position} {t : Token}
    {after : Cursor} (h : scanToken sizeMode cs start = (.ok t, after)) :
    t.position = start ∧ start.offset ≤ t.stop ∧ (t.isEnd = true ↔ cs = []) ∧
      Cursor.Leads ⟨cs, start⟩ after ∧ (cs ≠ [] → after.rest.length < cs.length) := by
  -- For each kind of token, what was split off and what is left make up the text.
  cases scansAs_of_scanToken h with
  | endOfInput =>
      exact ⟨rfl, Nat.le_refl _, by simp [Token.endAt, Token.isEnd], Cursor.Leads.refl _,
        fun hne => absurd rfl hne⟩
  | @newline cs =>
      have hlead := skipBlank_leads true false cs (start.advance '\n')
      exact ⟨rfl, Nat.le_succ _, by simp [Token.isEnd], (Cursor.Leads.step _ _ _).trans hlead,
        fun _ => Nat.lt_succ_of_le hlead.length_le⟩
  | @string quote cs text _ _ hscan =>
      have hlead := scanString_leads quote start none [] cs (start.advance quote)
      rw [hscan] at hlead
      have hall := (Cursor.Leads.step quote cs start).trans hlead
      exact ⟨rfl, hall.offset_le, by simp [Token.isEnd], hall,
        fun _ => Nat.lt_succ_of_le hlead.length_le⟩
  | @number c cs hdigit =>
      have hlead := Cursor.Leads.of_append (splitNumber_append (c :: cs)) start
      exact ⟨rfl, hlead.offset_le, by simp [Token.isEnd], hlead,
        fun _ => splitNumber_rest_length hdigit⟩
  | @word c cs hname =>
      have hlead := Cursor.Leads.of_append (splitWord_append sizeMode (c :: cs)) start
      exact ⟨rfl, hlead.offset_le, by simp [Token.isEnd, (ofWord_proper _).1], hlead,
        fun _ => splitWord_rest_length hname⟩
  | symbol hsymbol =>
      rcases mem_of_symbol? hsymbol with ⟨hmem, happend⟩
      rcases symbols_proper _ hmem with ⟨hne, hend, -⟩
      have hlead := Cursor.Leads.of_append happend start
      refine ⟨rfl, hlead.offset_le, by simp [Token.isEnd, hend], hlead, fun _ => ?_⟩
      have hpos := List.length_pos_iff.2 hne
      rw [List.length_drop]
      exact Nat.sub_lt (Nat.succ_pos _) hpos

/-- An error stands where the token began, or at a backslash inside it, and there was something
    to read. So errors are at places of the text, as tokens are. -/
theorem scanToken_error {sizeMode : Bool} {cs : List Char} {start : Position} {e : LexError}
    {after : Cursor} (h : scanToken sizeMode cs start = (.error e, after)) :
    Cursor.Leads ⟨cs, start⟩ after ∧ cs ≠ [] ∧
      (e.position = start ∨ ∃ sequence rest p, e = .invalidEscape sequence p ∧
        Cursor.Leads ⟨cs, start⟩ ⟨'\\' :: rest, p⟩) := by
  cases cs with
  | nil => cases h
  | cons c tail =>
      simp only [scanToken] at h
      -- Only strings, numbers and unknown characters can fail, and only a string fails behind its
      -- beginning.
      split at h
      · cases h
      · split at h
        · have hlead := scanString_leads c start none [] tail (start.advance c)
          have herror := @scanString_error c start none [] tail (start.advance c)
          generalize scanString c start none [] tail (start.advance c) = r at h hlead herror
          rcases r with ⟨text | text, d⟩
          · simp only [Prod.mk.injEq, Except.error.injEq] at h
            rcases h with ⟨rfl, rfl⟩
            refine ⟨(Cursor.Leads.step c tail start).trans hlead, by simp, ?_⟩
            rcases herror rfl with he | ⟨sequence, p, he, ⟨rest, hrest⟩ | ⟨_, hnone⟩⟩
            · exact .inl (by rw [he]; rfl)
            · exact .inr ⟨sequence, rest, p, he, (Cursor.Leads.step c tail start).trans hrest⟩
            · cases hnone
          · cases h
        · split at h
          · split at h
            · cases h
            · simp only [Prod.mk.injEq, Except.error.injEq] at h
              rcases h with ⟨rfl, rfl⟩
              exact ⟨Cursor.Leads.of_append (splitNumber_append (c :: tail)) start, by simp,
                .inl rfl⟩
          · split at h
            · cases h
            · split at h
              · cases h
              · simp only [Prod.mk.injEq, Except.error.injEq] at h
                rcases h with ⟨rfl, rfl⟩
                exact ⟨Cursor.Leads.refl _, by simp, .inl rfl⟩

/-- The cursor from which the next token is scanned. -/
def tokenStart (lx : Lexer) : Cursor := skipBlank false false lx.cursor.rest lx.cursor.here

theorem cursor_leads_tokenStart (lx : Lexer) : lx.cursor.Leads lx.tokenStart :=
  skipBlank_leads false false _ _

theorem next_eq (lx : Lexer) :
    lx.next = ((scanToken lx.sizeMode lx.tokenStart.rest lx.tokenStart.here).1,
      { lx with cursor := (scanToken lx.sizeMode lx.tokenStart.rest lx.tokenStart.here).2 }) := rfl

theorem scansAs_of_next {lx lx' : Lexer} {t : Token} (h : lx.next = (.ok t, lx')) :
    ScansAs lx.sizeMode lx.tokenStart.here lx.tokenStart.rest t lx'.cursor := by
  rw [next_eq, Prod.mk.injEq] at h
  rcases h with ⟨hresult, rfl⟩
  exact scansAs_of_scanToken (Prod.ext hresult rfl)

/-- What reading a token does: the token begins at its start and ends no earlier,
    and the lexer moves past it unless the text is at its end. -/
theorem next_ok {lx lx' : Lexer} {t : Token} (h : lx.next = (.ok t, lx')) :
    lx' = { lx with cursor := lx'.cursor } ∧ t.position = lx.tokenStart.here ∧
      t.position.offset ≤ t.stop ∧ lx.tokenStart.Leads lx'.cursor ∧
      (t.isEnd = false → t.position.offset < lx'.location.offset) := by
  rw [next_eq, Prod.mk.injEq] at h
  rcases h with ⟨hresult, rfl⟩
  rcases scanToken_ok (Prod.ext hresult rfl) with ⟨hposition, hstop, hend, hleads, hshort⟩
  refine ⟨rfl, hposition, by rw [hposition]; exact hstop, hleads, fun hnot => ?_⟩
  rw [hposition]
  refine hleads.offset_lt (hshort fun hnil => ?_)
  rw [hend.2 hnil] at hnot
  cases hnot

/-- What failing to read a token does. -/
theorem next_error {lx lx' : Lexer} {e : LexError} (h : lx.next = (.error e, lx')) :
    lx' = { lx with cursor := lx'.cursor } ∧ lx.tokenStart.Leads lx'.cursor ∧
      (e.position = lx.tokenStart.here ∨ ∃ sequence rest p, e = .invalidEscape sequence p ∧
        lx.tokenStart.Leads ⟨'\\' :: rest, p⟩) := by
  rw [next_eq, Prod.mk.injEq] at h
  rcases h with ⟨hresult, rfl⟩
  rcases scanToken_error (Prod.ext hresult rfl) with ⟨hleads, _, hplace⟩
  exact ⟨rfl, hleads, hplace⟩

/-- An error never stands before the place from which the token was sought. -/
theorem error_place {lx lx' : Lexer} {e : LexError} {source : List Char}
    (h : lx.next = (.error e, lx')) (hstands : lx.cursor.Stands source) :
    e.position.IsPlace source ∧ lx.location.offset ≤ e.position.offset := by
  have hstart := cursor_leads_tokenStart lx
  rcases next_error h with ⟨_, _, hplace | ⟨sequence, rest, p, he, hleads⟩⟩
  · rw [hplace]
    exact ⟨(hstart.stands hstands).isPlace, hstart.offset_le⟩
  · rw [he]
    have hall := hstart.trans hleads
    exact ⟨(hall.stands hstands).isPlace, hall.offset_le⟩

/-! ### Setting the lexer to a place -/

theorem dropBytes_append (before rest : List Char) :
    dropBytes (Position.byteCount before) (before ++ rest) = rest := by
  induction before with
  | nil => cases rest <;> rfl
  | cons c before ih =>
      have hpos := c.utf8Size_pos
      have hcount : Position.byteCount (c :: before) = c.utf8Size + Position.byteCount before := by
        simp [Position.byteCount]
      rw [List.cons_append, dropBytes, hcount, Nat.add_sub_cancel_left, ih]
      omega

theorem resetTo_stands {lx : Lexer} {p : Position} (h : p.IsPlace lx.source.toList) :
    (lx.resetTo p).cursor.Stands lx.source.toList := by
  rcases h with ⟨before, rest, hsource, rfl⟩
  refine ⟨before, ?_, rfl⟩
  simp only [resetTo, hsource, Position.offset_after, dropBytes_append]

/-- A cursor of the text is found again from its position alone. -/
theorem resetTo_cursor {lx : Lexer} {c : Cursor} (h : c.Stands lx.source.toList) :
    (lx.resetTo c.here).cursor = c := by
  rcases c with ⟨rest, here⟩
  rcases h with ⟨before, hsource, hhere⟩
  simp only at hsource hhere
  simp only [resetTo, hsource, hhere, Position.offset_after, dropBytes_append]

end Lexer

namespace Token

/-! ### Tokens of a text -/

/-- A token of a text: it stands at a place and is what the lexer reads there in one of
    its modes, or it stands in for the end. -/
def IsOf (source : List Char) (t : Token) : Prop :=
  ∃ before rest, source = before ++ rest ∧ t.position = Position.after before ∧
    (t = endAt t.position ∨
      ∃ sizeMode after, Lexer.scanToken sizeMode rest t.position = (.ok t, after))

theorem IsOf.place {source : List Char} {t : Token} (h : t.IsOf source) :
    t.position.IsPlace source ∧ t.position.offset ≤ t.stop := by
  rcases h with ⟨before, rest, hsource, hposition, hend | ⟨sizeMode, after, hscan⟩⟩
  · refine ⟨⟨before, rest, hsource, hposition⟩, ?_⟩
    rw [hend]
    exact Nat.le_refl _
  · exact ⟨⟨before, rest, hsource, hposition⟩, (Lexer.scanToken_ok hscan).2.1⟩

/-- A mark of the end at a place. -/
theorem isOf_endAt {source : List Char} {p : Position} (h : p.IsPlace source) :
    (endAt p).IsOf source := by
  rcases h with ⟨before, rest, hsource, rfl⟩
  exact ⟨before, rest, hsource, rfl, .inl rfl⟩

/-- The next token of a lexer. -/
theorem isOf_next {source : List Char} {lx lx' : Lexer} {t : Token}
    (hnext : lx.next = (.ok t, lx')) (hstands : lx.cursor.Stands source) : t.IsOf source := by
  rcases lx.cursor_leads_tokenStart.stands hstands with ⟨before, hsource, hhere⟩
  rw [Lexer.next_eq, Prod.mk.injEq] at hnext
  have hscan : Lexer.scanToken lx.sizeMode lx.tokenStart.rest lx.tokenStart.here = (.ok t, _) :=
    Prod.ext hnext.1 rfl
  have hposition := (Lexer.scanToken_ok hscan).1
  exact ⟨before, _, hsource, hposition.trans hhere, .inr ⟨_, _, by rw [hposition]; exact hscan⟩⟩

end Token

end PolyScript
