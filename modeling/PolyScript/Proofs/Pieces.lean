import PolyScript.Proofs.Lexemes

/-!
# Words in Either Mode

A text in which the lexer is switched to size mode and back is not read as one row of
tokens. It is read piece by piece, and of each piece one has to say in which mode it is
read, unless that makes no difference. It makes one for names only: a dash may continue
a name, but never does in size mode.

A name is over before a text that does not go on with a character of a name, nor with a
dash that continues it in the mode at hand. A number is over before a text that goes on
with no such character and no fraction. Texts before which both are over in either mode
are the ones that anything may be printed in front of.

## Main definitions

* `Lexer.NameOver`, `Lexer.NumberOver`, `Lexer.Over`: Where names and numbers are over.
* `Piece`: A word and the mode that it is read in.
* `Lexer.Legible`: A text that is read as some pieces.
* `Lexer.Prints`: A text that is read as pieces wherever words are over behind it.

## Theorems

* `Lexer.splitWord_over`, `Lexer.splitNumber_over`: Names and numbers that something follows.
* `Lexer.IsLexeme.isRead_over`: So lexemes are read in either mode.
* `Word.IsRead.either`: Symbols are read in either mode.
-/

namespace PolyScript

namespace Lexer

/-! ### Where words are over -/

/-- A name is over before a text, in some mode. -/
def NameOver (sizeMode : Bool) (cs : List Char) : Prop :=
  cs.head?.any isNamePart = false ∧
    (sizeMode = false → ∀ ds, cs = '-' :: ds → ds.head?.any Text.isAlphabetic = false)

/-- A number is over before a text. -/
def NumberOver (cs : List Char) : Prop :=
  cs.head?.any isNamePart = false ∧ ∀ ds, cs = '.' :: ds → ds.head?.any Char.isDigit = false

/-- Names and numbers are over before a text, in either mode. -/
structure Over (cs : List Char) : Prop where
  name : NameOver false cs
  number : NumberOver cs

variable {cs ds : List Char} {c : Char} {sizeMode : Bool}

theorem Over.nameOver (h : Over cs) (sizeMode : Bool) : NameOver sizeMode cs :=
  ⟨h.name.1, fun _ => h.name.2 rfl⟩

theorem over_nil : Over [] := ⟨⟨rfl, fun _ _ h => by cases h⟩, rfl, fun _ h => by cases h⟩

/-- A character that is no part of a name or number is one at which they are over. -/
theorem over_mark (hpart : isNamePart c = false) (hdash : c ≠ '-') (hpoint : c ≠ '.') :
    Over (c :: cs) := by
  refine ⟨⟨hpart, fun _ ds h => ?_⟩, hpart, fun ds h => ?_⟩
  · cases h
    exact absurd rfl hdash
  · cases h
    exact absurd rfl hpoint

theorem over_field (h : isNameStart c = true) : Over ('.' :: c :: cs) := by
  have hpoint : isNamePart '.' = false := by decide
  refine ⟨⟨hpoint, fun _ ds h => by cases h⟩, hpoint, fun ds hds => ?_⟩
  cases hds
  exact isDigit_of_isNameStart h

/-- A digit in any radix is also a character that goes on with a name, so a name cannot follow a
    number at once. -/
theorem isNamePart_of_isDigitIn {radix : Nat} (h : Text.isDigitIn radix c = true) :
    isNamePart c = true := by
  have hrange : ('0' ≤ c ∧ c ≤ '9') ∨ ('a' ≤ c ∧ c ≤ 'z') ∨ ('A' ≤ c ∧ c ≤ 'Z') := by
    by_contra hnot
    rw [not_or, not_or] at hnot
    simp [Text.isDigitIn, Text.digit?, hnot.1, hnot.2.1, hnot.2.2] at h
  have hle : ∀ d e : Char, d ≤ e → d.toNat ≤ e.toNat := fun _ _ hde => hde
  have hascii : c.toNat < 0x80 := by
    rcases hrange with ⟨-, hhigh⟩ | ⟨-, hhigh⟩ | ⟨-, hhigh⟩
    · exact Nat.lt_of_le_of_lt (hle _ _ hhigh) (by decide)
    · exact Nat.lt_of_le_of_lt (hle _ _ hhigh) (by decide)
    · exact Nat.lt_of_le_of_lt (hle _ _ hhigh) (by decide)
  rw [isNamePart, Text.isAlphanumeric, Text.isAlphabetic, Text.isNumeric, if_pos hascii,
    if_pos hascii]
  rcases hrange with hdigit | hsmall | hcapital
  · simp [hdigit]
  · simp [hsmall]
  · simp [hcapital]

theorem isNamePart_of_isDigit (h : c.isDigit = true) : isNamePart c = true := by
  have hdigit : 48 ≤ c.toNat ∧ c.toNat ≤ 57 := by
    simp only [Char.isDigit, Bool.and_eq_true, decide_eq_true_eq] at h
    exact h
  have hrange : '0' ≤ c ∧ c ≤ '9' := hdigit
  rw [isNamePart, Text.isAlphanumeric, Text.isNumeric, if_pos (by omega)]
  simp [hrange]

theorem isNamePart_of_isDecimalPart (h : isDecimalPart c = true) : isNamePart c = true := by
  rw [isDecimalPart, Bool.or_eq_true, decide_eq_true_eq] at h
  rcases h with hdigit | rfl
  · exact isNamePart_of_isDigit hdigit
  · decide

theorem NumberOver.any_head? (h : NumberOver cs) {p : Char → Bool}
    (hp : ∀ c, p c = true → isNamePart c = true) : cs.head?.any p = false := by
  cases cs with
  | nil => rfl
  | cons c cs =>
      have hpart : isNamePart c = false := h.1
      by_contra hc
      rw [hp c (by simpa using hc)] at hpart
      cases hpart

/-! ### Names and numbers that something follows -/

/-- A name that is over is read as it is by itself. -/
theorem splitWord_over {word : List Char} (h : splitWord sizeMode word = (word, []))
    (hcs : NameOver sizeMode cs) : splitWord sizeMode (word ++ cs) = (word, cs) := by
  have hstop : splitWord sizeMode cs = ([], cs) := by
    cases cs with
    | nil => rfl
    | cons c cs =>
        refine splitWord_stop hcs.1 fun hdash => ?_
        subst hdash
        cases sizeMode with
        | true => exact .inl rfl
        | false => exact .inr (hcs.2 rfl cs rfl)
  rw [splitWord_append_of_whole h, hstop, List.append_nil]

/-- A name without dashes is a name in size mode too. -/
theorem IsName.whole_of_no_dash {word : List Char} (h : IsName word) (hdash : '-' ∉ word) :
    splitWord true word = (word, []) := by
  rcases splitWord_mode word with heq | ⟨c, rest, -, -, hword, -⟩
  · rw [heq, h.whole]
  · rw [h.whole] at hword
    have hmem : '-' ∈ (splitWord true word).1 ++ '-' :: (splitWord false (c :: rest)).1 :=
      List.mem_append_right _ List.mem_cons_self
    rw [← hword] at hmem
    exact absurd hmem hdash

/-- If a spelling has its whole exponent then so it does in front of a text before which numbers
    are over. A sign without a digit behind it would be left over, which the hypothesis
    excludes. -/
theorem splitExponent_over (hcs : NumberOver cs) (h : (splitExponent ds).2 = []) :
    splitExponent (ds ++ cs) = ((splitExponent ds).1, cs) := by
  have hmark : ∀ c, c = 'e' ∨ c = 'E' → isNamePart c = true := by
    rintro c (rfl | rfl) <;> decide
  cases ds with
  | nil =>
      cases cs with
      | nil => rfl
      | cons c cs =>
          -- No exponent begins here, as the character would be part of a name.
          have hpart : isNamePart c = false := hcs.1
          have hother : ¬(c = 'e' ∨ c = 'E') := fun hc => by
            rw [hmark c hc] at hpart
            cases hpart
          rw [List.nil_append, splitExponent, if_neg hother]
          rfl
  | cons e ds =>
      rw [splitExponent] at h ⊢
      split at h
      · rename_i he
        cases ds with
        | nil => simp [splitSign] at h
        | cons d ds =>
            have hsign : splitSign (d :: ds ++ cs) =
                ((splitSign (d :: ds)).1, (splitSign (d :: ds)).2 ++ cs) := by
              rw [List.cons_append, splitSign, splitSign]
              split <;> rfl
            -- The digits end where the number does.
            have hspan : ((splitSign (d :: ds)).2 ++ cs).span Char.isDigit = _ :=
              span_append (hcs.any_head? fun c => isNamePart_of_isDigit) (splitSign (d :: ds)).2
            rw [List.cons_append, splitExponent, if_pos he, if_pos he, hsign]
            simp only [hspan] at h ⊢
            split at h
            · cases h
            · rename_i hdigits
              simp only [if_neg hdigits]
              exact congrArg (Prod.mk _) (by rw [h, List.nil_append])
      · cases h

/-- A fraction is split off in the same way in front of a text before which numbers are over. The
    point is not taken for a fraction because no digit follows it there. -/
theorem splitFraction_over (hcs : NumberOver cs) (h : (splitExponent (splitFraction ds).2).2 = []) :
    splitFraction (ds ++ cs) = ((splitFraction ds).1, (splitFraction ds).2 ++ cs) := by
  cases ds with
  | nil =>
      cases cs with
      | nil => rfl
      | cons c cs =>
          -- Only a point could go on with the number, and it would need a digit behind it.
          by_cases hc : c = '.'
          · subst hc
            cases cs with
            | nil => rfl
            | cons d cs =>
                have hd : d.isDigit = false := hcs.2 _ rfl
                exact splitFraction_point hd cs
          · exact splitFraction_ne hc cs
  | cons c ds =>
      by_cases hc : c = '.'
      · subst hc
        cases ds with
        | nil => cases h
        | cons d ds =>
            by_cases hd : d.isDigit = true
            · have hspan := span_append
                (hcs.any_head? fun c => isNamePart_of_isDecimalPart) (d :: ds)
              rw [List.cons_append] at hspan
              rw [List.cons_append, List.cons_append, splitFraction, splitFraction, if_pos hd,
                if_pos hd, hspan]
            · rw [Bool.not_eq_true] at hd
              rw [List.cons_append, List.cons_append, splitFraction_point hd,
                splitFraction_point hd]
              rfl
      · rw [List.cons_append, splitFraction_ne hc, splitFraction_ne hc]
        rfl

theorem splitDecimal_over (hcs : NumberOver cs) (h : splitDecimal ds = ⟨ds, [], true⟩) :
    splitDecimal (ds ++ cs) = ⟨ds, cs, true⟩ := by
  have hspan := span_append (hcs.any_head? fun c => isNamePart_of_isDecimalPart) ds
  have hstart : cs.head?.any isNameStart = false :=
    hcs.any_head? fun c => isNamePart_of_isNameStart
  unfold splitDecimal at h ⊢
  simp only [NumberSplit.mk.injEq] at h
  rw [hspan]
  simp only [splitFraction_over hcs h.2.1, splitExponent_over hcs h.2.1, h.1, hstart]
  rfl

/-- All digits of a radix are split off in front of a text before which numbers are over. -/
theorem splitRadix_over {radix : Nat} {mark : List Char} (hcs : NumberOver cs)
    (h : splitRadix radix mark ds = ⟨mark ++ ds, [], true⟩) :
    splitRadix radix mark (ds ++ cs) = ⟨mark ++ ds, cs, true⟩ := by
  have hdigit : ∀ c, (Text.isDigitIn radix c || decide (c = '_')) = true → isNamePart c = true := by
    intro c hc
    rw [Bool.or_eq_true, decide_eq_true_eq] at hc
    rcases hc with hc | rfl
    · exact isNamePart_of_isDigitIn hc
    · decide
  have hafter : cs.head?.any Text.isAlphanumeric = false :=
    hcs.any_head? fun c hc => by rw [isNamePart, hc, Bool.true_or]
  unfold splitRadix at h ⊢
  rw [span_append (hcs.any_head? hdigit)]
  simp only [NumberSplit.mk.injEq, List.append_cancel_left_eq] at h
  simp only [h.1, h.2.1, List.nil_append, hafter]
  simp only [h.1, h.2.1, Bool.and_eq_true] at h
  simp [h.2.2.1]

theorem radix?_eq_none (h : isNamePart c = false) : radix? c = none := by
  have hpart : ∀ d ∈ ['x', 'X', 'b', 'B', 'o', 'O'], isNamePart d = true := by
    intro d hd
    simp only [List.mem_cons, List.not_mem_nil, or_false] at hd
    rcases hd with rfl | rfl | rfl | rfl | rfl | rfl <;> decide
  have hletter : ∀ d ∈ ['x', 'X', 'b', 'B', 'o', 'O'], c ≠ d := by
    rintro d hd rfl
    rw [hpart c hd] at h
    cases h
  simp only [List.mem_cons, List.not_mem_nil, or_false, forall_eq_or_imp, forall_eq] at hletter
  simp [radix?, hletter]

theorem splitNumber_eq_splitDecimal (h : ∀ c ds, cs = '0' :: c :: ds → radix? c = none) :
    splitNumber cs = splitDecimal cs := by
  unfold splitNumber
  split
  · rename_i c ds
    rw [h c ds rfl]
  · rfl

/-- A number that is over is read as it is by itself. -/
theorem splitNumber_over {raw : List Char} (hcs : NumberOver cs)
    (h : splitNumber raw = ⟨raw, [], true⟩) : splitNumber (raw ++ cs) = ⟨raw, cs, true⟩ := by
  by_cases hradix : ∃ c radix ds, raw = '0' :: c :: ds ∧ radix? c = some radix
  · rcases hradix with ⟨c, radix, ds, rfl, hc⟩
    have hsplit : ∀ ds, splitNumber ('0' :: c :: ds) = splitRadix radix ['0', c] ds := by
      intro ds
      rw [splitNumber, hc]
    rw [hsplit] at h
    rw [List.cons_append, List.cons_append, hsplit]
    exact splitRadix_over hcs h
  · -- No radix is announced, neither in the number nor by what follows it.
    have hraw : ∀ c ds, raw = '0' :: c :: ds → radix? c = none := by
      intro c ds heq
      cases hc : radix? c with
      | none => rfl
      | some radix => exact absurd ⟨c, radix, ds, heq, hc⟩ hradix
    have hlong : ∀ c ds, raw ++ cs = '0' :: c :: ds → radix? c = none := by
      intro c ds heq
      cases raw with
      | nil =>
          rw [List.nil_append] at heq
          have hpart := hcs.1
          rw [heq] at hpart
          cases hpart
      | cons d raw =>
          cases raw with
          | nil =>
              cases heq
              exact radix?_eq_none hcs.1
          | cons e raw =>
              cases heq
              exact hraw _ _ rfl
    rw [splitNumber_eq_splitDecimal hraw] at h
    rw [splitNumber_eq_splitDecimal hlong]
    exact splitDecimal_over hcs h

/-! ### Tokens that something follows -/

/-- A name, a number or a string literal that makes up a whole text is the same token before
    a text at which it is over, in either mode. -/
theorem scanToken_over {raw : List Char} {p : Position} {t : Token} {after : Cursor}
    (h : scanToken false raw p = (.ok t, after)) (hafter : after.rest = [])
    (hproper : t.kind ≠ .newline ∧ t.kind ≠ .endOfInput ∧ t.kind ∉ Kind.symbols.map Prod.snd)
    (hname : raw.head?.any isNameStart = true →
      NameOver sizeMode cs ∧ (sizeMode = true → '-' ∉ raw))
    (hnumber : raw.head?.any Char.isDigit = true → NumberOver cs) :
    scanToken sizeMode (raw ++ cs) p = (.ok t, ⟨cs, after.here⟩) := by
  -- Each kind of token ends before `cs` as it ends before nothing.
  cases scansAs_of_scanToken h with
  | endOfInput => exact absurd rfl hproper.2.1
  | newline => exact absurd rfl hproper.1
  | @string quote raw text _ hquote hstring =>
      rcases scanString_used hstring with ⟨used, hraw, hhere, hread⟩
      rw [hafter, List.append_nil] at hraw
      subst hraw
      have hlong := hread p none cs (p.advance quote) rfl
      rw [← hhere] at hlong
      exact scanToken_of_scansAs (.string hquote hlong)
  | @number c raw hdigit hformed =>
      have hsplit := splitNumber_append (c :: raw)
      simp only at hafter
      rw [hafter, List.append_nil] at hsplit
      have hwhole : splitNumber (c :: raw) = ⟨c :: raw, [], true⟩ := by
        rw [← hafter, ← hformed, NumberSplit.mk.injEq]
        exact ⟨hsplit, rfl, rfl⟩
      have hlong := splitNumber_over (hnumber hdigit) hwhole
      have hscans : ScansAs sizeMode p (c :: (raw ++ cs)) _ _ :=
        .number hdigit (by rw [← List.cons_append, hlong])
      rw [← List.cons_append, hlong] at hscans
      rw [hwhole]
      exact scanToken_of_scansAs hscans
  | @word c raw hstart =>
      have hsplit := splitWord_append false (c :: raw)
      simp only at hafter
      rw [hafter, List.append_nil] at hsplit
      have hwhole : splitWord false (c :: raw) = (c :: raw, []) := Prod.ext hsplit hafter
      have hmode : splitWord sizeMode (c :: raw) = (c :: raw, []) := by
        cases sizeMode with
        | false => exact hwhole
        | true => exact IsName.whole_of_no_dash ⟨hstart, hwhole⟩ ((hname hstart).2 rfl)
      have hlong := splitWord_over hmode (hname hstart).1
      have hscans : ScansAs sizeMode p (c :: (raw ++ cs)) _ _ := .word hstart
      rw [← List.cons_append, hlong] at hscans
      rw [hwhole]
      exact scanToken_of_scansAs hscans
  | symbol hsymbol =>
      exact absurd (List.mem_map_of_mem (mem_of_symbol? hsymbol).1) hproper.2.2

/-- A symbol is read in either mode. -/
theorem next_either {lx mx : Lexer} {t : Token} (h : lx.next = (.ok t, mx))
    (hmode : lx.sizeMode = false) (hkind : t.kind ∈ Kind.symbols.map Prod.snd) :
    ({ lx with sizeMode := true } : Lexer).next = (.ok t, { mx with sizeMode := true }) := by
  rw [next_eq, Prod.mk.injEq, hmode] at h
  rcases h with ⟨hresult, rfl⟩
  have hscan : scanToken true lx.tokenStart.rest lx.tokenStart.here =
      scanToken false lx.tokenStart.rest lx.tokenStart.here := by
    rcases scanToken_mode lx.tokenStart.rest lx.tokenStart.here with hsame | ⟨c, cs, hrest, hname⟩
    · exact hsame
    · -- A name is no symbol.
      rw [hrest, scanToken_word hname] at hresult
      cases hresult
      have hapart : ∀ kind ∈ Kind.identifier :: Kind.reserved.map Prod.snd,
          kind ∉ Kind.symbols.map Prod.snd := by decide
      exact absurd hkind (hapart _ (ofWord_mem _))
  have hstart : ({ lx with sizeMode := true } : Lexer).tokenStart = lx.tokenStart := rfl
  rw [next_eq, hstart]
  simp only [hscan, hresult]

/-- The lexer of a text behind some part of it, in a mode. -/
def reading (sizeMode : Bool) (source : String) (before rest : List Char) : Lexer :=
  ⟨source, ⟨rest, Position.after before⟩, sizeMode⟩

theorem same_blank (hblank : Text.isBlank c = true) (hline : c ≠ '\n') (source : String)
    (before cs : List Char) :
    (reading sizeMode source before (c :: cs)).Same
      (reading sizeMode source (before ++ [c]) cs) := by
  refine ⟨rfl, rfl, ?_⟩
  have hgap : IsGap [c] := List.forall_mem_singleton.2 ⟨hblank, hline⟩
  have hskip : skipBlank false false ([c] ++ cs) (Position.after before) = _ :=
    skipBlank_gap hgap _
  simpa [tokenStart, reading, Position.after] using hskip

end Lexer

/-! ### Pieces -/

/-- A word, and the mode that it is read in. A word without a mode is read in either. -/
structure Piece where
  word : Word
  mode : Option Bool

namespace Piece

/-- A word that is read in either mode. -/
def fixed (word : Word) : Piece := ⟨word, none⟩

/-- A word that is its own text, in either mode. -/
def mark (kind : Kind) (text : String) : Piece := fixed (.verbatim kind text)

/-- A name, which is read in one mode. -/
def name (sizeMode : Bool) (name : String) : Piece :=
  ⟨.verbatim (Kind.ofWord name) name, some sizeMode⟩

/-- What the end of a text counts as. -/
def finish : Piece := fixed .finish

/-- The kind of the token that a piece is read as. -/
def kind (p : Piece) : Kind := p.word.kind

@[simp] theorem kind_fixed (word : Word) : (fixed word).kind = word.kind := rfl

@[simp] theorem kind_mark (kind : Kind) (text : String) : (mark kind text).kind = kind := rfl

@[simp] theorem kind_name (sizeMode : Bool) (text : String) :
    (name sizeMode text).kind = Kind.ofWord text := rfl

/-- A piece can be read in a mode. -/
def Suits (p : Piece) (sizeMode : Bool) : Prop := ∀ mode ∈ p.mode, mode = sizeMode

theorem suits_fixed (word : Word) (sizeMode : Bool) : (fixed word).Suits sizeMode :=
  fun _ h => by cases h

theorem suits_mark (kind : Kind) (text : String) (sizeMode : Bool) :
    (mark kind text).Suits sizeMode := suits_fixed _ _

theorem suits_name (sizeMode : Bool) (text : String) : (name sizeMode text).Suits sizeMode :=
  fun _ h => by cases h; rfl

theorem exists_suits (p : Piece) : ∃ sizeMode, p.Suits sizeMode := by
  rcases p with ⟨word, _ | mode⟩
  · exact ⟨false, suits_fixed word false⟩
  · exact ⟨mode, fun _ h => by cases h; rfl⟩

/-- Before some text a piece is read as one token, in every mode that suits it. -/
structure IsRead (p : Piece) (rest : List Char) : Prop where
  proper : p.kind ≠ .endOfInput
  next : ∀ sizeMode, p.Suits sizeMode → ∀ source before,
    (Lexer.reading sizeMode source before (p.word.spelling ++ rest)).next =
      (.ok (p.word.token before), Lexer.reading sizeMode source (before ++ p.word.spelling) rest)

end Piece

/-- Symbols are read in either mode. -/
theorem Word.IsRead.either {w : Word} {rest : List Char} (h : w.IsRead rest)
    (hkind : w.kind ∈ Kind.symbols.map Prod.snd) : (Piece.fixed w).IsRead rest where
  proper := h.proper
  next sizeMode _ source before := by
    cases sizeMode with
    | false => exact h.next source before
    | true => exact Lexer.next_either (h.next source before) rfl hkind

namespace Lexer

variable {cs : List Char} {w : Word}

/-- A lexeme is read before a text at which it is over. -/
theorem IsLexeme.isRead_over {mode : Option Bool} (h : IsLexeme w)
    (hname : ∀ sizeMode, (⟨w, mode⟩ : Piece).Suits sizeMode →
      w.spelling.head?.any isNameStart = true →
        NameOver sizeMode cs ∧ (sizeMode = true → '-' ∉ w.spelling))
    (hnumber : w.spelling.head?.any Char.isDigit = true → NumberOver cs) :
    (⟨w, mode⟩ : Piece).IsRead cs where
  proper := h.proper.2.1
  next sizeMode hsuits source before := by
    -- A lexeme has no white space in front of it.
    have hstart : (reading sizeMode source before (w.spelling ++ cs)).tokenStart =
        ⟨w.spelling ++ cs, Position.after before⟩ := by
      cases hspelling : w.spelling with
      | nil =>
          have hstarts := h.starts
          rw [hspelling] at hstarts
          cases hstarts
      | cons c ds =>
          have hstarts := h.starts
          rw [hspelling] at hstarts
          exact skipBlank_opensWord hstarts _ _
    have hscan := scanToken_over (h.scanned (Position.after before)) rfl h.proper
      (hname sizeMode hsuits) hnumber
    have hafter : (Position.after before).advanceAll w.spelling =
        Position.after (before ++ w.spelling) := (Position.advanceAll_append _ _ _).symm
    rw [next_eq, hstart]
    simp only [reading, hscan, hafter]
    rfl

/-- A name is read before a text at which it is over. In size mode it has to be one without
    dashes. -/
theorem isRead_name {name : String} {sizeMode : Bool} (h : IsName name.toList)
    (hdash : sizeMode = true → '-' ∉ name.toList) (hcs : NameOver sizeMode cs) :
    (Piece.name sizeMode name).IsRead cs := by
  refine (isLexeme_name h).isRead_over (fun mode hmode _ => ?_) fun hdigit => ?_
  · rw [← hmode sizeMode rfl]
    exact ⟨hcs, hdash⟩
  · rcases hchars : name.toList with _ | ⟨c, ds⟩
    · rw [Word.verbatim_spelling, hchars] at hdigit
      cases hdigit
    · have hstart := h.start
      rw [hchars] at hstart
      rw [Word.verbatim_spelling, hchars] at hdigit
      exact absurd hdigit (by simpa using isDigit_of_isNameStart hstart)

/-- A literal is read where words are over. -/
theorem IsLexeme.isRead_fixed (h : IsLexeme w)
    (hdash : w.spelling.head?.any isNameStart = true → '-' ∉ w.spelling) (hcs : Over cs) :
    (Piece.fixed w).IsRead cs :=
  h.isRead_over (fun sizeMode _ hname => ⟨hcs.nameOver sizeMode, fun _ => hdash hname⟩)
    fun _ => hcs.number

/-! ### Legible texts -/

/-- A text is read as some pieces, the last of which is its end, with white space before
    each or none. -/
inductive Legible : List Char → List Piece → Prop
  | finish : Legible [] [.finish]
  | blank {c : Char} {cs : List Char} {ps : List Piece} :
    Text.isBlank c = true → c ≠ '\n' → Legible cs ps → Legible (c :: cs) ps
  | piece {p : Piece} {cs : List Char} {ps : List Piece} :
    p.IsRead cs → Legible cs ps → Legible (p.word.spelling ++ cs) (p :: ps)

theorem Legible.space {ps : List Piece} (h : Legible cs ps) : Legible (' ' :: cs) ps :=
  .blank (by decide) (by decide) h

theorem Legible.mark {ps : List Piece} {text : String} {kind : Kind}
    (h : (Word.verbatim kind text).IsRead cs) (hkind : kind ∈ Kind.symbols.map Prod.snd)
    (hcs : Legible cs ps) : Legible (text.toList ++ cs) (.mark kind text :: ps) :=
  .piece (p := .mark kind text) (h.either hkind) hcs

/-- A text has no more pieces than characters, apart from its end. -/
theorem Legible.length_le {ps : List Piece} (h : Legible cs ps) : ps.length ≤ cs.length + 1 := by
  induction h with
  | finish => exact Nat.le_refl _
  | blank _ _ _ ih => exact Nat.le_succ_of_le ih
  | @piece p cs ps hread _ ih =>
      rcases p.exists_suits with ⟨sizeMode, hsuits⟩
      have hend : (p.word.token []).isEnd = false := decide_eq_false hread.proper
      have hshorter : cs.length < (p.word.spelling ++ cs).length :=
        next_shorter (hread.next sizeMode hsuits "" []) hend
      rw [List.length_cons]
      omega

/-- A text is read as pieces wherever names and numbers are over behind it. -/
def Prints (text : List Char) (ps : List Piece) : Prop :=
  ∀ cs us, Over cs → Legible cs us → Legible (text ++ cs) (ps ++ us)

end Lexer

end PolyScript
