import Mathlib.Data.List.Forall2
import Mathlib.Data.List.TakeWhile
import PolyScript.Proofs.Cursors
import PolyScript.Proofs.Header
import PolyScript.Tree.Source

/-!
# Texts Put Together From Words

What a text is read as that was written word by word. A word is known by what its token
will be, apart from the place: a kind, a text and a spelling. A text reads as some words
if these are the tokens of whatever it is put in front of, as long as that begins with a
character at which a name or a number is over. Texts that are joined by such characters
then read as their words, joined.

Names and numbers are the words that could run into what follows them, so what ends them
is the only condition that is ever put on the rest of a text. A string literal is over at
its quote.

## Main definitions

* `Word`: What a token is, apart from its place.
* `Word.IsRead`: Before some text a word is read as one token.
* `Lexer.Row`: A text begins with words in a row.
* `Lexer.Breaks`: A text at which names and numbers are over.
* `Lexer.Reads`: A text is read as some words.

## Theorems

* `Lexer.Row.eager`: The tokens of a text that is a row of words.
* `Lexer.splitNumber_append`: A number reaches no further in a longer text.
* `Lexer.scanString_append`: A string literal is read the same wherever it stands.
* `Lexer.Reads.join`: Texts with commas between them.
-/

namespace PolyScript

/-- What a token is, apart from its place: its kind, its text and its spelling. -/
structure Word where
  kind : Kind
  text : String
  spelling : List Char
  deriving Inhabited

namespace Word

/-- A word whose text is its spelling. -/
def verbatim (kind : Kind) (text : String) : Word := ⟨kind, text, text.toList⟩

@[simp] theorem verbatim_kind (kind : Kind) (text : String) :
    (verbatim kind text).kind = kind := rfl

@[simp] theorem verbatim_spelling (kind : Kind) (text : String) :
    (verbatim kind text).spelling = text.toList := rfl

/-- What the end of a text counts as. -/
def finish : Word := ⟨.endOfInput, "", []⟩

/-- The token of a word behind some text. -/
def token (w : Word) (before : List Char) : Token :=
  ⟨w.kind, w.text, Position.after before, (Position.after (before ++ w.spelling)).offset⟩

/-- A token of a text is a word. -/
structure Names (source : String) (w : Word) (t : Token) : Prop where
  kind : t.kind = w.kind
  text : t.text = w.text
  slice : Text.slice source t.position.offset t.stop = String.ofList w.spelling

theorem names_token (w : Word) {source : String} {before rest : List Char}
    (h : source.toList = before ++ w.spelling ++ rest) : w.Names source (w.token before) where
  kind := rfl
  text := rfl
  slice := by
    simp only [token, Position.offset_after]
    exact Text.slice_eq h

/-- Before some text a word is read as one token. -/
structure IsRead (w : Word) (rest : List Char) : Prop where
  proper : w.kind ≠ .endOfInput
  next : ∀ source before, (Lexer.inside source before (w.spelling ++ rest)).next =
    (.ok (w.token before), Lexer.inside source (before ++ w.spelling) rest)

end Word

namespace Lexer

theorem Spells.isRead {text : String} {kind : Kind} {rest : List Char}
    (h : Spells text.toList kind rest) (hkind : kind ≠ .endOfInput) :
    (Word.verbatim kind text).IsRead rest where
  proper := hkind
  next source before := by
    have hgap : IsGap [] := List.forall_mem_nil _
    have hnext := next_inside hgap h source before
    simpa [Word.verbatim, Word.token, spelled] using hnext

/-! ### Rows of words -/

/-- A text begins with words in a row, with white space before each or none, and goes on
    with another text. -/
inductive Row : List Char → List Word → List Char → Prop
  | done (cs : List Char) : Row cs [] cs
  | blank {c : Char} {cs rest : List Char} {ws : List Word} :
    Text.isBlank c = true → c ≠ '\n' → Row cs ws rest → Row (c :: cs) ws rest
  | word {w : Word} {cs rest : List Char} {ws : List Word} :
    w.IsRead cs → Row cs ws rest → Row (w.spelling ++ cs) (w :: ws) rest

theorem Row.append {cs ds rest : List Char} {vs ws : List Word} (h : Row cs vs ds)
    (h' : Row ds ws rest) : Row cs (vs ++ ws) rest := by
  induction h with
  | done => exact h'
  | blank hblank hline _ ih => exact .blank hblank hline (ih h')
  | word hword _ ih => exact .word hword (ih h')

/-- One space before a row. -/
theorem Row.space {cs rest : List Char} {ws : List Word} (h : Row cs ws rest) :
    Row (' ' :: cs) ws rest := .blank (by decide) (by decide) h

theorem next_blank {c : Char} (hblank : Text.isBlank c = true) (hline : c ≠ '\n')
    (source : String) (before cs : List Char) :
    (inside source before (c :: cs)).next = (inside source (before ++ [c]) cs).next := by
  have hstart : (inside source before (c :: cs)).tokenStart =
      (inside source (before ++ [c]) cs).tokenStart := by
    have hgap : IsGap [c] := List.forall_mem_singleton.2 ⟨hblank, hline⟩
    have hskip : skipBlank false false ([c] ++ cs) (Position.after before) = _ :=
      skipBlank_gap hgap _
    rw [tokenStart, tokenStart, inside, inside]
    simpa [Position.after] using hskip
  rw [next_eq, next_eq, hstart]
  rfl

/-- The tokens of a text that is a row of words are these words, and the end. -/
theorem Row.eager {cs : List Char} {ws : List Word} (h : Row cs ws []) {source : String}
    {before : List Char} (hsource : source.toList = before ++ cs) {n : Nat} (hn : cs.length < n) :
    ∃ ts, (inside source before cs).eagerWithin n = (ts, none) ∧
      List.Forall₂ (Word.Names source) (ws ++ [.finish]) ts := by
  -- the induction is on the row, whose last index has to be a variable for it
  generalize hrest : ([] : List Char) = rest at h
  induction h generalizing before n with
  | done =>
      subst hrest
      obtain ⟨n, rfl⟩ : ∃ k, n = k + 1 := ⟨n - 1, by omega⟩
      refine ⟨[Word.finish.token before], ?_, .cons ?_ .nil⟩
      · simp [eagerWithin, next, inside, skipBlank, scanToken, Token.isEnd, Token.endAt,
          Word.finish, Word.token]
      · have hwhole : source.toList = before ++ Word.finish.spelling ++ [] := by
          simpa [Word.finish] using hsource
        exact Word.finish.names_token hwhole
  | @blank c cs _ ws hblank hline _ ih =>
      have hbehind : source.toList = before ++ [c] ++ cs := by simp [hsource]
      rcases ih hbehind (Nat.lt_of_succ_lt hn) hrest with ⟨ts, htokens, hnames⟩
      refine ⟨ts, ?_, hnames⟩
      rw [← htokens]
      cases n with
      | zero => rfl
      | succ n => rw [eagerWithin, eagerWithin, next_blank hblank hline]
  | @word w cs _ ws hword _ ih =>
      obtain ⟨n, rfl⟩ : ∃ k, n = k + 1 := ⟨n - 1, by omega⟩
      have hend : (w.token before).isEnd = false := decide_eq_false hword.proper
      have hnext := hword.next source before
      have hshorter : cs.length < (w.spelling ++ cs).length := next_shorter hnext hend
      have hfuel : cs.length < n := by omega
      have hbehind : source.toList = before ++ w.spelling ++ cs := by
        rw [hsource, List.append_assoc]
      rcases ih hbehind hfuel hrest with ⟨ts, htokens, hnames⟩
      refine ⟨w.token before :: ts, ?_, .cons ?_ hnames⟩
      · rw [eagerWithin, hnext]
        simp only [hend, Bool.false_eq_true, if_false, htokens]
      · exact w.names_token hbehind

/-- A text has no more words than characters. -/
theorem Row.length_le {cs : List Char} {ws : List Word} (h : Row cs ws []) :
    ws.length ≤ cs.length := by
  have hsource : (String.ofList cs).toList = [] ++ cs := String.toList_ofList
  rcases h.eager hsource (Nat.lt_succ_self _) with ⟨ts, htokens, hnames⟩
  have hbound := length_eagerWithin_le (cs.length + 1) (inside (String.ofList cs) [] cs)
  have hlength := hnames.length_eq
  rw [htokens] at hbound
  rw [List.length_append, List.length_singleton] at hlength
  exact Nat.le_of_succ_le_succ (Nat.le_trans (Nat.le_of_eq hlength) hbound)

/-! ### Names, numbers and strings -/

/-- A character that begins a name, a number or a string literal. -/
def opensWord (c : Char) : Bool := c = '"' || c = '\'' || c.isDigit || isNameStart c

theorem isBlank_of_isDigit {c : Char} (h : c.isDigit = true) : Text.isBlank c = false := by
  have hdigit : 48 ≤ c.toNat ∧ c.toNat ≤ 57 := by
    simp only [Char.isDigit, Bool.and_eq_true, decide_eq_true_eq] at h
    exact h
  have hspace : c ≠ ' ' := by
    rintro rfl
    cases h
  have hcontrol : ¬c.toNat ≤ 0xd := by omega
  rw [Text.isBlank, if_pos (by omega)]
  simp [hspace, hcontrol]

/-- In front of a character that may open a word there is nothing to skip. -/
theorem skipBlank_opensWord {c : Char} (h : opensWord c = true) (cs : List Char) (p : Position) :
    skipBlank false false (c :: cs) p = ⟨c :: cs, p⟩ := by
  have hproper : Text.isBlank c = false ∧ c ≠ '#' ∧ c ≠ '/' := by
    simp only [opensWord, isNameStart, Bool.or_eq_true, decide_eq_true_eq] at h
    rcases h with ((rfl | rfl) | hdigit) | hletter | rfl
    · decide
    · decide
    · refine ⟨isBlank_of_isDigit hdigit, ?_, ?_⟩ <;>
        · rintro rfl
          cases hdigit
    · refine ⟨Text.isBlank_of_isAlphabetic hletter, ?_, ?_⟩ <;>
        · rintro rfl
          revert hletter
          decide
    · decide
  rw [skipBlank, hproper.1, startsComment_cons]
  simp [hproper.2.1, hproper.2.2]

/-- A name, a number or a string literal that is read as one token wherever it stands by
    itself. -/
structure IsLexeme (w : Word) : Prop where
  starts : w.spelling.head?.any opensWord = true
  scanned : ∀ p, scanToken false w.spelling p =
    (.ok ⟨w.kind, w.text, p, (p.advanceAll w.spelling).offset⟩, ⟨[], p.advanceAll w.spelling⟩)
  proper : w.kind ≠ .newline ∧ w.kind ≠ .endOfInput ∧ w.kind ∉ Kind.symbols.map Prod.snd

/-- It is read as that token before any text at which names and numbers are over. -/
theorem IsLexeme.isRead {w : Word} (h : IsLexeme w) {rest : List Char} (hrest : Breaks rest) :
    w.IsRead rest where
  proper := h.proper.2.1
  next source before := by
    -- There is nothing to skip in front of it.
    have hstart : (inside source before (w.spelling ++ rest)).tokenStart =
        ⟨w.spelling ++ rest, Position.after before⟩ := by
      cases hspelling : w.spelling with
      | nil =>
          have hstarts := h.starts
          rw [hspelling] at hstarts
          cases hstarts
      | cons c cs =>
          have hstarts := h.starts
          rw [hspelling] at hstarts
          exact skipBlank_opensWord hstarts _ _
    -- The text behind it is kept out of the token by what breaks.
    have hscan := scanToken_within (δ := ⟨0, 0⟩) hrest (h.scanned (Position.after before))
      ⟨h.proper.1, h.proper.2.1⟩ fun hsymbol => absurd hsymbol h.proper.2.2
    have hafter : (Position.after before).advanceAll w.spelling =
        Position.after (before ++ w.spelling) := (Position.advanceAll_append _ _ _).symm
    change scanToken false (w.spelling ++ rest) (Position.after before) = _ at hscan
    rw [next_eq, hstart]
    simp only [inside, hscan, hafter]
    rfl

/-- A name is read by itself as a token of the kind that its word has. -/
theorem isLexeme_name {name : String} (h : IsName name.toList) :
    IsLexeme (.verbatim (Kind.ofWord name) name) := by
  cases hname : name.toList with
  | nil =>
      rw [hname] at h
      cases h.start
  | cons c cs =>
      rw [hname] at h
      have hstart : isNameStart c = true := h.start
      refine ⟨?_, fun p => ?_, ?_⟩
      · simp [Word.verbatim, hname, opensWord, hstart]
      · simp only [Word.verbatim, hname, scanToken_word hstart, wordToken, h.whole]
        rw [← hname, String.ofList_toList]
      · have hall : ∀ kind ∈ Kind.identifier :: Kind.reserved.map Prod.snd,
            kind ≠ .newline ∧ kind ≠ .endOfInput ∧ kind ∉ Kind.symbols.map Prod.snd := by decide
        exact hall _ (ofWord_mem name)

/-- The reserved words are names too. -/
theorem isName_reserved : ∀ word ∈ Kind.reserved.map Prod.fst, IsName word.toList := by
  decide +kernel

/-- A text that is one number. -/
structure IsNumeral (raw : List Char) : Prop where
  start : raw.head?.any Char.isDigit = true
  whole : splitNumber raw = ⟨raw, [], true⟩

/-- A numeral is read by itself as a token for a number. -/
theorem isLexeme_numeral {raw : String} (h : IsNumeral raw.toList) :
    IsLexeme (.verbatim .number raw) := by
  cases hraw : raw.toList with
  | nil =>
      rw [hraw] at h
      cases h.start
  | cons c cs =>
      rw [hraw] at h
      have hdigit : c.isDigit = true := h.start
      refine ⟨?_, fun p => ?_, ?_⟩
      · simp [Word.verbatim, hraw, opensWord, hdigit]
      · have hscans : ScansAs false p (c :: cs) _ _ := .number hdigit (by rw [h.whole])
        rw [h.whole] at hscans
        simp only [← hraw, String.ofList_toList] at hscans
        exact scanToken_of_scansAs hscans
      · simp only [Word.verbatim]
        decide

/-- A run of decimal digits and underscores that begins with a digit is a number. -/
theorem isNumeral_decimal {raw : List Char} (hstart : raw.head?.any Char.isDigit = true)
    (hall : ∀ c ∈ raw, isDecimalPart c = true) : IsNumeral raw := by
  have hspan : raw.span isDecimalPart = (raw, []) := by
    rw [List.span_eq_takeWhile_dropWhile, List.takeWhile_eq_self_iff.2 hall,
      List.dropWhile_eq_nil_iff.2 hall]
  have hdecimal : splitDecimal raw = ⟨raw, [], true⟩ := by
    rw [splitDecimal, hspan]
    simp [splitFraction, splitExponent]
  refine ⟨hstart, ?_⟩
  unfold splitNumber
  split
  · rename_i c cs
    -- The letters that announce a radix are no decimal digits.
    have hplain : radix? c = none := by
      have hc := hall c (by simp)
      unfold radix?
      split
      · rename_i hx
        rcases hx with rfl | rfl <;> cases hc
      · split
        · rename_i hx
          rcases hx with rfl | rfl <;> cases hc
        · split
          · rename_i hx
            rcases hx with rfl | rfl <;> cases hc
          · rfl
    rw [hplain]
    exact hdecimal
  · exact hdecimal

/-! ### Symbols -/

theorem IsMark.isRead {text : String} {kind : Kind} (h : IsMark text kind) (rest : List Char) :
    (Word.verbatim kind text).IsRead rest :=
  (h.spells rest).isRead (by cases h <;> decide)

/-- Names and numbers are over there. -/
theorem IsMark.breaks {text : String} {kind : Kind} (h : IsMark text kind) (rest : List Char) :
    Breaks (text.toList ++ rest) := by
  cases h <;> exact .mark (by decide)

theorem Row.mark {text : String} {kind : Kind} {cs rest : List Char} {ws : List Word}
    (hmark : IsMark text kind) (h : Row cs ws rest) :
    Row (text.toList ++ cs) (.verbatim kind text :: ws) rest :=
  .word (hmark.isRead cs) h

/-! ### Texts that read as words -/

/-- A text is read as words, in front of whatever ends a name or a number. -/
def Reads (text : List Char) (ws : List Word) : Prop :=
  ∀ rest, Breaks rest → Row (text ++ rest) ws rest

theorem IsLexeme.reads {w : Word} (h : IsLexeme w) : Reads w.spelling [w] :=
  fun _ hrest => .word (h.isRead hrest) (.done _)

/-- A text between brackets. -/
theorem Reads.enclosed {opening closing : String} {o c : Kind} {text : List Char}
    {ws : List Word} (ho : IsMark opening o) (hc : IsMark closing c) (h : Reads text ws) :
    Reads (opening.toList ++ (text ++ closing.toList))
      (.verbatim o opening :: (ws ++ [Word.verbatim c closing])) := by
  intro rest hrest
  have hrow := Row.mark ho ((h _ (hc.breaks rest)).append (.mark hc (.done rest)))
  simpa only [List.append_assoc] using hrow

end Lexer

/-- Words with commas between them. -/
def Word.join : List (List Word) → List Word
  | [] => []
  | [ws] => ws
  | ws :: rest => ws ++ .verbatim .comma "," :: join rest

theorem Word.length_le_join {ws : List Word} {wss : List (List Word)} (h : ws ∈ wss) :
    ws.length ≤ (join wss).length := by
  induction wss with
  | nil => cases h
  | cons first wss ih =>
      cases wss with
      | nil => rw [List.mem_singleton.1 h, join]
      | cons second wss =>
          rw [join, List.length_append, List.length_cons]
          · rcases List.mem_cons.1 h with rfl | hrest
            · exact Nat.le_add_right _ _
            · exact Nat.le_trans (ih hrest) (by omega)
          · exact nofun

namespace Lexer

/-- Texts with commas between them read as their words do. -/
theorem Reads.join {texts : List String} {wss : List (List Word)}
    (h : List.Forall₂ (fun text ws => Reads text.toList ws) texts wss) :
    Reads (SourcePrinter.joinWith ", " texts).toList (Word.join wss) := by
  induction h with
  | nil => exact fun rest _ => .done rest
  | @cons text ws texts wss hfirst hrest ih =>
      cases hrest with
      | nil => exact hfirst
      | @cons second us texts wss hsecond hrest =>
          intro rest hbreaks
          have hcomma : Row (',' :: ' ' :: _) _ rest := .mark .comma (ih rest hbreaks).space
          have hjoined := (hfirst _ (.mark (by decide))).append hcomma
          simpa [SourcePrinter.joinWith, Word.join] using hjoined

theorem reads_map {ξ : Type} {items : List ξ} {text : ξ → String} {words : ξ → List Word}
    (h : ∀ x ∈ items, Reads (text x).toList (words x)) :
    List.Forall₂ (fun text ws => Reads text.toList ws) (items.map text) (items.map words) :=
  List.forall₂_map_left_iff.2 (List.forall₂_map_right_iff.2 (List.forall₂_same.2 h))

end Lexer

end PolyScript
