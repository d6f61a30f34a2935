import PolyScript.Proofs.Alike

/-!
# What a Lexer Will Come To

What lies ahead of a lexer: the tokens it will yield, and whether it ends in an
error. `Lexer.Yields` says so for a lexer that is left alone. A parser does not
leave its lexer alone, because the size of a segment is read in size mode, in
which a dash ends a name. Switching the mode in the middle of a name with dashes
changes the tokens, and yet the end of it all stays the same. `Lexer.Hazy` is the
notion that survives: past the pieces of the name at hand, the lexer will come to
what was foreseen.

The one thing that does not survive is an invalid escape. It is reported at its
backslash, and a parser that reads on from there finds a character that begins no
token.

## Main definitions

* `balance`: How many more brackets are opened than closed by tokens.
* `Lexer.Yields`: The tokens ahead of a lexer, and the error it ends in.
* `Lexer.plain`: A lexer with size mode off.
* `Lexer.Forecast`: What is foretold of a text.
* `Lexer.Clear`: What lies ahead is foreseen.
* `Lexer.Hazy`: The same, but for the pieces of a name.

## Theorems

* `Lexer.exists_yields`, `Lexer.Yields.unique`: What lies ahead is determined.
* `Lexer.Yields.tokenize`: Tokenizing gives what lies ahead.
* `Lexer.scanToken_mode`: The mode makes a difference for names only.
* `Lexer.Hazy.next_ok`, `Lexer.Hazy.next_end`, `Lexer.Hazy.next_error`: Reading on
  in either mode.
-/

namespace PolyScript

theorem Kind.ofWord_shape (word : String) : (Kind.ofWord word).shape = .piece := by
  have hall : ∀ kind ∈ Kind.identifier :: Kind.reserved.map Prod.snd, kind.shape = .piece := by
    decide
  exact hall _ (Lexer.ofWord_mem word)

/-- How many brackets a token opens. One that closes a bracket counts negatively. -/
def Kind.weight (kind : Kind) : Int :=
  match kind.shape with
  | .opener => 1
  | .closer => -1
  | _ => 0

theorem Kind.weight_of_piece {kind : Kind} (h : kind.shape = .piece) : kind.weight = 0 := by
  rw [weight, h]

/-- How many more brackets are opened than closed by tokens. -/
def balance (ts : List Token) : Int := (ts.map fun t => t.kind.weight).sum

theorem balance_cons (t : Token) (ts : List Token) :
    balance (t :: ts) = t.kind.weight + balance ts := rfl

namespace Text

/-- The code points of letters and those of white space lie apart. -/
theorem ranges_apart :
    ∀ r ∈ blankRanges, ∀ a ∈ alphabeticRanges, r.2 < a.1 ∨ a.2 < r.1 := by
  -- There are several hundred ranges of letters, which are faster to compare as numbers
  -- than to decide one by one.
  have hall : (blankRanges.all fun r => alphabeticRanges.all fun a =>
      Nat.blt r.2 a.1 || Nat.blt a.2 r.1) = true := by decide +kernel
  intro r hr a ha
  have hone := List.all_eq_true.1 (List.all_eq_true.1 hall r hr) a ha
  rwa [Bool.or_eq_true, Nat.blt_eq, Nat.blt_eq] at hone

/-- A letter is no white space. -/
theorem isBlank_of_isAlphabetic {c : Char} (h : isAlphabetic c = true) : isBlank c = false := by
  by_contra hblank
  rw [Bool.not_eq_false] at hblank
  unfold isAlphabetic at h
  unfold isBlank at hblank
  split at h
  · rename_i hascii
    rw [if_pos hascii] at hblank
    simp only [Bool.or_eq_true, Bool.and_eq_true, decide_eq_true_eq] at h hblank
    -- In ASCII a blank is a space or a control character, below all letters.
    rcases hblank with rfl | hcontrol
    · revert h
      decide
    · have hlow : ∀ d : Char, d ≤ c → d.toNat ≤ c.toNat := fun d hd => hd
      rcases h with ⟨hge, _⟩ | ⟨hge, _⟩
      · have : 97 ≤ c.toNat := hlow 'a' hge
        omega
      · have : 65 ≤ c.toNat := hlow 'A' hge
        omega
  -- Beyond ASCII the ranges of the two tables do not meet.
  · rename_i hascii
    rw [if_neg hascii] at hblank
    rcases (inRanges_iff _ _).1 h with ⟨a, ha, hlow, hhigh⟩
    rcases (inRanges_iff _ _).1 hblank with ⟨r, hr, hrlow, hrhigh⟩
    rcases ranges_apart r hr a ha with hlt | hlt <;> omega

/-- A digit is no letter. -/
theorem isAlphabetic_of_isDigit {c : Char} (h : c.isDigit = true) : isAlphabetic c = false := by
  have hdigit : 48 ≤ c.toNat ∧ c.toNat ≤ 57 := by
    simp only [Char.isDigit, Bool.and_eq_true, decide_eq_true_eq] at h
    exact h
  have hlow : ∀ d : Char, d ≤ c → d.toNat ≤ c.toNat := fun d hd => hd
  by_contra hletter
  rw [Bool.not_eq_false, isAlphabetic, if_pos (by omega)] at hletter
  simp only [Bool.or_eq_true, Bool.and_eq_true, decide_eq_true_eq] at hletter
  rcases hletter with ⟨hge, _⟩ | ⟨hge, _⟩
  · have : 97 ≤ c.toNat := hlow 'a' hge
    omega
  · have : 65 ≤ c.toNat := hlow 'A' hge
    omega

end Text

namespace Lexer

/-! ### What lies ahead -/

/-- The tokens that a lexer yields before the end of the text, or before an error. -/
inductive Yields : Lexer → List Token → Option LexError → Prop
  | done {lx lx' : Lexer} {t : Token} : lx.next = (.ok t, lx') → t.isEnd = true → Yields lx [] none
  | fail {lx lx' : Lexer} {e : LexError} : lx.next = (.error e, lx') → Yields lx [] (some e)
  | token {lx lx' : Lexer} {t : Token} {ts : List Token} {r : Option LexError} :
    lx.next = (.ok t, lx') → t.isEnd = false → Yields lx' ts r → Yields lx (t :: ts) r

/-- The tokens that a lexer yields are the next one and those that it yields behind it. -/
theorem Yields.of_ok {lx lx' : Lexer} {t : Token} {ts : List Token} {r : Option LexError}
    (h : lx.Yields ts r) (hnext : lx.next = (.ok t, lx')) (hend : t.isEnd = false) :
    ∃ rest, ts = t :: rest ∧ lx'.Yields rest r := by
  cases h with
  | done hlx hdone =>
      cases hlx.symm.trans hnext
      rw [hdone] at hend
      cases hend
  | fail hlx => cases hlx.symm.trans hnext
  | token hlx _ hrest =>
      cases hlx.symm.trans hnext
      exact ⟨_, rfl, hrest⟩

theorem Yields.of_end {lx lx' : Lexer} {t : Token} {ts : List Token} {r : Option LexError}
    (h : lx.Yields ts r) (hnext : lx.next = (.ok t, lx')) (hend : t.isEnd = true) :
    ts = [] ∧ r = none := by
  cases h with
  | done => exact ⟨rfl, rfl⟩
  | fail hlx => cases hlx.symm.trans hnext
  | token hlx hnot _ =>
      cases hlx.symm.trans hnext
      rw [hend] at hnot
      cases hnot

theorem Yields.of_error {lx lx' : Lexer} {e : LexError} {ts : List Token} {r : Option LexError}
    (h : lx.Yields ts r) (hnext : lx.next = (.error e, lx')) : ts = [] ∧ r = some e := by
  cases h with
  | done hlx _ => cases hlx.symm.trans hnext
  | fail hlx =>
      cases hlx.symm.trans hnext
      exact ⟨rfl, rfl⟩
  | token hlx _ _ => cases hlx.symm.trans hnext

/-- What lies ahead of a lexer is determined. -/
theorem Yields.unique {lx : Lexer} {ts us : List Token} {r q : Option LexError}
    (h : lx.Yields ts r) (h' : lx.Yields us q) : ts = us ∧ r = q := by
  induction h generalizing us q with
  | done hnext hend =>
      rcases h'.of_end hnext hend with ⟨rfl, rfl⟩
      exact ⟨rfl, rfl⟩
  | fail hnext =>
      rcases h'.of_error hnext with ⟨rfl, rfl⟩
      exact ⟨rfl, rfl⟩
  | token hnext hend _ ih =>
      rcases h'.of_ok hnext hend with ⟨rest, rfl, hrest⟩
      rcases ih hrest with ⟨rfl, rfl⟩
      exact ⟨rfl, rfl⟩

/-- A token that is not the end takes characters off the text. -/
theorem next_shorter {lx lx' : Lexer} {t : Token} (hnext : lx.next = (.ok t, lx'))
    (hend : t.isEnd = false) : lx'.cursor.rest.length < lx.cursor.rest.length := by
  rw [next_eq, Prod.mk.injEq] at hnext
  rcases hnext with ⟨hresult, rfl⟩
  rcases scanToken_ok (Prod.ext hresult rfl) with ⟨_, _, hiff, _, hshort⟩
  refine Nat.lt_of_lt_of_le (hshort fun hnil => ?_) ?_
  · rw [hiff.2 hnil] at hend
    cases hend
  · exact (cursor_leads_tokenStart lx).length_le

/-- Every lexer comes to an end. -/
theorem exists_yields (lx : Lexer) : ∃ ts r, lx.Yields ts r := by
  induction hlength : lx.cursor.rest.length using Nat.strongRecOn generalizing lx with
  | ind n ih =>
      cases hnext : lx.next with
      | mk result lx' =>
      cases result with
      | error e => exact ⟨[], some e, .fail hnext⟩
      | ok t =>
          by_cases hend : t.isEnd = true
          · exact ⟨[], none, .done hnext hend⟩
          · rw [Bool.not_eq_true] at hend
            have hshorter := next_shorter hnext hend
            rcases ih _ (by omega) lx' rfl with ⟨ts, r, hrest⟩
            exact ⟨t :: ts, r, .token hnext hend hrest⟩

/-- Tokenizing gives what lies ahead, with the end of the text behind it, or the error
    that lies ahead. -/
theorem Yields.tokenizeWithin {lx : Lexer} {ts : List Token} {r : Option LexError}
    (h : lx.Yields ts r) {n : Nat} (hn : lx.cursor.rest.length < n) :
    match r with
    | none => ∃ t, t.isEnd = true ∧ lx.tokenizeWithin n = .ok (ts ++ [t])
    | some e => lx.tokenizeWithin n = .error e := by
  -- By induction on what is ahead. There are more rounds than characters, so they do not run out.
  induction h generalizing n with
  | @done lx lx' t hnext hend =>
      cases n with
      | zero => omega
      | succ n => exact ⟨t, hend, by rw [Lexer.tokenizeWithin, hnext]; simp [hend]⟩
  | fail hnext =>
      cases n with
      | zero => omega
      | succ n => rw [Lexer.tokenizeWithin, hnext]
  | @token lx lx' t ts r hnext hend _ ih =>
      cases n with
      | zero => omega
      | succ n =>
          have hrest := ih (n := n) (by have := next_shorter hnext hend; omega)
          rw [Lexer.tokenizeWithin, hnext]
          cases r with
          | none =>
              rcases hrest with ⟨u, hu, hrest⟩
              exact ⟨u, hu, by simp [hend, hrest]⟩
          | some e => simp only [hend, hrest, Bool.false_eq_true, if_false]

theorem Yields.tokenize {lx : Lexer} {ts : List Token} {r : Option LexError}
    (h : lx.Yields ts r) :
    match r with
    | none => ∃ t, t.isEnd = true ∧ lx.tokenize = .ok (ts ++ [t])
    | some e => lx.tokenize = .error e := h.tokenizeWithin (Nat.lt_succ_self _)

/-- The text is a text that the lexer stands in. -/
def Within (source : String) (lx : Lexer) : Prop :=
  lx.source = source ∧ lx.cursor.Stands source.toList

theorem Within.next_ok {source : String} {lx lx' : Lexer} {t : Token} (h : lx.Within source)
    (hnext : lx.next = (.ok t, lx')) : lx'.Within source := by
  rcases Lexer.next_ok hnext with ⟨hlx, _, _, hleads, _⟩
  refine ⟨by rw [hlx]; exact h.1, ?_⟩
  exact ((cursor_leads_tokenStart lx).trans hleads).stands h.2

/-- An error stands no earlier than the lexer that comes to it. -/
theorem Yields.error_behind {source : String} {lx : Lexer} {ts : List Token} {r : Option LexError}
    (h : lx.Yields ts r) (hwithin : lx.Within source) {e : LexError} (he : r = some e) :
    lx.location.offset ≤ e.position.offset := by
  induction h with
  | done => cases he
  | fail hnext =>
      cases he
      exact (error_place hnext hwithin.2).2
  | token hnext hend _ ih =>
      rcases Lexer.next_ok hnext with ⟨_, _, _, hleads, _⟩
      have hle := ((cursor_leads_tokenStart _).trans hleads).offset_le
      exact Nat.le_trans hle (ih (hwithin.next_ok hnext) he)

/-! ### The mode -/

/-- The lexer with size mode off. -/
def plain (lx : Lexer) : Lexer := { lx with sizeMode := false }

theorem Within.plain {source : String} {lx : Lexer} (h : lx.Within source) :
    lx.plain.Within source := h

theorem splitWord_part {c : Char} (h : isNamePart c = true) (sizeMode : Bool) (cs : List Char) :
    splitWord sizeMode (c :: cs) = (c :: (splitWord sizeMode cs).1, (splitWord sizeMode cs).2) := by
  rw [splitWord, h]
  rfl

theorem splitWord_dash {c : Char} (h : Text.isAlphabetic c = true) (cs : List Char) :
    splitWord false ('-' :: c :: cs) =
      ('-' :: (splitWord false (c :: cs)).1, (splitWord false (c :: cs)).2) := by
  rw [splitWord]
  simp [h]

/-- A character that continues no name ends one. A dash is such a character in size
    mode. -/
theorem splitWord_stop {c : Char} (h : isNamePart c = false) {sizeMode : Bool} {cs : List Char}
    (hdash : c = '-' → sizeMode = true ∨ cs.head?.any Text.isAlphabetic = false) :
    splitWord sizeMode (c :: cs) = ([], c :: cs) := by
  rw [splitWord, h]
  by_cases hc : c = '-'
  · rcases hdash hc with hmode | hnext
    · simp [hmode]
    · simp [hnext]
  · simp [hc]

/-- In size mode a name may end at a dash. What is left of it then follows the
    dash. -/
theorem splitWord_mode (cs : List Char) :
    splitWord true cs = splitWord false cs ∨ ∃ c rest, (splitWord true cs).2 = '-' :: c :: rest ∧
      Text.isAlphabetic c = true ∧
      (splitWord false cs).1 = (splitWord true cs).1 ++ '-' :: (splitWord false (c :: rest)).1 ∧
      (splitWord false cs).2 = (splitWord false (c :: rest)).2 := by
  induction cs with
  | nil => exact .inl rfl
  | cons d cs ih =>
      cases hpart : isNamePart d with
      | true =>
          rw [splitWord_part hpart, splitWord_part hpart]
          rcases ih with heq | ⟨c, rest, htail, hc, hword, hrest⟩
          · exact .inl (by rw [heq])
          · exact .inr ⟨c, rest, htail, hc, congrArg (d :: ·) hword, hrest⟩
      | false =>
          rw [splitWord_stop hpart fun _ => .inl rfl]
          -- A dash with a letter behind it is where the readings part; everywhere else they
          -- agree.
          by_cases hdash : d = '-' ∧ cs.head?.any Text.isAlphabetic = true
          · rcases hdash with ⟨rfl, hnext⟩
            cases cs with
            | nil => cases hnext
            | cons c rest =>
                rw [splitWord_dash hnext]
                exact .inr ⟨c, rest, rfl, hnext, rfl, rfl⟩
          · rw [splitWord_stop hpart fun hd => .inr ?_]
            · exact .inl rfl
            · simpa [hd] using hdash

/-- The token that a name makes, and where it ends. -/
def wordToken (sizeMode : Bool) (cs : List Char) (start : Position) : Token × Cursor :=
  let after : Cursor := ⟨(splitWord sizeMode cs).2, start.advanceAll (splitWord sizeMode cs).1⟩
  let name := String.ofList (splitWord sizeMode cs).1
  (⟨Kind.ofWord name, name, start, after.here.offset⟩, after)

theorem isDigit_of_isNameStart {c : Char} (h : isNameStart c = true) : c.isDigit = false := by
  by_contra hdigit
  rw [Bool.not_eq_false] at hdigit
  rw [isNameStart, Text.isAlphabetic_of_isDigit hdigit, Bool.false_or, decide_eq_true_eq] at h
  subst h
  cases hdigit

theorem scanToken_word {c : Char} (hname : isNameStart c = true) (sizeMode : Bool)
    (cs : List Char) (start : Position) :
    scanToken sizeMode (c :: cs) start =
      (.ok (wordToken sizeMode (c :: cs) start).1, (wordToken sizeMode (c :: cs) start).2) := by
  have hdistinct : ¬c = '\n' ∧ ¬(c = '"' ∨ c = '\'') ∧ ¬c.isDigit = true := by
    refine ⟨?_, ?_, by simp [isDigit_of_isNameStart hname]⟩
    · rintro rfl
      revert hname
      decide
    · rintro (rfl | rfl) <;> revert hname <;> decide
  rw [scanToken]
  simp only [hdistinct.1, hdistinct.2.1, hdistinct.2.2, hname, if_true, if_false]
  rfl

/-- A symbol begins with a character that begins no token of another sort. -/
theorem symbol?_start {c : Char} {cs text : List Char} {kind : Kind}
    (h : symbol? (c :: cs) = some (text, kind)) :
    c ≠ '\n' ∧ ¬(c = '"' ∨ c = '\'') ∧ ¬c.isDigit = true ∧ ¬isNameStart c = true := by
  have hall : ∀ s ∈ Kind.symbols, s.1.head?.all fun c =>
      c ≠ '\n' ∧ ¬(c = '"' ∨ c = '\'') ∧ ¬c.isDigit = true ∧ ¬isNameStart c = true := by
    decide
  rcases mem_of_symbol? h with ⟨hmem, happend⟩
  have hfirst := hall _ hmem
  cases text with
  | nil => exact absurd rfl (symbols_proper _ hmem).1
  | cons d text =>
      rw [List.cons_append, List.cons.injEq] at happend
      rw [← happend.1]
      exact of_decide_eq_true hfirst

/-- Characters are scanned as whatever the rules say. No two rules apply to the same first
    character. -/
theorem scanToken_of_scansAs {sizeMode : Bool} {cs : List Char} {start : Position} {t : Token}
    {after : Cursor} (h : ScansAs sizeMode start cs t after) :
    scanToken sizeMode cs start = (.ok t, after) := by
  cases h with
  | endOfInput | newline => rfl
  | @string quote _ _ _ hquote hscan =>
      have hline : ¬quote = '\n' := by rcases hquote with rfl | rfl <;> decide
      simp only [scanToken, if_neg hline, if_pos hquote, hscan]
  | @number c cs hdigit hformed =>
      have hline : ¬c = '\n' := by rintro rfl; cases hdigit
      have hquote : ¬(c = '"' ∨ c = '\'') := by rintro (rfl | rfl) <;> cases hdigit
      simp only [scanToken, if_neg hline, if_neg hquote, if_pos hdigit, if_pos hformed]
  | word hname => exact scanToken_word hname sizeMode _ start
  | symbol hsymbol =>
      rcases symbol?_start hsymbol with ⟨hline, hquote, hdigit, hname⟩
      simp only [scanToken, if_neg hline, if_neg hquote, if_neg hdigit, if_neg hname, hsymbol]

/-- The mode makes a difference for names only. -/
theorem scanToken_mode (cs : List Char) (start : Position) :
    scanToken true cs start = scanToken false cs start ∨
      ∃ c tail, cs = c :: tail ∧ isNameStart c = true := by
  cases cs with
  | nil => exact .inl rfl
  | cons c tail =>
      by_cases hname : isNameStart c = true
      · exact .inr ⟨c, tail, rfl, hname⟩
      · left
        simp only [scanToken, hname, Bool.false_eq_true, if_false]

/-! ### Foreseeing -/

/-- What is foretold of a text. -/
structure Forecast where
  /-- The error that reading it ends in. -/
  error? : Option LexError
  /-- Whether there may be language names ahead. -/
  tongues : Prop
  /-- Whether there may be bit strings ahead. -/
  bits : Prop

/-- What lies ahead of a lexer is foreseen: its end, names of languages and bit strings
    only if there may be any, and how many more brackets are opened than closed. -/
def Clear (w : Forecast) (n : Int) (lx : Lexer) : Prop :=
  ∃ ts, lx.plain.Yields ts w.error? ∧
    (∀ t ∈ ts, (t.kind = .language → w.tongues) ∧ (t.kind = .bitOpen → w.bits)) ∧
    balance ts = n

/-- What lies ahead is foreseen but for the pieces of a name. -/
inductive Hazy (w : Forecast) (n : Int) : Lexer → Prop
  | clear {lx : Lexer} : lx.Clear w n → Hazy w n lx
  | piece {lx lx' : Lexer} {t : Token} : lx.plain.next = (.ok t, lx') → t.kind.shape = .piece →
    Hazy w n lx' → Hazy w n lx

variable {w : Forecast} {n : Int} {lx lx' : Lexer} {t : Token} {e : LexError}

/-- A lexer about which all is known in advance reads a token. What is left is known too, and
    tags and bit strings are where they were announced. -/
theorem Clear.next_ok (h : lx.Clear w n) (hnext : lx.plain.next = (.ok t, lx'))
    (hend : t.isEnd = false) :
    lx'.Clear w (n - t.kind.weight) ∧ (t.kind = .language → w.tongues) ∧
      (t.kind = .bitOpen → w.bits) := by
  rcases h with ⟨ts, hyields, hkinds, hbalance⟩
  rcases hyields.of_ok hnext hend with ⟨rest, rfl, hrest⟩
  have hplain : lx'.plain = lx' := by
    rcases Lexer.next_ok hnext with ⟨hlx, _⟩
    rw [hlx]
    rfl
  refine ⟨⟨rest, by rw [hplain]; exact hrest, fun u hu => ?_, ?_⟩, ?_⟩
  · exact hkinds u (List.mem_cons_of_mem _ hu)
  · rw [balance_cons] at hbalance
    omega
  · exact hkinds t List.mem_cons_self

theorem Hazy.of_plain (h : Hazy w n lx.plain) : Hazy w n lx := by
  cases h with
  | clear h => exact .clear h
  | piece hnext hshape h => exact .piece hnext hshape h

/-- The mode has no part in what is foreseen. -/
theorem Hazy.switched (h : Hazy w n lx) (sizeMode : Bool) :
    Hazy w n { lx with sizeMode } := by
  cases h with
  | clear h => exact .clear h
  | piece hnext hshape h => exact .piece hnext hshape h

theorem isEnd_of_shape (h : t.kind.shape = .piece) : t.isEnd = false := by
  by_contra hend
  have hkind : t.kind = .endOfInput := by simpa [Token.isEnd] using hend
  rw [hkind] at h
  cases h

/-- A token is read. What is left is foreseen with what the token weighs taken off, and with no
    haze if the token is no piece of a name. -/
theorem Hazy.plain_ok (h : Hazy w n lx) (hnext : lx.plain.next = (.ok t, lx'))
    (hend : t.isEnd = false) :
    Hazy w (n - t.kind.weight) lx' ∧ (t.kind = .bitOpen → w.bits) ∧
      (t.kind.shape ≠ .piece → lx'.Clear w (n - t.kind.weight)) := by
  cases h with
  | clear h =>
      rcases h.next_ok hnext hend with ⟨hclear, _, hbits⟩
      exact ⟨.clear hclear, hbits, fun _ => hclear⟩
  | piece hpiece hshape h =>
      cases hpiece.symm.trans hnext
      rw [Kind.weight_of_piece hshape, Int.sub_zero]
      refine ⟨h, fun hkind => ?_, fun hne => absurd hshape hne⟩
      rw [hkind] at hshape
      cases hshape

theorem Hazy.plain_end (h : Hazy w n lx) (hnext : lx.plain.next = (.ok t, lx'))
    (hend : t.isEnd = true) : w.error? = none ∧ n = 0 := by
  cases h with
  | clear h =>
      rcases h with ⟨ts, hyields, _, hbalance⟩
      rcases hyields.of_end hnext hend with ⟨rfl, hnone⟩
      exact ⟨hnone, hbalance.symm⟩
  | piece hpiece hshape h =>
      cases hpiece.symm.trans hnext
      rw [isEnd_of_shape hshape] at hend
      cases hend

theorem Hazy.plain_error (h : Hazy w n lx) (hnext : lx.plain.next = (.error e, lx')) :
    w.error? = some e ∧ n = 0 ∧ lx.Clear w n := by
  cases h with
  | clear h =>
      rcases h with ⟨ts, hyields, hrest, hbalance⟩
      rcases hyields.of_error hnext with ⟨rfl, hsome⟩
      exact ⟨hsome, hbalance.symm, [], hyields, hrest, hbalance⟩
  | piece hpiece hshape h => cases hpiece.symm.trans hnext

/-- A token is sought no further where something stands that is neither white space
    nor a comment. -/
theorem tokenStart_eq {c : Char} {rest : List Char} (hrest : lx.cursor.rest = c :: rest)
    (hblank : Text.isBlank c = false) (hcomment : startsComment (c :: rest) = false) :
    lx.tokenStart = lx.cursor := by
  rw [tokenStart, hrest, skipBlank]
  simp only [hblank, hcomment, Bool.false_and, Bool.false_eq_true, if_false]
  rw [← hrest]

/-- A dash before a letter is a token of its own. -/
theorem next_dash (lx : Lexer) {c : Char} {rest : List Char} (hc : Text.isAlphabetic c = true)
    (hrest : lx.cursor.rest = '-' :: c :: rest) :
    lx.next = (.ok ⟨.minus, "-", lx.cursor.here, (lx.cursor.here.advance '-').offset⟩,
      { lx with cursor := ⟨c :: rest, lx.cursor.here.advance '-'⟩ }) := by
  have harrow : c ≠ '>' := by rintro rfl; revert hc; decide
  have hsymbol : symbol? ('-' :: c :: rest) = some (['-'], .minus) := by
    simp only [symbol?, Kind.symbols]
    simp [List.isPrefixOf, harrow.symm]
  have hstart : lx.tokenStart = lx.cursor := tokenStart_eq hrest (by decide) rfl
  rw [next_eq, hstart, hrest, scanToken, hsymbol]
  rfl

/-- A letter begins a name. -/
theorem next_name {c : Char} {rest : List Char} (hc : Text.isAlphabetic c = true)
    (hrest : lx.cursor.rest = c :: rest) :
    lx.next = (.ok (wordToken lx.sizeMode (c :: rest) lx.cursor.here).1,
      { lx with cursor := (wordToken lx.sizeMode (c :: rest) lx.cursor.here).2 }) := by
  have hcomment : startsComment (c :: rest) = false := by
    unfold startsComment
    split
    · rename_i heq
      cases heq
      revert hc
      decide
    · rename_i heq
      cases heq
      revert hc
      decide
    · rfl
  have hstart : lx.tokenStart = lx.cursor :=
    tokenStart_eq hrest (Text.isBlank_of_isAlphabetic hc) hcomment
  have hname : isNameStart c = true := by rw [isNameStart, hc]; rfl
  rw [next_eq, hstart, hrest, scanToken_word hname]

/-- Nothing but pieces of names is between a lexer and another one, in plain reading. -/
inductive Crosses (mx : Lexer) : Lexer → Prop
  | here {lx : Lexer} : lx.plain = mx → Crosses mx lx
  | piece {lx lx' : Lexer} {t : Token} : lx.plain.next = (.ok t, lx') → t.kind.shape = .piece →
    Crosses mx lx' → Crosses mx lx

theorem Crosses.hazy {mx : Lexer} (h : Crosses mx lx) (hazy : Hazy w n mx) : Hazy w n lx := by
  induction h with
  | here heq => exact .of_plain (heq ▸ hazy)
  | piece hnext hshape _ ih => exact .piece hnext hshape ih

/-- Reading in size mode differs from plain reading only by cutting a name short. -/
theorem next_mode (lx : Lexer) :
    (lx.next.1 = lx.plain.next.1 ∧ lx.next.2.plain = lx.plain.next.2) ∨
      ∃ t lx' u ux, lx.next = (.ok t, lx') ∧ t.kind.shape = .piece ∧
        lx.plain.next = (.ok u, ux) ∧ u.kind.shape = .piece ∧ Crosses ux lx' := by
  cases hmode : lx.sizeMode with
  | false =>
      have hplain : lx.plain = lx := by rw [plain, ← hmode]
      left
      rw [hplain, next_eq]
      exact ⟨rfl, by rw [plain, hmode]⟩
  | true =>
      have hstart : lx.plain.tokenStart = lx.tokenStart := rfl
      rcases scanToken_mode lx.tokenStart.rest lx.tokenStart.here with heq | ⟨c, tail, hcs, hname⟩
      · left
        rw [next_eq, next_eq, hmode, hstart, show lx.plain.sizeMode = false from rfl, heq]
        exact ⟨rfl, rfl⟩
      · right
        have hscan := fun sizeMode => scanToken_word hname sizeMode tail lx.tokenStart.here
        rw [← hcs] at hscan
        refine ⟨_, _, _, _, by rw [next_eq, hmode, hscan], Kind.ofWord_shape _, by
          rw [next_eq, hstart, show lx.plain.sizeMode = false from rfl, hscan], Kind.ofWord_shape _,
          ?_⟩
        rcases splitWord_mode lx.tokenStart.rest with heq | ⟨d, rest, htail, hd, hword, hrest⟩
        · refine .here ?_
          simp only [wordToken, heq]
          rfl
        -- What is left of the name is a dash and another name.
        · refine .piece (next_dash ({ lx with cursor := (wordToken true lx.tokenStart.rest
            lx.tokenStart.here).2 } : Lexer).plain hd htail) rfl ?_
          refine .piece (next_name hd rfl) (Kind.ofWord_shape _) (.here ?_)
          simp only [wordToken, plain, hword, hrest, Position.advanceAll_append]
          rfl

/-- A lexer in size mode reads a token. Only brackets are known in advance there, but behind a
    token that is no piece, out of size mode, everything is known again. -/
theorem Hazy.next_ok (h : Hazy w n lx) (hnext : lx.next = (.ok t, lx'))
    (hend : t.isEnd = false) :
    Hazy w (n - t.kind.weight) lx' ∧ (t.kind = .bitOpen → w.bits) ∧
      (lx.sizeMode = false → t.kind.shape ≠ .piece → lx'.Clear w (n - t.kind.weight)) := by
  rcases next_mode lx with ⟨hresult, hlexer⟩ | ⟨u, ux, v, vx, hsized, hu, hplain, hv, hcrosses⟩
  · have hplain : lx.plain.next = (.ok t, lx'.plain) := by
      rw [hnext] at hresult hlexer
      exact Prod.ext hresult.symm hlexer.symm
    rcases h.plain_ok hplain hend with ⟨hrest, hbits, hclear⟩
    exact ⟨hrest.of_plain, hbits, fun _ => hclear⟩
  · cases hsized.symm.trans hnext
    have hrest := (h.plain_ok hplain (isEnd_of_shape hv)).1
    rw [Kind.weight_of_piece hv, Int.sub_zero] at hrest
    rw [Kind.weight_of_piece hu, Int.sub_zero]
    refine ⟨hcrosses.hazy hrest, fun hkind => ?_, fun _ hne => absurd hu hne⟩
    rw [hkind] at hu
    cases hu

theorem Hazy.next_end (h : Hazy w n lx) (hnext : lx.next = (.ok t, lx'))
    (hend : t.isEnd = true) : w.error? = none ∧ n = 0 := by
  rcases next_mode lx with ⟨hresult, hlexer⟩ | ⟨u, ux, v, vx, hsized, hu, _⟩
  · have hplain : lx.plain.next = (.ok t, lx'.plain) := by
      rw [hnext] at hresult hlexer
      exact Prod.ext hresult.symm hlexer.symm
    exact h.plain_end hplain hend
  · cases hsized.symm.trans hnext
    rw [isEnd_of_shape hu] at hend
    cases hend

theorem Hazy.next_error (h : Hazy w n lx) (hnext : lx.next = (.error e, lx')) :
    w.error? = some e ∧ n = 0 ∧ lx.Clear w n := by
  rcases next_mode lx with ⟨hresult, hlexer⟩ | ⟨u, ux, v, vx, hsized, _⟩
  · have hplain : lx.plain.next = (.error e, lx'.plain) := by
      rw [hnext] at hresult hlexer
      exact Prod.ext hresult.symm hlexer.symm
    exact h.plain_error hplain
  · cases hsized.symm.trans hnext

/-- An error that is foreseen stands no earlier than the lexer. -/
theorem Hazy.error_behind (h : Hazy w n lx) {source : String} (hwithin : lx.Within source)
    (he : w.error? = some e) : lx.location.offset ≤ e.position.offset := by
  induction h with
  | clear h =>
      rcases h with ⟨ts, hyields, _⟩
      exact hyields.error_behind hwithin.plain he
  | piece hnext _ _ ih =>
      rcases Lexer.next_ok hnext with ⟨_, _, _, hleads, _⟩
      have hle := ((cursor_leads_tokenStart _).trans hleads).offset_le
      exact Nat.le_trans hle (ih (hwithin.plain.next_ok hnext))

/-! ### Reading again -/

/-- Behind white space there is none. -/
theorem skipBlank_skipBlank (acrossLines inComment : Bool) (cs : List Char) (p : Position) :
    skipBlank false false (skipBlank acrossLines inComment cs p).rest
      (skipBlank acrossLines inComment cs p).here = skipBlank acrossLines inComment cs p := by
  fun_induction skipBlank acrossLines inComment cs p with
  | case1 => rfl
  | case2 _ _ _ ih => exact ih
  | case3 => rfl
  | case4 _ _ _ _ ih => exact ih
  | case5 _ _ _ _ ih => exact ih
  | case6 _ _ _ _ _ ih => exact ih
  | case7 c cs p hblank hcomment =>
      have hplain : ¬(Text.isBlank c && (false || decide (c ≠ '\n'))) = true := by
        intro h
        simp only [Bool.and_eq_true, Bool.false_or, decide_eq_true_eq] at h
        exact hblank (by simp [h.1, h.2])
      rw [skipBlank, if_neg hplain, if_neg hcomment]

/-- At a backslash no token begins. -/
theorem next_backslash {rest : List Char} (hrest : lx.cursor.rest = '\\' :: rest) :
    lx.plain.next = (.error (.unexpectedCharacter '\\' lx.location), lx.plain) := by
  have hstart : lx.plain.tokenStart = lx.cursor := tokenStart_eq hrest (by decide) rfl
  have hsymbol : symbol? ('\\' :: rest) = none := by
    simp [symbol?, Kind.symbols, List.isPrefixOf]
  have hscan : scanToken false ('\\' :: rest) lx.cursor.here =
      (.error (.unexpectedCharacter '\\' lx.cursor.here), ⟨'\\' :: rest, lx.cursor.here⟩) := by
    rw [scanToken, hsymbol]
    rfl
  rw [next_eq, hstart, hrest, show lx.plain.sizeMode = false from rfl, hscan, ← hrest]
  rfl

/-- So nothing is left to be foreseen there but the error. -/
theorem clear_backslash {rest : List Char} (hrest : lx.cursor.rest = '\\' :: rest) :
    lx.Clear { w with error? := some (.unexpectedCharacter '\\' lx.location) } 0 :=
  ⟨[], .fail (next_backslash hrest), by simp, rfl⟩

end Lexer

end PolyScript
