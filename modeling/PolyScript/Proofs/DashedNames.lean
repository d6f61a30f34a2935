import PolyScript.Proofs.ModesOnTapes
import PolyScript.Proofs.Specifiers

/-!
# Size Mode and Dashed Names

What size mode does to the tokens of a text. In this mode a dash never continues a name, so
a name with dashes falls apart into words and dashes. That is all: two lexers that read one
text, one of them in size mode, are level again behind each such name, and they come to the
same end or to the same error.

The words that a name falls into are names by themselves, since a dash continues a name only
if a letter follows. But they are classified anew. A name with dashes is never reserved,
while `if-x` has the reserved word `if` in it, and `py-x` the tag of a language.

## Main definitions

* `Token.dashed`: Words with dashes between them, as tokens.
* `Token.atDashes`: What becomes of a token in size mode.
* `Lexer.Passes`: Reading tokens leads from one lexer to another.

## Theorems

* `Lexer.Passes.tokenize`: The tokens that are passed come first.
* `Lexer.passes_word`: A name falls apart at its dashes.
* `Lexer.passes_sized`: One token in plain reading, and what is read for it in size mode.
* `Lexer.size_mode_splits_dashed_names`: All tokens of a text.
-/

namespace PolyScript

namespace Token

/-- A word that stands at a place, as a token. -/
def ofWord (word : List Char) (p : Position) : Token :=
  ⟨Kind.ofWord (String.ofList word), String.ofList word, p, (p.advanceAll word).offset⟩

/-- A dash that stands at a place, as a token. -/
def dash (p : Position) : Token := ⟨.minus, "-", p, (p.advance '-').offset⟩

/-- The tokens of words with dashes between them, the first of which stands at a place. -/
def dashed : Position → List (List Char) → List Token
  | _, [] => []
  | p, [word] => [ofWord word p]
  | p, word :: words =>
    ofWord word p :: dash (p.advanceAll word) ::
      dashed ((p.advanceAll word).advance '-') words

/-- What becomes of a token in size mode: a name falls apart at its dashes, and any other
    token stays. -/
def atDashes (t : Token) : List Token :=
  if t.kind = .identifier ∧ '-' ∈ t.text.toList then
    dashed t.position (Parse.splitDashes t.text.toList)
  else [t]

theorem dashed_cons {word : List Char} {words : List (List Char)} (hne : words ≠ [])
    (p : Position) :
    dashed p (word :: words) =
      ofWord word p :: dash (p.advanceAll word) ::
        dashed ((p.advanceAll word).advance '-') words := by
  cases words with
  | nil => exact absurd rfl hne
  | cons => rfl

theorem atDashes_of_ne {t : Token} (h : t.kind ≠ .identifier) : t.atDashes = [t] :=
  if_neg fun hboth => h hboth.1

end Token

namespace Parse

theorem splitDashes_of_not_mem {cs : List Char} (h : '-' ∉ cs) : splitDashes cs = [cs] := by
  induction cs with
  | nil => rfl
  | cons c cs ih =>
      rw [List.mem_cons, not_or] at h
      rw [splitDashes, if_neg (Ne.symm h.1), ih h.2]

end Parse

namespace Token

/-- Whether or not a word has dashes, it becomes the words between them. -/
theorem atDashes_ofWord (word : List Char) (p : Position) :
    (ofWord word p).atDashes = dashed p (Parse.splitDashes word) := by
  have htext : (ofWord word p).text.toList = word := String.toList_ofList
  by_cases hdash : '-' ∈ word
  · have hkind : (ofWord word p).kind = .identifier :=
      SpecifierAtom.ofWord_of_dash (String.toList_ofList.symm ▸ hdash)
    rw [atDashes, htext, if_pos ⟨hkind, hdash⟩]
    rfl
  · rw [atDashes, htext, if_neg fun hboth => hdash hboth.2, Parse.splitDashes_of_not_mem hdash]
    rfl

end Token

namespace Lexer

/-! ### Passing tokens -/

/-- Enough reading is as good as reading all. -/
theorem tokenizeWithin_eq {lx : Lexer} {n : Nat} (hn : lx.cursor.rest.length < n) :
    lx.tokenizeWithin n = lx.tokenize := by
  have hlength : lx.eager.1.length ≤ n :=
    Nat.le_trans (length_eagerWithin_le _ lx) hn
  rw [tokenizeWithin_eq_eagerWithin, tokenize_eq_eager, eagerWithin_eq, if_pos hlength,
    List.take_of_length_le hlength]

variable {lx lx' : Lexer} {t : Token} {ts : List Token}

theorem tokenize_of_ok (hnext : lx.next = (.ok t, lx')) (hend : t.isEnd = false) :
    lx.tokenize = lx'.tokenize.map (t :: ·) := by
  rw [tokenize, tokenizeWithin, hnext]
  simp only [hend, Bool.false_eq_true, if_false, tokenizeWithin_eq (next_shorter hnext hend)]
  cases lx'.tokenize <;> rfl

theorem tokenize_of_end (hnext : lx.next = (.ok t, lx')) (hend : t.isEnd = true) :
    lx.tokenize = .ok [t] := by
  rw [tokenize, tokenizeWithin, hnext]
  simp only [hend, if_true]

theorem tokenize_of_error {e : LexError} (hnext : lx.next = (.error e, lx')) :
    lx.tokenize = .error e := by
  rw [tokenize, tokenizeWithin, hnext]

/-- Reading some tokens, none of which is the end, leads from one lexer to another. -/
inductive Passes : Lexer → List Token → Lexer → Prop
  | done (lx : Lexer) : Passes lx [] lx
  | token {lx mx lx' : Lexer} {t : Token} {ts : List Token} :
    lx.next = (.ok t, mx) → t.isEnd = false → Passes mx ts lx' → Passes lx (t :: ts) lx'

/-- The tokens that are passed come before those that lie behind. -/
theorem Passes.tokenize (h : lx.Passes ts lx') :
    lx.tokenize = lx'.tokenize.map (ts ++ ·) := by
  induction h with
  | done lx => cases hall : lx.tokenize <;> rfl
  | @token _ _ lx' _ _ hnext hend _ ih =>
      rw [tokenize_of_ok hnext hend, ih]
      cases lx'.tokenize <;> rfl

/-! ### Two lexers -/

/-- The lexer in size mode. -/
def sized (lx : Lexer) : Lexer := { lx with sizeMode := true }

theorem isEnd_ofWord (word : List Char) (p : Position) : (Token.ofWord word p).isEnd = false :=
  isEnd_of_shape (Kind.ofWord_shape _)

/-- Where a name begins, a word is read. -/
theorem next_word (lx : Lexer) {c : Char} {tail : List Char} (hname : isNameStart c = true)
    (hrest : lx.tokenStart.rest = c :: tail) :
    lx.next =
      (.ok (Token.ofWord (splitWord lx.sizeMode lx.tokenStart.rest).1 lx.tokenStart.here),
        { lx with cursor := ⟨(splitWord lx.sizeMode lx.tokenStart.rest).2,
          lx.tokenStart.here.advanceAll (splitWord lx.sizeMode lx.tokenStart.rest).1⟩ }) := by
  rw [next_eq, hrest, scanToken_word hname]
  rfl

/-- In size mode the words of a name and the dashes between them are passed one by one, and
    behind them the lexer stands where the name ends. -/
theorem passes_word {c : Char} {tail : List Char} (hname : isNameStart c = true)
    (hrest : lx.tokenStart.rest = c :: tail) :
    lx.sized.Passes
      (Token.dashed lx.tokenStart.here
        (Parse.splitDashes (splitWord false lx.tokenStart.rest).1))
      { lx.sized with cursor := ⟨(splitWord false lx.tokenStart.rest).2,
        lx.tokenStart.here.advanceAll (splitWord false lx.tokenStart.rest).1⟩ } := by
  -- By induction on what is left of the text: behind a dash of the name there is a shorter
  -- name, and it begins with a letter.
  induction hlength : lx.tokenStart.rest.length using Nat.strongRecOn generalizing lx c tail with
  | ind n ih =>
      have hword : lx.sized.next = _ := next_word lx.sized hname hrest
      change lx.sized.next =
        (.ok (Token.ofWord (splitWord true lx.tokenStart.rest).1 lx.tokenStart.here),
          { lx.sized with cursor := ⟨(splitWord true lx.tokenStart.rest).2,
            lx.tokenStart.here.advanceAll (splitWord true lx.tokenStart.rest).1⟩ }) at hword
      have hfirst := Parse.splitDashes_of_not_mem (dash_not_mem_splitWord lx.tokenStart.rest)
      have happend := splitWord_append true lx.tokenStart.rest
      rcases splitWord_mode lx.tokenStart.rest with heq | ⟨d, rest, htail, hd, hwhole, hbehind⟩
      · rw [← heq, hfirst]
        exact .token hword (isEnd_ofWord _ _) (.done _)
      · rw [htail] at hword happend
        have hpieces := Parse.splitDashes_ne_nil (splitWord false (d :: rest)).1
        rw [hwhole, hbehind, Parse.splitDashes_append, hfirst, List.singleton_append,
          Token.dashed_cons hpieces, Position.advanceAll_append]
        generalize lx.tokenStart.here.advanceAll (splitWord true lx.tokenStart.rest).1 = p at *
        -- The lexer behind the dash seeks its token no further.
        let behind : Lexer := { lx with cursor := ⟨d :: rest, p.advance '-'⟩ }
        have hletter : isNameStart d = true := by rw [isNameStart, hd, Bool.true_or]
        have hopens : opensWord d = true := by rw [opensWord, hletter, Bool.or_true]
        have hstart : behind.tokenStart = ⟨d :: rest, p.advance '-'⟩ :=
          skipBlank_opensWord hopens rest _
        have hshorter : behind.tokenStart.rest.length < n := by
          rw [hstart, ← hlength, ← happend]
          simp only [List.length_append, List.length_cons]
          omega
        have hrest' : behind.tokenStart.rest = d :: rest := by rw [hstart]
        have hpasses := ih _ hshorter hletter hrest' rfl
        rw [hstart] at hpasses
        exact .token hword (isEnd_ofWord _ _) (.token (next_dash _ hd rfl) rfl hpasses)

/-! ### One token in both modes -/

/-- Where no name begins, size mode makes no difference. -/
theorem next_sized (hname : ¬∃ c tail, lx.tokenStart.rest = c :: tail ∧ isNameStart c = true) :
    lx.sized.next = (lx.plain.next.1, lx.plain.next.2.sized) := by
  have hscan := (scanToken_mode lx.tokenStart.rest lx.tokenStart.here).resolve_right hname
  rw [next_eq lx.sized]
  change ((scanToken true lx.tokenStart.rest lx.tokenStart.here).1,
    { lx.sized with cursor := (scanToken true lx.tokenStart.rest lx.tokenStart.here).2 }) = _
  rw [hscan]
  rfl

/-- A token that is no name where it begins is not the token of a name. -/
theorem kind_ne_identifier (hnext : lx.next = (.ok t, lx'))
    (hname : ¬∃ c tail, lx.tokenStart.rest = c :: tail ∧ isNameStart c = true) :
    t.kind ≠ .identifier := by
  have hsymbols : ∀ s ∈ Kind.symbols, s.2 ≠ .identifier := by decide
  have hscans := scansAs_of_next hnext
  generalize lx.tokenStart.rest = cs at hname hscans
  generalize lx'.cursor = after at hscans
  cases hscans with
  | endOfInput | newline | string | number => exact Kind.noConfusion
  | word hstart => exact absurd ⟨_, _, rfl, hstart⟩ hname
  | symbol hsymbol => exact hsymbols _ (mem_of_symbol? hsymbol).1

/-- What is one token in plain reading is passed in size mode as what it becomes there. -/
theorem passes_sized (hnext : lx.plain.next = (.ok t, lx')) (hend : t.isEnd = false) :
    lx.sized.Passes t.atDashes lx'.sized := by
  by_cases hname : ∃ c tail, lx.tokenStart.rest = c :: tail ∧ isNameStart c = true
  · rcases hname with ⟨c, tail, hrest, hstart⟩
    have hword := next_word lx.plain hstart hrest
    rw [hnext, Prod.mk.injEq, Except.ok.injEq] at hword
    rw [hword.1, hword.2, Token.atDashes_ofWord]
    exact passes_word hstart hrest
  · have hsame := next_sized hname
    rw [hnext] at hsame
    rw [Token.atDashes_of_ne (kind_ne_identifier hnext hname)]
    exact .token hsame hend (.done _)

/-- The end of the text, or an error, is the same in size mode. -/
theorem next_sized_last {result : Except LexError Token} (hnext : lx.plain.next = (result, lx'))
    (hlast : ∀ t, result = .ok t → t.isEnd = true) : lx.sized.next = (result, lx'.sized) := by
  have hname : ¬∃ c tail, lx.tokenStart.rest = c :: tail ∧ isNameStart c = true := by
    rintro ⟨c, tail, hrest, hstart⟩
    have hword := next_word lx.plain hstart hrest
    rw [hnext, Prod.mk.injEq] at hword
    have hend := hlast _ hword.1
    rw [isEnd_ofWord] at hend
    cases hend
  rw [next_sized hname, hnext]

/-! ### All tokens of a text -/

/-- From wherever a text is read, reading it in size mode comes to the same error as plain
    reading, or to the same tokens but for the names with dashes. Each of these falls apart
    into the words between its dashes and the dashes, all where they stand in the name, and
    the words are classified by themselves. -/
theorem size_mode_splits_dashed_names (lx : Lexer) :
    { lx with sizeMode := true }.tokenize =
      { lx with sizeMode := false }.tokenize.map (List.flatMap Token.atDashes) := by
  change lx.sized.tokenize = lx.plain.tokenize.map _
  -- By induction on what is left of the text: the two lexers are level again behind each
  -- token of plain reading.
  induction hlength : lx.cursor.rest.length using Nat.strongRecOn generalizing lx with
  | ind n ih =>
      cases hnext : lx.plain.next with
      | mk result lx' =>
      cases result with
      | error e =>
          have hsame := next_sized_last hnext fun t ht => by cases ht
          rw [tokenize_of_error hnext, tokenize_of_error hsame]
          rfl
      | ok t =>
          cases hend : t.isEnd with
          | true =>
              have hsame := next_sized_last hnext fun u hu => by cases hu; exact hend
              have hkind : t.kind ≠ .identifier := by
                intro hkind
                rw [Token.isEnd, hkind] at hend
                cases hend
              rw [tokenize_of_end hnext hend, tokenize_of_end hsame hend]
              change Except.ok [t] = Except.ok ([t].flatMap Token.atDashes)
              rw [List.flatMap_singleton, Token.atDashes_of_ne hkind]
          | false =>
              have hplain : lx'.plain = lx' := by
                rcases Lexer.next_ok hnext with ⟨hlx, _⟩
                rw [hlx]
                rfl
              have hshorter := next_shorter hnext hend
              have hrest := ih _ (Nat.lt_of_lt_of_eq hshorter hlength) lx' rfl
              rw [hplain] at hrest
              rw [(passes_sized hnext hend).tokenize, hrest, tokenize_of_ok hnext hend]
              cases lx'.tokenize <;> rfl

/-- A tag of a language and a reserved word come out of a name. -/
example : ({ ofSource "py-if --x" with sizeMode := true }.tokenize.map (List.map Token.kind)) =
    .ok [.language, .minus, .kwIf, .minus, .minus, .identifier, .endOfInput] := by
  decide +kernel

end Lexer

end PolyScript
