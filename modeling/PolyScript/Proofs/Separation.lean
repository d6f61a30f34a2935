import Mathlib.Data.List.Chain
import PolyScript.Proofs.Pace

/-!
# Nothing Is Lost Between Tokens

The tokens of a text cover it: what lies between two of them is white space and comments,
and nothing is read twice. `Lexer.Tiles` says so by walking through the text. It knows
what has been passed so far, and whether the last token was a newline, because the blank
lines behind a line feed are dropped together with it and hence belong to the gap that
follows.

Whether a comment is over depends on what comes next. So a gap is a gap before something,
and gaps may be laid end to end only if the first of them is one before the second.

## Main definitions

* `IsSeparation`: White space and comments before the rest of a text.
* `IsPiece`: A part of a text between two byte offsets.
* `Token.Spells`: A token and how it is written.
* `Lexer.Tiles`: Tokens that cover what is left of a text.
* `Lexer.Lossless`: Tokens that cover a text, seen from their spans.

## Theorems

* `Lexer.skipBlank_separation`: What is skipped is a gap.
* `Lexer.scanToken_spells`: What is scanned is the spelling of the token.
* `Lexer.Yields.tiles`: The tokens that a lexer yields cover the text.
* `tokenize_lossless`: Nothing is lost when a text is split into tokens.
-/

namespace PolyScript

/-- White space and comments before the rest of a text. A comment runs up to the end of
    its line. -/
inductive IsSeparation (rest : List Char) : List Char → Prop
  | nil : IsSeparation rest []
  | blank {c : Char} {gap : List Char} : Text.isBlank c = true → IsSeparation rest gap →
    IsSeparation rest (c :: gap)
  | comment {body gap : List Char} : Lexer.startsComment body = true → '\n' ∉ body →
    LineEnd (gap ++ rest) → IsSeparation rest gap → IsSeparation rest (body ++ gap)

/-- The part of a text between two byte offsets, and what follows it. -/
def IsPiece (source : String) (start stop : Nat) (piece rest : List Char) : Prop :=
  ∃ before, source.toList = before ++ piece ++ rest ∧ start = Position.byteCount before ∧
    stop = Position.byteCount (before ++ piece)

/-- A string literal as it is written: something between two quotes of one kind. -/
def IsQuotation (cs : List Char) : Prop :=
  ∃ quote inner, (quote = '"' ∨ quote = '\'') ∧ cs = quote :: (inner ++ [quote])

theorem IsSeparation.append {rest first second : List Char}
    (h : IsSeparation (second ++ rest) first) (h' : IsSeparation rest second) :
    IsSeparation rest (first ++ second) := by
  induction h with
  | nil => exact h'
  | blank hblank _ ih => exact .blank hblank ih
  | comment hstarts hline hend _ ih =>
      rw [List.append_assoc]
      exact .comment hstarts hline (by rw [List.append_assoc]; exact hend) ih

/-- How a token that follows some text is written there. -/
structure Token.Spells (t : Token) (before piece : List Char) : Prop where
  position : t.position = Position.after before
  stop : t.stop = Position.byteCount (before ++ piece)
  nonempty : piece ≠ []
  notEnd : t.isEnd = false
  text : t.kind ≠ .string → t.text.toList = piece
  quoted : t.kind = .string → IsQuotation piece

namespace Lexer

/-! ### What is skipped and what is scanned -/

/-- What is skipped is a gap, behind the rest of the comment in which the skipping
    began. -/
theorem skipBlank_separation (acrossLines inComment : Bool) (cs : List Char) (p : Position) :
    ∃ body gap, cs = body ++ gap ++ (skipBlank acrossLines inComment cs p).rest ∧
      (skipBlank acrossLines inComment cs p).here = p.advanceAll (body ++ gap) ∧
      IsSeparation (skipBlank acrossLines inComment cs p).rest gap ∧ '\n' ∉ body ∧
      (inComment = false → body = []) ∧
      (inComment = true → LineEnd (gap ++ (skipBlank acrossLines inComment cs p).rest)) ∧
      (acrossLines = false → '\n' ∉ gap) := by
  -- By induction along the skipping. The rest of a comment becomes a comment of the gap where
  -- its first character is found.
  fun_induction skipBlank acrossLines inComment cs p with
  | case1 => exact ⟨[], [], rfl, rfl, .nil, by simp, fun _ => rfl, fun _ => .inl rfl, by simp⟩
  | case2 cs p hacross ih =>
      rcases ih with ⟨body, gap, hcs, hhere, hgap, -, hnil, -, -⟩
      cases hnil rfl
      exact ⟨[], '\n' :: gap, congrArg _ hcs, hhere, .blank (by decide) hgap, by simp,
        fun h => absurd h (by decide), fun _ => .inr ⟨_, rfl⟩,
        fun h => absurd (hacross.symm.trans h) (by decide)⟩
  | case3 cs p =>
      exact ⟨[], [], rfl, rfl, .nil, by simp, fun _ => rfl, fun _ => .inr ⟨cs, rfl⟩, by simp⟩
  | case4 c cs p hc ih =>
      rcases ih with ⟨body, gap, hcs, hhere, hgap, hbody, -, hend, hgapline⟩
      exact ⟨c :: body, gap, congrArg _ hcs, hhere, hgap,
        List.not_mem_cons_of_ne_of_not_mem (Ne.symm hc) hbody, fun h => absurd h (by decide), hend,
        hgapline⟩
  | case5 c cs p hblank ih =>
      rcases ih with ⟨body, gap, hcs, hhere, hgap, -, hnil, -, hgapline⟩
      cases hnil rfl
      rw [Bool.and_eq_true, Bool.or_eq_true, decide_eq_true_eq] at hblank
      refine ⟨[], c :: gap, congrArg _ hcs, hhere, .blank hblank.1 hgap, by simp, fun _ => rfl,
        fun h => absurd h (by decide), fun hacross => ?_⟩
      rw [hacross] at hblank
      have hc : c ≠ '\n' := hblank.2.resolve_left (by decide)
      exact List.not_mem_cons_of_ne_of_not_mem hc.symm (hgapline hacross)
  | case6 c cs p hblank hcomment ih =>
      rcases ih with ⟨body, gap, hcs, hhere, hgap, hbody, -, hend, hgapline⟩
      have hstarts : startsComment (c :: body) = true := by
        rw [hcs, List.append_assoc, startsComment_append (hend rfl)] at hcomment
        exact hcomment
      have hc : c ≠ '\n' := by
        rintro rfl
        cases hstarts
      have hline : '\n' ∉ c :: body := List.not_mem_cons_of_ne_of_not_mem hc.symm hbody
      refine ⟨[], c :: body ++ gap, congrArg _ hcs, hhere, .comment hstarts hline (hend rfl) hgap,
        by simp, fun _ => rfl, fun h => absurd h (by decide), fun hacross => ?_⟩
      rw [List.mem_append, not_or]
      exact ⟨hline, hgapline hacross⟩
  | case7 =>
      exact ⟨[], [], rfl, rfl, .nil, by simp, fun _ => rfl, fun h => absurd h (by decide),
        by simp⟩

/-- A string literal is closed by the quote that it is opened with. -/
theorem scanString_closes {quote : Char} {start : Position} {escape : Option (Position × List Char)}
    {text cs : List Char} {p : Position} {result : String} {after : Cursor}
    (h : scanString quote start escape text cs p = (.ok result, after)) :
    ∃ inner, cs = inner ++ quote :: after.rest := by
  -- By induction along the scan, which succeeds at the quote alone.
  fun_induction scanString quote start escape text cs p with
  | case1 => cases h
  | case2 => cases h
  | case3 _ _ _ _ _ _ _ ih =>
      rcases ih h with ⟨inner, rfl⟩
      exact ⟨'\x7d' :: inner, rfl⟩
  | case4 => cases h
  | case5 _ _ _ c _ _ _ ih =>
      rcases ih h with ⟨inner, rfl⟩
      exact ⟨c :: inner, rfl⟩
  | case6 =>
      cases h
      exact ⟨[], rfl⟩
  | case7 => cases h
  | case8 => cases h
  | case9 _ _ e _ _ _ _ _ ih =>
      rcases ih h with ⟨inner, rfl⟩
      exact ⟨'\\' :: e :: inner, rfl⟩
  | case10 _ _ _ _ _ _ ih =>
      rcases ih h with ⟨inner, rfl⟩
      exact ⟨'\\' :: 'u' :: '\x7b' :: inner, rfl⟩
  | case11 => cases h
  | case12 => cases h
  | case13 => cases h
  | case14 _ c _ _ _ _ _ ih =>
      rcases ih h with ⟨inner, rfl⟩
      exact ⟨c :: inner, rfl⟩

/-- A word is no string literal. -/
theorem ofWord_ne_string (word : String) : Kind.ofWord word ≠ .string := by
  have hall : ∀ kind ∈ Kind.identifier :: Kind.reserved.map Prod.snd, kind ≠ .string := by decide
  exact hall _ (ofWord_mem word)

/-- Neither is a symbol. -/
theorem symbols_ne_string : ∀ s ∈ Kind.symbols, s.2 ≠ .string := by decide

/-- A token that carries its own spelling. -/
theorem spells_ofList {kind : Kind} {before piece : List Char} (hne : piece ≠ [])
    (hend : kind ≠ .endOfInput) (hstring : kind ≠ .string) :
    (⟨kind, String.ofList piece, Position.after before,
      ((Position.after before).advanceAll piece).offset⟩ : Token).Spells before piece := by
  refine ⟨rfl, ?_, hne, ?_, fun _ => String.toList_ofList, fun h => absurd h hstring⟩
  · rw [← Position.offset_after, Position.after, Position.after, Position.advanceAll_append]
  · simpa [Token.isEnd] using hend

/-- What is scanned is the spelling of the token. Behind a newline the scan goes on to the
    next line that holds anything. -/
theorem scanToken_spells {sizeMode : Bool} {before cs : List Char} {t : Token} {after : Cursor}
    (h : scanToken sizeMode cs (Position.after before) = (.ok t, after)) (hne : cs ≠ []) :
    ∃ piece rest, cs = piece ++ rest ∧ t.Spells before piece ∧
      after = if t.kind = .newline then skipBlank true false rest (Position.after (before ++ piece))
        else ⟨rest, Position.after (before ++ piece)⟩ := by
  have hafter (piece : List Char) :
      (Position.after before).advanceAll piece = Position.after (before ++ piece) :=
    (Position.advanceAll_append _ _ _).symm
  cases scansAs_of_scanToken h with
  | endOfInput => exact absurd rfl hne
  | newline =>
      exact ⟨['\n'], _, rfl, spells_ofList (by simp) (by decide) (by decide),
        by rw [← hafter]; rfl⟩
  | @string quote tail _ _ hquote hscan =>
      -- The scan says both what the quotation holds and how far it led. Lengths are no
      -- help here, so the two are compared by cancelling the rest.
      rcases scanString_closes hscan with ⟨inner, rfl⟩
      have hhere : after.here = Position.after (before ++ quote :: (inner ++ [quote])) := by
        have hleads := scanString_leads quote (Position.after before) none []
          (inner ++ quote :: after.rest) ((Position.after before).advance quote)
        rw [hscan] at hleads
        rcases hleads with ⟨used, hused, hhere⟩
        have hused : inner ++ [quote] = used := by
          have hrest : inner ++ [quote] ++ after.rest = used ++ after.rest := by
            rw [← hused, List.append_assoc]
            rfl
          exact List.append_cancel_right hrest
        rw [hhere, ← hused, ← hafter]
        rfl
      refine ⟨quote :: (inner ++ [quote]), after.rest, by simp, ⟨rfl, ?_, by simp, rfl,
        fun h => absurd rfl h, fun _ => ⟨quote, inner, hquote, rfl⟩⟩, ?_⟩
      · rw [hhere, Position.offset_after]
      · rw [← hhere]
        rfl
  | @number c tail hdigit =>
      have hsplit := splitNumber_append (c :: tail)
      have hshort : (splitNumber (c :: tail)).rest.length < (c :: tail).length :=
        splitNumber_rest_length hdigit
      refine ⟨_, _, hsplit.symm, spells_ofList (fun hnil => ?_) (by decide) (by decide),
        by rw [hafter]; rfl⟩
      rw [hnil, List.nil_append] at hsplit
      rw [hsplit] at hshort
      exact Nat.lt_irrefl _ hshort
  | @word c tail hname =>
      have hkind := ofWord_proper (String.ofList (splitWord sizeMode (c :: tail)).1)
      refine ⟨_, _, (splitWord_append sizeMode (c :: tail)).symm,
        spells_ofList ?_ hkind.1 (ofWord_ne_string _), by rw [hafter, if_neg hkind.2]⟩
      rw [splitWord_part (isNamePart_of_isNameStart hname)]
      exact List.cons_ne_nil _ _
  | @symbol c tail text kind hsymbol =>
      rcases mem_of_symbol? hsymbol with ⟨hmem, happend⟩
      rcases symbols_proper _ hmem with ⟨hne, hend, hline⟩
      exact ⟨text, _, happend.symm, spells_ofList hne hend (symbols_ne_string _ hmem),
        by rw [hafter, if_neg hline]⟩

/-! ### Walking through the text -/

/-- Tokens that cover what is left of a text behind the given part of it. The flag says
    whether that part ends in a newline. -/
inductive Tiles (source : String) : List Char → Bool → List Token → Prop
  | finish {before gap : List Char} {newline : Bool} :
    source.toList = before ++ gap → IsSeparation [] gap → ('\n' ∈ gap → newline = true) →
    Tiles source before newline [Token.endAt (Position.after (before ++ gap))]
  | token {before gap piece rest : List Char} {newline : Bool} {t : Token} {ts : List Token} :
    source.toList = before ++ gap ++ piece ++ rest → IsSeparation (piece ++ rest) gap →
    ('\n' ∈ gap → newline = true) → (t.kind = .newline → newline = false) →
    t.Spells (before ++ gap) piece → Tiles source (before ++ gap ++ piece) (t.kind = .newline) ts →
    Tiles source before newline (t :: ts)

/-- A lexer that has read a part of a text. Behind a newline it has moved on to the next
    line that holds anything. -/
def Resumes (source : String) (before : List Char) (newline : Bool) (lx : Lexer) : Prop :=
  ∃ skipped, source.toList = before ++ skipped ++ lx.cursor.rest ∧
    lx.cursor.here = Position.after (before ++ skipped) ∧ IsSeparation lx.cursor.rest skipped ∧
    if newline then ∃ cs p, lx.cursor = skipBlank true false cs p else skipped = []

variable {source : String} {before : List Char} {newline : Bool} {lx lx' : Lexer} {t : Token}

/-- The gap before the next token. -/
theorem Resumes.gap (h : lx.Resumes source before newline) :
    ∃ gap, source.toList = before ++ gap ++ lx.tokenStart.rest ∧
      lx.tokenStart.here = Position.after (before ++ gap) ∧ IsSeparation lx.tokenStart.rest gap ∧
      ('\n' ∈ gap → newline = true) := by
  rcases h with ⟨skipped, hsource, hhere, hgap, hflag⟩
  rcases skipBlank_separation false false lx.cursor.rest lx.cursor.here with
    ⟨body, gap, hrest, hstart, hgap', -, hbody, -, hline⟩
  -- No comment was open, so none is closed.
  cases hbody rfl
  rw [List.nil_append] at hrest hstart
  refine ⟨skipped ++ gap, ?_, ?_, ?_, fun hmem => ?_⟩
  · rw [hsource, hrest]
    simp [tokenStart]
  · rw [tokenStart, hstart, hhere, Position.after, Position.after, ← Position.advanceAll_append,
      List.append_assoc]
  · rw [hrest] at hgap
    exact hgap.append hgap'
  · rcases List.mem_append.1 hmem with hskipped | hnot
    · cases newline with
      | true => rfl
      | false =>
          cases hflag
          cases hskipped
    · exact absurd hnot (hline rfl)

/-- The next token, and the lexer behind it. The gap before the token and the characters of the
    token are what the text has there, and the lexer resumes behind both. -/
theorem Resumes.next_ok (h : lx.Resumes source before newline) (hnext : lx.next = (.ok t, lx'))
    (hend : t.isEnd = false) :
    ∃ gap piece rest, source.toList = before ++ gap ++ piece ++ rest ∧
      IsSeparation (piece ++ rest) gap ∧ ('\n' ∈ gap → newline = true) ∧
      (t.kind = .newline → newline = false) ∧ t.Spells (before ++ gap) piece ∧
      lx'.Resumes source (before ++ gap ++ piece) (t.kind = .newline) := by
  have hlines : t.kind = .newline → newline = false := fun hkind => by
    rcases h with ⟨_, _, _, _, hflag⟩
    cases newline with
    | false => rfl
    | true =>
        rcases hflag with ⟨cs, p, hcursor⟩
        exact absurd hkind (next_ne_newline hcursor hnext)
  rcases h.gap with ⟨gap, hsource, hhere, hgap, hline⟩
  have hscan : scanToken lx.sizeMode lx.tokenStart.rest (Position.after (before ++ gap)) =
      (.ok t, lx'.cursor) := by
    rw [next_eq, Prod.mk.injEq] at hnext
    rw [← hhere, ← hnext.2]
    exact Prod.ext hnext.1 rfl
  have hne : lx.tokenStart.rest ≠ [] := fun hnil => by
    rw [(scanToken_ok hscan).2.2.1.2 hnil] at hend
    cases hend
  rcases scanToken_spells hscan hne with ⟨piece, rest, hpiece, hspells, hafter⟩
  rw [hpiece] at hsource hgap
  refine ⟨gap, piece, rest, by rw [hsource]; simp, hgap, hline, hlines, hspells, ?_⟩
  -- Behind a newline the lexer has skipped a part of the next gap already.
  by_cases hkind : t.kind = .newline
  · rw [if_pos hkind] at hafter
    rcases skipBlank_separation true false rest (Position.after (before ++ gap ++ piece)) with
      ⟨body, skipped, hrest, hstart, hskipped, -, hbody, -, -⟩
    cases hbody rfl
    rw [← hafter, List.nil_append] at hrest hstart
    rw [← hafter] at hskipped
    refine ⟨skipped, by rw [hsource, hrest]; simp, ?_, hskipped, ?_⟩
    · rw [hstart, Position.after, Position.after, ← Position.advanceAll_append]
    · rw [decide_eq_true hkind]
      exact ⟨_, _, hafter⟩
  · rw [if_neg hkind] at hafter
    refine ⟨[], by rw [hsource, hafter]; simp, by rw [hafter, List.append_nil], .nil, ?_⟩
    rw [decide_eq_false hkind]
    rfl

/-- The tokens that are read up to the end cover the text. -/
theorem Resumes.tiles (h : lx.Resumes source before newline) {n : Nat} {tokens : List Token}
    (hn : lx.cursor.rest.length < n) (htokens : lx.tokenizeWithin n = .ok tokens) :
    Tiles source before newline tokens := by
  -- By induction on the budget, which exceeds the characters that are left.
  induction n generalizing lx before newline tokens with
  | zero => omega
  | succ n ih =>
      rw [tokenizeWithin] at htokens
      rcases hnext : lx.next with ⟨e | t, lx'⟩
      · rw [hnext] at htokens
        cases htokens
      · simp only [hnext] at htokens
        split at htokens
        · rename_i hend
          cases htokens
          rcases h.gap with ⟨gap, hsource, hhere, hgap, hline⟩
          rw [next_eq, Prod.mk.injEq] at hnext
          have hnil := (scanToken_ok (Prod.ext hnext.1 rfl)).2.2.1.1 hend
          have ht := hnext.1
          rw [hnil, hhere] at ht
          rw [hnil] at hsource hgap
          rw [List.append_nil] at hsource
          cases ht
          exact .finish hsource hgap hline
        · rename_i hend
          rw [Bool.not_eq_true] at hend
          rcases h.next_ok hnext hend with
            ⟨gap, piece, rest, hsource, hgap, hline, hkind, hspells, hresumes⟩
          cases hrest : lx'.tokenizeWithin n with
          | error e =>
              rw [hrest] at htokens
              cases htokens
          | ok ts =>
              rw [hrest] at htokens
              cases htokens
              have hshorter := next_shorter hnext hend
              exact .token hsource hgap hline hkind hspells (ih hresumes (by omega) hrest)

/-! ### Spans -/

/-- Tokens that cover a text, seen from their spans. -/
structure Lossless (source : String) (tokens : List Token) : Prop where
  /-- The last token, and no other, marks the end. It stands at the end of the text. -/
  ending : ∃ init last, tokens = init ++ [last] ∧ last.isEnd = true ∧
    last.position.offset = source.utf8ByteSize ∧ ∀ t ∈ init, t.isEnd = false
  /-- No two tokens overlap, and they stand in the order of the text. -/
  ordered : tokens.Pairwise fun t u => t.stop ≤ u.position.offset
  /-- Every token but the end takes up some of the text. -/
  nonempty : ∀ t ∈ tokens, t.isEnd = false → t.position.offset < t.stop
  /-- Every token but a string literal has the text of its span. -/
  text : ∀ t ∈ tokens, t.kind ≠ .string →
    ∃ rest, IsPiece source t.position.offset t.stop t.text.toList rest
  /-- The span of a string literal begins and ends with the same quote. -/
  quoted : ∀ t ∈ tokens, t.kind = .string →
    ∃ piece rest, IsPiece source t.position.offset t.stop piece rest ∧ IsQuotation piece
  /-- Before each token there is a gap, which begins at the token before it or else at the
      start of the text. It stays in its line except behind a newline. -/
  gap : ∀ before t after, tokens = before ++ t :: after → ∃ gap rest,
    IsPiece source (before.getLast?.elim 0 Token.stop) t.position.offset gap rest ∧
      IsSeparation rest gap ∧ ('\n' ∈ gap → ∃ u, before.getLast? = some u ∧ u.kind = .newline)
  /-- No two newlines follow each other. -/
  newlines : tokens.IsChain fun t u => t.kind = .newline → u.kind ≠ .newline

namespace Tiles

variable {ts : List Token}

/-- The tokens of a text end in the one for its end, which is the only one of its kind. -/
theorem ending (h : Tiles source before newline ts) :
    ∃ init last, ts = init ++ [last] ∧ last.isEnd = true ∧
      last.position.offset = source.utf8ByteSize ∧ ∀ t ∈ init, t.isEnd = false := by
  induction h with
  | finish hsource =>
      refine ⟨[], _, rfl, rfl, ?_, by simp⟩
      rw [byteSize_eq, hsource, ← Position.offset_after]
      rfl
  | @token _ _ _ _ _ t _ _ _ _ _ hspells _ ih =>
      rcases ih with ⟨init, last, rfl, hlast, hoffset, hinit⟩
      exact ⟨t :: init, last, rfl, hlast, hoffset, List.forall_mem_cons.2 ⟨hspells.notEnd, hinit⟩⟩

/-- What holds of the end and of tokens as they are written holds of all tokens. -/
theorem forall_mem (h : Tiles source before newline ts) {P : Token → Prop}
    (hend : ∀ before, source.toList = before → P (Token.endAt (Position.after before)))
    (hspells : ∀ t before piece rest, source.toList = before ++ piece ++ rest →
      t.Spells before piece → P t) : ∀ t ∈ ts, P t := by
  induction h with
  | finish hsource => exact List.forall_mem_singleton.2 (hend _ hsource)
  | token hsource _ _ _ hspell _ ih =>
      exact List.forall_mem_cons.2 ⟨hspells _ _ _ _ hsource hspell, ih⟩

/-- No token begins before the part that the tokens cover. -/
theorem offset_le (h : Tiles source before newline ts) :
    ∀ t ∈ ts, Position.byteCount before ≤ t.position.offset := by
  have hcount (xs ys : List Char) :
      Position.byteCount xs ≤ Position.byteCount (xs ++ ys) := by
    simp [Position.byteCount]
  induction h with
  | finish =>
      refine List.forall_mem_singleton.2 ?_
      rw [Token.endAt, Position.offset_after]
      exact hcount _ _
  | token _ _ _ _ hspells _ ih =>
      refine List.forall_mem_cons.2 ⟨?_, fun u hu => ?_⟩
      · rw [hspells.position, Position.offset_after]
        exact hcount _ _
      · refine Nat.le_trans ?_ (ih u hu)
        rw [List.append_assoc]
        exact hcount _ _

theorem ordered (h : Tiles source before newline ts) :
    ts.Pairwise fun t u => t.stop ≤ u.position.offset := by
  induction h with
  | finish => exact List.pairwise_singleton _ _
  | token _ _ _ _ hspells htiles ih =>
      refine List.pairwise_cons.2 ⟨fun u hu => ?_, ih⟩
      rw [hspells.stop]
      exact htiles.offset_le u hu

/-- In front of each token lies a separation from the one before it, and there is a newline in it
    only behind a token for one. -/
theorem gap (h : Tiles source before newline ts) (xs : List Token) (t : Token) (ys : List Token)
    (hts : ts = xs ++ t :: ys) : ∃ gap rest,
      IsPiece source (xs.getLast?.elim (Position.byteCount before) Token.stop) t.position.offset
        gap rest ∧ IsSeparation rest gap ∧
      ('\n' ∈ gap → xs.getLast?.elim newline (fun u => u.kind = .newline) = true) := by
  -- By induction on the tiles. In front of the first token is white space, in front of a later
  -- one the same holds of the rest.
  induction h generalizing xs with
  | @finish before gap _ hsource hgap hline =>
      cases xs with
      | nil =>
          cases hts
          exact ⟨gap, [], ⟨before, by simpa using hsource, rfl, Position.offset_after _⟩, hgap,
            hline⟩
      | cons x xs =>
          have hlength := congrArg List.length hts
          simp at hlength
  | @token before gap piece rest _ u _ hsource hgap hline _ hspells _ ih =>
      cases xs with
      | nil =>
          cases hts
          refine ⟨gap, piece ++ rest, ⟨before, by simpa using hsource, rfl, ?_⟩, hgap, hline⟩
          rw [hspells.position, Position.offset_after]
      | cons x xs =>
          cases hts
          have hbehind := ih xs rfl
          rw [← hspells.stop] at hbehind
          rw [List.getLast?_cons]
          cases hlast : xs.getLast? <;> rw [hlast] at hbehind <;> exact hbehind

/-- No two tokens for line ends are neighbors, and none comes first behind a line end. -/
theorem newlines (h : Tiles source before newline ts) :
    (newline = true → ∀ t ∈ ts.head?, t.kind ≠ .newline) ∧
      ts.IsChain fun t u => t.kind = .newline → u.kind ≠ .newline := by
  induction h with
  | finish =>
      refine ⟨fun _ t ht hkind => ?_, List.isChain_singleton _⟩
      cases ht
      cases hkind
  | token _ _ _ hfresh _ _ ih =>
      refine ⟨fun hflag t ht hkind => ?_, List.isChain_cons.2 ⟨fun u hu hkind => ?_, ih.2⟩⟩
      · cases ht
        exact absurd hflag (by rw [hfresh hkind]; decide)
      · exact ih.1 (decide_eq_true hkind) u hu

/-- Tokens that cover a text from its start lose nothing of it. Their order, the gaps and the end
    are facts about the covering, and the rest is known of each token by itself. -/
theorem lossless (h : Tiles source [] false ts) : Lossless source ts where
  ending := h.ending
  ordered := h.ordered
  nonempty := h.forall_mem (P := fun t => t.isEnd = false → t.position.offset < t.stop)
    (fun _ _ hend => by cases hend) fun t before piece rest _ hspells _ => by
      -- A piece has a character, and a character takes a byte.
      rw [hspells.position, hspells.stop, Position.offset_after]
      cases hpiece : piece with
      | nil => exact absurd hpiece hspells.nonempty
      | cons c cs =>
          have := c.utf8Size_pos
          simp only [Position.byteCount, List.map_append, List.sum_append, List.map_cons,
            List.sum_cons]
          omega
  text := h.forall_mem (P := fun t => t.kind ≠ .string →
      ∃ rest, IsPiece source t.position.offset t.stop t.text.toList rest)
    (fun before hbefore _ => ⟨[], before, by simpa [Token.endAt] using hbefore,
      Position.offset_after _, by simp [Token.endAt, Position.offset_after]⟩)
    fun t before piece rest hsource hspells hkind => by
      rw [hspells.text hkind, hspells.position, hspells.stop, Position.offset_after]
      exact ⟨rest, before, hsource, rfl, rfl⟩
  quoted := h.forall_mem (P := fun t => t.kind = .string →
      ∃ piece rest, IsPiece source t.position.offset t.stop piece rest ∧ IsQuotation piece)
    (fun _ _ hkind => by cases hkind)
    fun t before piece rest hsource hspells hkind => by
      rw [hspells.position, hspells.stop, Position.offset_after]
      exact ⟨piece, rest, ⟨before, hsource, rfl, rfl⟩, hspells.quoted hkind⟩
  gap := fun xs t ys hts => by
    rcases h.gap xs t ys hts with ⟨gap, rest, hpiece, hgap, hline⟩
    refine ⟨gap, rest, hpiece, hgap, fun hmem => ?_⟩
    have hflag := hline hmem
    cases hlast : xs.getLast? with
    | none =>
        rw [hlast] at hflag
        cases hflag
    | some u =>
        rw [hlast] at hflag
        exact ⟨u, rfl, of_decide_eq_true hflag⟩
  newlines := h.newlines.2

end Tiles

end Lexer

/-- Nothing is lost when a text is split into tokens, in either mode of the lexer: the end
    is marked once, spans are in order, texts are those of their spans, and between the
    tokens there is only white space and comments. -/
theorem tokenize_lossless (source : String) (sizeMode : Bool) (tokens : List Token)
    (h : { Lexer.ofSource source with sizeMode }.tokenize = .ok tokens) :
    Lexer.Lossless source tokens := by
  have hresumes : { Lexer.ofSource source with sizeMode }.Resumes source [] false :=
    ⟨[], rfl, rfl, .nil, rfl⟩
  exact (hresumes.tiles (Nat.lt_succ_self _) h).lossless

/-- A comment between two tokens, and blank lines behind a newline. -/
theorem tokenize_lossless_comment :
    Lexer.Lossless "a # b\n\n\n 'c'"
      [⟨.identifier, "a", ⟨1, 1, 0⟩, 1⟩, ⟨.newline, "\n", ⟨1, 6, 5⟩, 6⟩,
        ⟨.string, "c", ⟨4, 2, 9⟩, 12⟩, ⟨.endOfInput, "", ⟨4, 5, 12⟩, 12⟩] :=
  tokenize_lossless _ false _ (by decide +kernel)

end PolyScript
