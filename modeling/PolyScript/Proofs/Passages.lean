import PolyScript.Proofs.Spelling

/-!
# Passages of a Line

A text that stands within a line of a longer one is read there as it would be by itself.
What comes before makes no difference, because nothing that a lexer does depends on where it
stands, apart from the places that it reports. What comes behind makes none if it begins
with a character at which names, numbers and symbols are over.

The exception is a comment, which would take in all that comes behind. So a text that is
followed by something has to be unbroken (`Text.isUnbroken`): outside of its string literals
there is no comment, and besides no line end and no semicolon, at which a statement would
end. Reading keeps a text unbroken, and no newline is ever read.

## Main definitions

* `Text.isUnbroken`: A text without line ends, semicolons and comments.
* `Text.dropBlank`: What is left behind white space and comments.
* `Lexer.Copies`: A lexer stands in a passage where another one stands in the text.

## Theorems

* `Text.dropBlank_append`: White space before the end of a passage.
* `Lexer.scanToken_copied`: A token is the same wherever it stands.
* `Lexer.isUnbroken_of_scanToken`: What is left behind a token is unbroken.
* `Lexer.Copies.next_ok`, `Lexer.Copies.next_end`, `Lexer.Copies.next_error`: The tokens of a
  passage.
-/

namespace PolyScript

/-- Outside of string literals a text has no line end, no semicolon and no comment. The first
    argument tells the quote of the literal at hand, if there is one, and whether a backslash
    comes before. -/
def Text.isUnbroken : Option (Char × Bool) → List Char → Bool
  | _, [] => true
  | none, c :: cs =>
    c ≠ '\n' && c ≠ ';' && !Lexer.startsComment (c :: cs) &&
      isUnbroken (if c = '"' ∨ c = '\'' then some (c, false) else none) cs
  | some (quote, true), _ :: cs => isUnbroken (some (quote, false)) cs
  | some (quote, false), c :: cs =>
    isUnbroken (if c = quote then none else some (quote, c = '\\')) cs

/-- What is left of a text behind white space and comments. -/
def Text.dropBlank (cs : List Char) : List Char :=
  (Lexer.skipBlank false false cs Position.start).rest

namespace Lexer

open Text

/-! ### White space -/

/-- What is skipped does not depend on the place. -/
theorem skipBlank_rest (acrossLines inComment : Bool) (cs : List Char) (p q : Position) :
    (skipBlank acrossLines inComment cs p).rest = (skipBlank acrossLines inComment cs q).rest := by
  induction cs generalizing inComment p q with
  | nil => cases inComment <;> rfl
  | cons c cs ih =>
      cases inComment
      all_goals
        unfold skipBlank
        split
        · first | exact ih _ _ _ | (split <;> first | exact ih _ _ _ | rfl)
        · first | exact ih _ _ _ | (split <;> first | exact ih _ _ _ | rfl)

theorem tokenStart_rest (lx : Lexer) : lx.tokenStart.rest = dropBlank lx.cursor.rest :=
  skipBlank_rest false false _ _ _

theorem dropBlank_suffix (cs : List Char) : dropBlank cs <:+ cs := by
  rcases skipBlank_leads false false cs Position.start with ⟨piece, hpiece, -⟩
  exact ⟨piece, hpiece.symm⟩

theorem isUnbroken_cons {c : Char} {cs : List Char} (h : isUnbroken none (c :: cs) = true) :
    c ≠ '\n' ∧ startsComment (c :: cs) = false ∧
      isUnbroken (if c = '"' ∨ c = '\'' then some (c, false) else none) cs = true := by
  simp only [isUnbroken, Bool.and_eq_true, decide_eq_true_eq, Bool.not_eq_true'] at h
  exact ⟨h.1.1.1, h.1.2, h.2⟩

/-- A text whose first character may end a name, a number or a symbol. -/
def Parts (tail : List Char) : Prop := ∀ c ∈ tail.head?, c ∈ breakers

variable {tail : List Char}

theorem parts_cons {c : Char} {cs : List Char} (hc : c ∈ breakers) : Parts (c :: cs) := by
  rintro d ⟨⟩
  exact hc

theorem Parts.breaks (h : Parts tail) : Breaks tail := by
  cases tail with
  | nil => exact .finish
  | cons c cs => exact .mark (h c rfl)

theorem startsComment_parted (h : Parts tail) (c : Char) (cs : List Char) :
    startsComment (c :: (cs ++ tail)) = startsComment (c :: cs) := by
  rw [startsComment_cons, startsComment_cons, h.breaks.any_head? (by simp [breakers])]

/-- White space is skipped in a passage as it is in the text, and at its end it is that of
    what comes behind. -/
theorem dropBlank_append (h : Parts tail) {cs : List Char} (hcs : isUnbroken none cs = true) :
    dropBlank (cs ++ tail) =
      if dropBlank cs = [] then dropBlank tail else dropBlank cs ++ tail := by
  unfold dropBlank
  -- The position is generalized, since what is skipped does not depend on it.
  generalize Position.start = p
  have hfree : (skipBlank false false tail p).rest =
      (skipBlank false false tail Position.start).rest :=
    skipBlank_rest false false tail _ _
  rw [hfree]
  clear hfree
  induction cs generalizing p with
  | nil => exact (skipBlank_rest false false tail _ _).trans (if_pos rfl).symm
  | cons c cs ih =>
      rcases isUnbroken_cons hcs with ⟨hline, hcomment, hrest⟩
      rw [List.cons_append, skipBlank, skipBlank, startsComment_parted h, hcomment]
      by_cases hblank : (isBlank c && (false || decide (c ≠ '\n'))) = true
      · rw [if_pos hblank, if_pos hblank]
        refine ih ?_ _
        have hquote : ¬(c = '"' ∨ c = '\'') := by
          rintro (rfl | rfl) <;> simp [isBlank] at hblank
        rwa [if_neg hquote] at hrest
      · rw [if_neg hblank, if_neg hblank]
        simp

/-- White space takes no quotes along. -/
theorem isUnbroken_dropBlank {cs : List Char} (hcs : isUnbroken none cs = true) :
    isUnbroken none (dropBlank cs) = true := by
  unfold dropBlank
  generalize Position.start = p
  induction cs generalizing p with
  | nil => rfl
  | cons c cs ih =>
      rcases isUnbroken_cons hcs with ⟨-, hcomment, hrest⟩
      rw [skipBlank, hcomment]
      by_cases hblank : (isBlank c && (false || decide (c ≠ '\n'))) = true
      · rw [if_pos hblank]
        refine ih ?_ _
        have hquote : ¬(c = '"' ∨ c = '\'') := by
          rintro (rfl | rfl) <;> simp [isBlank] at hblank
        rwa [if_neg hquote] at hrest
      · rw [if_neg hblank]
        exact hcs

/-! ### Tokens -/

/-- A symbol without breakers is found at the start of a text no matter what a tail behind a
    breaker holds. -/
theorem isPrefixOf_parted (h : Parts tail) {symbol : List Char}
    (hsymbol : ∀ c ∈ symbol, c ∉ breakers) (cs : List Char) :
    symbol.isPrefixOf (cs ++ tail) = symbol.isPrefixOf cs := by
  induction symbol generalizing cs with
  | nil => simp
  | cons d symbol ih =>
      have hd := hsymbol d List.mem_cons_self
      cases cs with
      | nil =>
          cases tail with
          | nil => rfl
          | cons c rest =>
              have hne : d ≠ c := fun heq => hd (heq ▸ h c rfl)
              simp [List.isPrefixOf, hne]
      | cons c cs =>
          rw [List.cons_append, List.isPrefixOf_cons_cons, List.isPrefixOf_cons_cons,
            ih fun c hc => hsymbol c (List.mem_cons_of_mem d hc)]

/-- No symbol has a character in it, behind its first, at which symbols are over. -/
theorem symbol?_parted (h : Parts tail) (c : Char) (cs : List Char) :
    symbol? (c :: (cs ++ tail)) = symbol? (c :: cs) := by
  -- The symbols of the lexer are a fixed list, and the fact is checked of each.
  have hsymbols : ∀ s ∈ Kind.symbols, ∀ c ∈ s.1.tail, c ∉ breakers := by
    simp [Kind.symbols, breakers]
  have hproper := symbols_proper
  unfold symbol?
  generalize Kind.symbols = symbols at hsymbols hproper
  induction symbols with
  | nil => rfl
  | cons s symbols ih =>
      have hfirst : s.1.isPrefixOf (c :: (cs ++ tail)) = s.1.isPrefixOf (c :: cs) := by
        have hinner := hsymbols s List.mem_cons_self
        cases hs : s.1 with
        | nil => exact absurd hs (hproper s List.mem_cons_self).1
        | cons d symbol =>
            rw [hs] at hinner
            rw [List.tail_cons] at hinner
            rw [List.isPrefixOf_cons_cons, List.isPrefixOf_cons_cons, isPrefixOf_parted h hinner]
      rw [List.find?_cons, List.find?_cons, hfirst,
        ih (fun s hs => hsymbols s (List.mem_cons_of_mem _ hs))
          fun s hs => hproper s (List.mem_cons_of_mem _ hs)]

/-- A token that is no newline is the same wherever it stands and whatever comes behind. A
    newline is left out because the lexer also skips the lines below it, and so looks past any
    tail. -/
theorem scanToken_copied (h : Parts tail) {sizeMode : Bool} {cs : List Char} {p : Position}
    {t : Token} {after : Cursor} (hscan : scanToken sizeMode cs p = (.ok t, after))
    (hend : t.kind ≠ .endOfInput) (hline : t.kind ≠ .newline) :
    ∃ used, cs = used ++ after.rest ∧
      t = ⟨t.kind, t.text, p, (p.advanceAll used).offset⟩ ∧ after.here = p.advanceAll used ∧
      ∀ q, scanToken sizeMode (cs ++ tail) q =
        (.ok ⟨t.kind, t.text, q, (q.advanceAll used).offset⟩,
          ⟨after.rest ++ tail, q.advanceAll used⟩) := by
  -- The characters that were used are found for each kind of token, and they are all it depends
  -- on.
  cases scansAs_of_scanToken hscan with
  | endOfInput => exact absurd rfl hend
  | newline => exact absurd rfl hline
  | @string quote cs text after hquote hstring =>
      rcases scanString_used hstring with ⟨used, rfl, hhere, hread⟩
      refine ⟨quote :: used, rfl, by rw [hhere]; rfl, hhere, fun q => ?_⟩
      have hscans : ScansAs sizeMode q (quote :: (used ++ (after.rest ++ tail))) _ _ :=
        .string hquote (hread q none (after.rest ++ tail) (q.advance quote) rfl)
      rw [← List.append_assoc] at hscans
      exact scanToken_of_scansAs hscans
  | @number c cs hdigit hformed =>
      refine ⟨(splitNumber (c :: cs)).text, (splitNumber_append _).symm, rfl, rfl, fun q => ?_⟩
      have hnumber := splitNumber_within h.breaks (c :: cs)
      have hscans : ScansAs sizeMode q (c :: (cs ++ tail)) _ _ :=
        .number hdigit (by rw [← List.cons_append, hnumber]; exact hformed)
      rw [← List.cons_append, hnumber] at hscans
      exact scanToken_of_scansAs hscans
  | @word c cs hname =>
      refine ⟨(splitWord sizeMode (c :: cs)).1, (splitWord_append sizeMode _).symm, rfl, rfl,
        fun q => ?_⟩
      have hscans : ScansAs sizeMode q (c :: (cs ++ tail)) _ _ := .word hname
      rw [← List.cons_append, splitWord_within h.breaks] at hscans
      exact scanToken_of_scansAs hscans
  | @symbol c cs text kind hsymbol =>
      rcases mem_of_symbol? hsymbol with ⟨-, happend⟩
      refine ⟨text, happend.symm, rfl, rfl, fun q => ?_⟩
      have hscans : ScansAs sizeMode q (c :: (cs ++ tail)) _ _ :=
        .symbol ((symbol?_parted h c cs).trans hsymbol)
      have hlength : text.length ≤ (c :: cs).length := by
        rw [← happend, List.length_append]
        exact Nat.le_add_right _ _
      rw [← List.cons_append, List.drop_append_of_le_length hlength] at hscans
      exact scanToken_of_scansAs hscans

/-! ### What is left behind a token -/

/-- A character that is no quote and no backslash. -/
def IsTame (c : Char) : Prop := c ≠ '"' ∧ c ≠ '\'' ∧ c ≠ '\\'

instance (c : Char) : Decidable (IsTame c) := inferInstanceAs (Decidable (_ ∧ _))

theorem isTame_of_digit? {radix : Nat} {c : Char} (h : digit? 16 c = some radix) : IsTame c := by
  refine ⟨?_, ?_, ?_⟩ <;> rintro rfl <;> cases h

/-- Characters that are read as hexadecimal digits are tame, so no quote and no backslash is
    among them. -/
theorem isTame_of_extendNat? {n m : Nat} {ds : List Char} (h : extendNat? 16 n ds = some m) :
    ∀ d ∈ ds, IsTame d := by
  induction ds generalizing n with
  | nil => exact List.forall_mem_nil _
  | cons d ds ih =>
      rw [extendNat?] at h
      split at h
      · rename_i value hvalue
        exact List.forall_mem_cons.2 ⟨isTame_of_digit? hvalue, ih h⟩
      · cases h

/-- The digits of a code point. -/
theorem isTame_of_scalar? {ds : List Char} {c : Char} (h : scalar? ds = some c) :
    ∀ d ∈ ds, IsTame d := by
  -- Without a sign, the digits are hexadecimal.
  have hunsigned : ∀ {cs : List Char} {n : Nat}, natInRadix? 16 cs = some n →
      ∀ d ∈ cs, IsTame d := by
    intro cs n hcs
    cases cs with
    | nil => cases hcs
    | cons d cs => exact isTame_of_extendNat? (n := 0) hcs
  unfold scalar? at h
  simp only at h
  split at h
  · rename_i n hn
    cases ds with
    | nil => exact List.forall_mem_nil _
    | cons d ds =>
        by_cases hplus : (d :: ds).head? = some '+'
        · rw [if_pos hplus] at hn
          cases hplus
          exact List.forall_mem_cons.2 ⟨by decide, hunsigned hn⟩
        · rw [if_neg hplus] at hn
          exact hunsigned hn
  · cases h

/-- Behind its closing quote a string literal is over, and so it is for `Text.isUnbroken`. That
    test knows nothing of escapes but that a backslash hides the next character, which is enough
    because the digits of a code point are tame. -/
theorem isUnbroken_of_scanString {quote : Char} {start : Position}
    {escape : Option (Position × List Char)} {text cs : List Char} {p : Position} {result : String}
    {after : Cursor} (hquote : quote = '"' ∨ quote = '\'')
    (h : scanString quote start escape text cs p = (.ok result, after)) :
    (∀ e ∈ escape, ∀ d ∈ e.2, IsTame d) ∧
      (isUnbroken (some (quote, false)) cs = true → isUnbroken none after.rest = true) := by
  -- A character that is neither a quote nor a backslash changes nothing in a string.
  have htame : ∀ c cs, IsTame c → isUnbroken (some (quote, false)) (c :: cs) =
      isUnbroken (some (quote, false)) cs := by
    intro c cs hc
    have hne : c ≠ quote := by rcases hquote with rfl | rfl <;> [exact hc.1; exact hc.2.1]
    rw [isUnbroken, if_neg hne, decide_eq_false hc.2.2]
  have hnone : ∀ e ∈ (none : Option (Position × List Char)), ∀ d ∈ e.2, IsTame d := by
    intro e he
    cases he
  -- By the recursion of the scan. The escapes are where the two readings could part.
  fun_induction scanString quote start escape text cs p with
  | case1 => cases h
  | case2 => cases h
  | case3 escape digits text cs p scalar hscalar ih =>
      refine ⟨?_, fun hcs => (ih h).2 ((htame _ _ (by decide)).symm.trans hcs)⟩
      rintro _ ⟨⟩ d hd
      exact isTame_of_scalar? hscalar d (List.mem_reverse.2 hd)
  | case4 => cases h
  | case5 escape digits text c cs p hc ih =>
      have hdigits := (ih h).1 (escape, c :: digits) rfl
      refine ⟨?_, fun hcs => (ih h).2 ?_⟩
      · rintro _ ⟨⟩ d hd
        exact hdigits d (List.mem_cons_of_mem _ hd)
      · exact (htame _ _ (hdigits c List.mem_cons_self)).symm.trans hcs
  | case6 text cs p =>
      cases h
      refine ⟨hnone, fun hcs => ?_⟩
      rwa [isUnbroken, if_pos rfl] at hcs
  | case7 => cases h
  | case8 => cases h
  | case9 text p c cs scalar hscalar hq hn ih =>
      refine ⟨hnone, fun hcs => (ih h).2 ?_⟩
      rwa [isUnbroken, if_neg hq, decide_eq_true rfl, isUnbroken] at hcs
  | case10 text p cs hq hn hu ih =>
      refine ⟨hnone, fun hcs => (ih h).2 ?_⟩
      rw [isUnbroken, if_neg hq, decide_eq_true rfl, isUnbroken] at hcs
      exact (htame _ _ (by decide)).symm.trans hcs
  | case11 => cases h
  | case12 => cases h
  | case13 => cases h
  | case14 text c cs p hq hn hb ih =>
      refine ⟨hnone, fun hcs => (ih h).2 ?_⟩
      rwa [isUnbroken, if_neg hq, decide_eq_false hb] at hcs

/-- A text without quotes leaves one unbroken that begins with it. -/
theorem isUnbroken_behind {used rest : List Char} (hused : ∀ c ∈ used, c ≠ '"' ∧ c ≠ '\'')
    (h : isUnbroken none (used ++ rest) = true) : isUnbroken none rest = true := by
  induction used with
  | nil => exact h
  | cons c used ih =>
      have hc := hused c List.mem_cons_self
      have hrest := (isUnbroken_cons h).2.2
      rw [if_neg (not_or.2 hc)] at hrest
      exact ih (fun d hd => hused d (List.mem_cons_of_mem c hd)) hrest

theorem quoteless_splitWord {sizeMode : Bool} {cs : List Char} :
    ∀ c ∈ (splitWord sizeMode cs).1, c ≠ '"' ∧ c ≠ '\'' := by
  induction cs with
  | nil => exact List.forall_mem_nil _
  | cons c cs ih =>
      unfold splitWord
      split
      · rename_i hc
        refine List.forall_mem_cons.2 ⟨?_, ih⟩
        constructor <;> rintro rfl <;> simp [isNamePart] at hc <;> revert hc <;> decide
      · exact List.forall_mem_nil _

theorem quoteless_span {q : Char → Bool} (hq : q '"' = false ∧ q '\'' = false) (cs : List Char) :
    ∀ c ∈ (cs.span q).1, c ≠ '"' ∧ c ≠ '\'' := by
  intro c hc
  rw [List.span_eq_takeWhile_dropWhile] at hc
  have hpass : q c = true := List.mem_takeWhile_imp hc
  constructor <;> rintro rfl
  · exact absurd hpass (by simp [hq.1])
  · exact absurd hpass (by simp [hq.2])

theorem quoteless_splitFraction (cs : List Char) :
    ∀ c ∈ (splitFraction cs).1, c ≠ '"' ∧ c ≠ '\'' := by
  unfold splitFraction
  split
  · split
    · exact List.forall_mem_cons.2 ⟨by decide, quoteless_span (by decide) _⟩
    · exact List.forall_mem_nil _
  · exact List.forall_mem_nil _

theorem quoteless_splitSign (cs : List Char) :
    ∀ c ∈ (splitSign cs).1, c ≠ '"' ∧ c ≠ '\'' := by
  unfold splitSign
  split
  · split
    · rename_i hsign
      refine List.forall_mem_singleton.2 ?_
      rcases hsign with rfl | rfl <;> decide
    · exact List.forall_mem_nil _
  · exact List.forall_mem_nil _

theorem quoteless_splitExponent (cs : List Char) :
    ∀ c ∈ (splitExponent cs).1, c ≠ '"' ∧ c ≠ '\'' := by
  unfold splitExponent
  split
  · split
    · rename_i e cs hmark
      dsimp only
      split
      · exact List.forall_mem_nil _
      · refine List.forall_mem_cons.2 ⟨by rcases hmark with rfl | rfl <;> decide, ?_⟩
        exact List.forall_mem_append.2 ⟨quoteless_splitSign cs, quoteless_span (by decide) _⟩
    · exact List.forall_mem_nil _
  · exact List.forall_mem_nil _

theorem quoteless_splitDecimal (cs : List Char) :
    ∀ c ∈ (splitDecimal cs).text, c ≠ '"' ∧ c ≠ '\'' := by
  unfold splitDecimal
  exact List.forall_mem_append.2 ⟨List.forall_mem_append.2
    ⟨quoteless_span (by decide) cs, quoteless_splitFraction _⟩, quoteless_splitExponent _⟩

/-- No number holds a quote, so none opens a string. -/
theorem quoteless_splitNumber (cs : List Char) :
    ∀ c ∈ (splitNumber cs).text, c ≠ '"' ∧ c ≠ '\'' := by
  unfold splitNumber
  split
  · rename_i c cs
    split
    · rename_i radix hradix
      have hc : c ≠ '"' ∧ c ≠ '\'' := by constructor <;> rintro rfl <;> cases hradix
      have hdigits : ∀ quote, quote = '"' ∨ quote = '\'' →
          (isDigitIn radix quote || decide (quote = '_')) = false := by
        have hnone : ∀ c : Char, c = '"' ∨ c = '\'' → isDigitIn radix c = false := by
          rintro c (rfl | rfl) <;> simp [isDigitIn, digit?]
        intro quote hquote
        rw [hnone quote hquote]
        rcases hquote with rfl | rfl <;> rfl
      exact List.forall_mem_append.2
        ⟨List.forall_mem_cons.2 ⟨by decide, List.forall_mem_singleton.2 hc⟩,
          quoteless_span ⟨hdigits _ (.inl rfl), hdigits _ (.inr rfl)⟩ _⟩
    · exact quoteless_splitDecimal _
  · exact quoteless_splitDecimal _

/-- Behind a token of an unbroken text, the text is unbroken. -/
theorem isUnbroken_of_scanToken {sizeMode : Bool} {cs : List Char} {p : Position} {t : Token}
    {after : Cursor} (hscan : scanToken sizeMode cs p = (.ok t, after))
    (hcs : isUnbroken none cs = true) : isUnbroken none after.rest = true := by
  cases scansAs_of_scanToken hscan with
  | endOfInput => rfl
  | newline => exact absurd rfl (isUnbroken_cons hcs).1
  | string hquote hstring =>
      have hrest := (isUnbroken_cons hcs).2.2
      rw [if_pos hquote] at hrest
      exact (isUnbroken_of_scanString hquote hstring).2 hrest
  | @number c cs hdigit hformed =>
      rw [← splitNumber_append (c :: cs)] at hcs
      exact isUnbroken_behind (quoteless_splitNumber _) hcs
  | @word c cs hname =>
      rw [← splitWord_append sizeMode (c :: cs)] at hcs
      exact isUnbroken_behind quoteless_splitWord hcs
  | @symbol c cs text kind hsymbol =>
      have hquotes : ∀ s ∈ Kind.symbols, ∀ c ∈ s.1, c ≠ '"' ∧ c ≠ '\'' := by simp [Kind.symbols]
      rcases mem_of_symbol? hsymbol with ⟨hmem, happend⟩
      rw [← happend] at hcs
      exact isUnbroken_behind (hquotes _ hmem) hcs

/-! ### Passages -/

/-- Where a character is left the text is not over, and a newline token is read at a line end
    only. -/
theorem kind_of_scansAs {sizeMode : Bool} {p : Position} {c : Char} {cs : List Char} {t : Token}
    {after : Cursor} (h : ScansAs sizeMode p (c :: cs) t after) :
    t.kind ≠ .endOfInput ∧ (t.kind = .newline → c = '\n') := by
  cases h with
  | newline => exact ⟨nofun, fun _ => rfl⟩
  | string => exact ⟨nofun, nofun⟩
  | number => exact ⟨nofun, nofun⟩
  | word =>
      exact ⟨(ofWord_proper _).1, fun hkind => absurd hkind (ofWord_proper _).2⟩
  | symbol hsymbol =>
      have hne := symbols_proper _ (mem_of_symbol? hsymbol).1
      exact ⟨hne.2.1, fun hkind => absurd hkind hne.2.2⟩

/-- A semicolon is all that is read as one. -/
theorem semicolon_of_scansAs {sizeMode : Bool} {p : Position} {c : Char} {cs : List Char}
    {t : Token} {after : Cursor} (h : ScansAs sizeMode p (c :: cs) t after)
    (hkind : t.kind = .semicolon) : c = ';' := by
  have hwords : ∀ kind ∈ Kind.identifier :: Kind.reserved.map Prod.snd, kind ≠ .semicolon := by
    decide
  have hsymbols : ∀ entry ∈ Kind.symbols, entry.2 = .semicolon → entry.1 = [';'] := by decide
  cases h with
  | newline => cases hkind
  | string => cases hkind
  | number => cases hkind
  | word => exact absurd hkind (hwords _ (ofWord_mem _))
  | symbol hsymbol =>
      rcases mem_of_symbol? hsymbol with ⟨hmem, happend⟩
      rw [hsymbols _ hmem hkind] at happend
      exact (List.cons.inj happend).1.symm

/-- One lexer finds the next token at the beginning of a text, and another one finds it at
    the beginning of the same text, with the tail behind it. Where the text is over, the
    second one finds what the tail begins with. -/
structure Copies (tail : List Char) (lx mx : Lexer) : Prop where
  mode : mx.sizeMode = lx.sizeMode
  oneLine : '\n' ∉ lx.tokenStart.rest
  unbroken : tail ≠ [] → isUnbroken none lx.tokenStart.rest = true
  rest : mx.tokenStart.rest =
    if lx.tokenStart.rest = [] then dropBlank tail else lx.tokenStart.rest ++ tail

/-- The lexers stand at the beginnings of the texts, apart from white space. -/
theorem copies_of_cursor (h : Parts tail) {lx mx : Lexer} (hmode : mx.sizeMode = lx.sizeMode)
    (hline : '\n' ∉ lx.cursor.rest) (hunbroken : tail ≠ [] → isUnbroken none lx.cursor.rest = true)
    (hrest : dropBlank mx.cursor.rest = dropBlank (lx.cursor.rest ++ tail)) :
    lx.Copies tail mx where
  mode := hmode
  oneLine hmem := by
    rw [tokenStart_rest] at hmem
    exact hline ((dropBlank_suffix _).subset hmem)
  unbroken htail := by
    rw [tokenStart_rest]
    exact isUnbroken_dropBlank (hunbroken htail)
  rest := by
    -- With no tail there is nothing to part, and otherwise the text is unbroken.
    rw [tokenStart_rest, tokenStart_rest, hrest]
    by_cases htail : tail = []
    · subst htail
      rw [List.append_nil, List.append_nil]
      split
      · rename_i hnil
        exact hnil
      · rfl
    · exact dropBlank_append h (hunbroken htail)

namespace Copies

variable {lx lx' mx : Lexer} {t : Token} {source source' : String}

theorem switched (h : lx.Copies tail mx) (sizeMode : Bool) :
    ({ lx with sizeMode } : Lexer).Copies tail { mx with sizeMode } :=
  ⟨rfl, h.oneLine, h.unbroken, h.rest⟩

/-- A copy on one line yields no token for a line end. -/
theorem ne_newline (h : lx.Copies tail mx) (hnext : lx.next = (.ok t, lx')) :
    t.kind ≠ .newline := by
  have hscans := scansAs_of_next hnext
  have hline := h.oneLine
  intro hkind
  generalize lx.tokenStart.rest = cs at hscans hline
  cases cs with
  | nil =>
      generalize lx'.cursor = after at hscans
      cases hscans
      cases hkind
  | cons c cs => exact hline ((kind_of_scansAs hscans).2 hkind ▸ List.mem_cons_self)

/-- A token is the same in the passage. -/
theorem next_ok (h : lx.Copies tail mx) (htail : Parts tail) (hlx : lx.Within source)
    (hmx : mx.Within source') (hnext : lx.next = (.ok t, lx')) (hend : t.kind ≠ .endOfInput) :
    ∃ w u mx', mx.next = (.ok u, mx') ∧ Word.Names source w t ∧ Word.Names source' w u ∧
      lx'.Copies tail mx' ∧ '\n' ∉ lx'.cursor.rest ∧
        mx'.cursor.rest = lx'.cursor.rest ++ tail := by
  have hline := h.ne_newline hnext
  rw [next_eq, Prod.mk.injEq] at hnext
  rcases hnext with ⟨hresult, rfl⟩
  have hscan : scanToken lx.sizeMode lx.tokenStart.rest lx.tokenStart.here =
    (.ok t, (scanToken lx.sizeMode lx.tokenStart.rest lx.tokenStart.here).2) := Prod.ext hresult rfl
  generalize (scanToken lx.sizeMode lx.tokenStart.rest lx.tokenStart.here).2 = after at hscan ⊢
  rcases scanToken_copied htail hscan hend hline with ⟨used, hused, ht, -, hread⟩
  have hnonempty : lx.tokenStart.rest ≠ [] := by
    intro hnil
    rw [hnil] at hscan
    cases hscan
    exact hend rfl
  have hmrest : mx.tokenStart.rest = lx.tokenStart.rest ++ tail := by rw [h.rest, if_neg hnonempty]
  -- A token is named by its kind, its text and the characters it was made of, wherever it stands.
  have hnamed : ∀ (s : String) (c : Cursor) (rest : List Char), c.Stands s.toList →
      c.rest = used ++ rest → Word.Names s ⟨t.kind, t.text, used⟩
        ⟨t.kind, t.text, c.here, (c.here.advanceAll used).offset⟩ := by
    rintro s ⟨_, here⟩ rest ⟨before, hs, rfl⟩ rfl
    have hsource : s.toList = before ++ used ++ rest := by rw [hs, List.append_assoc]
    have hnames := Word.names_token ⟨t.kind, t.text, used⟩ hsource
    rw [Word.token] at hnames
    simp only [Position.after, Position.advanceAll_append] at hnames
    exact hnames
  have honeLine : '\n' ∉ after.rest := fun hmem =>
    h.oneLine (hused ▸ List.mem_append_right used hmem)
  refine ⟨⟨t.kind, t.text, used⟩,
    ⟨t.kind, t.text, mx.tokenStart.here, (mx.tokenStart.here.advanceAll used).offset⟩,
    { mx with cursor := ⟨after.rest ++ tail, mx.tokenStart.here.advanceAll used⟩ }, ?_, ?_, ?_,
    copies_of_cursor htail h.mode honeLine (fun hne => ?_) rfl, honeLine, rfl⟩
  · rw [next_eq, hmrest, h.mode, hread]
  · rw [ht]
    exact hnamed source lx.tokenStart after.rest hlx.tokenStart hused
  · exact hnamed source' mx.tokenStart (after.rest ++ tail) hmx.tokenStart
      (by rw [hmrest, hused, List.append_assoc])
  · exact isUnbroken_of_scanToken hscan (h.unbroken hne)

/-- Where the text is over, so is the passage. -/
theorem next_end (h : lx.Copies tail mx) (hnext : lx.next = (.ok t, lx'))
    (hend : t.kind = .endOfInput) : mx.tokenStart.rest = dropBlank tail := by
  have hnil : lx.tokenStart.rest = [] := by
    have hscans := scansAs_of_next hnext
    cases hrest : lx.tokenStart.rest with
    | nil => rfl
    | cons c cs =>
        rw [hrest] at hscans
        exact absurd hend (kind_of_scansAs hscans).1
  rw [h.rest, if_pos hnil]

/-- What cannot be read cannot be read in the passage, if that is at the end. -/
theorem next_error (h : lx.Copies [] mx) {e : LexError} (hnext : lx.next = (.error e, lx')) :
    ∃ e' mx', mx.next = (.error e', mx') := by
  have hrest : mx.tokenStart.rest = lx.tokenStart.rest := by
    rw [h.rest, List.append_nil]
    split
    · rename_i hnil
      exact hnil.symm
    · rfl
  cases hmx : mx.next with
  | mk result mx' =>
  cases result with
  | error e' => exact ⟨e', mx', rfl⟩
  | ok u =>
      -- The places do not matter: what can be read in the passage can be read in the text.
      exfalso
      rw [next_eq, Prod.mk.injEq] at hnext hmx
      rw [hrest, h.mode] at hmx
      have hread : ∃ v after, scanToken lx.sizeMode lx.tokenStart.rest lx.tokenStart.here =
          (.ok v, after) := by
        have hscan : scanToken lx.sizeMode lx.tokenStart.rest mx.tokenStart.here = (.ok u, _) :=
          Prod.ext hmx.1 rfl
        have hline := h.oneLine
        cases hcs : lx.tokenStart.rest with
        | nil => exact ⟨_, _, rfl⟩
        | cons c cs =>
            rw [hcs] at hscan hline
            have hscans := scansAs_of_scanToken hscan
            have hnothing : Parts [] := nofun
            rcases scanToken_copied hnothing hscan (kind_of_scansAs hscans).1
              fun hkind => hline ((kind_of_scansAs hscans).2 hkind ▸ List.mem_cons_self) with
              ⟨used, -, -, -, hread⟩
            have hsame := hread lx.tokenStart.here
            rw [List.append_nil] at hsame
            exact ⟨_, _, hsame⟩
      rcases hread with ⟨v, after, hread⟩
      rw [hread] at hnext
      cases hnext.1

/-- At the end of a passage, the kinds of the tokens are those of the text. -/
theorem yields {ts : List Token}
    {r : Option LexError} (h : lx.Copies [] mx) (hlx : lx.Within source) (hmx : mx.Within source')
    (hyields : lx.Yields ts r) :
    ∃ us q, mx.Yields us q ∧ us.map Token.kind = ts.map Token.kind := by
  induction hyields generalizing mx with
  | @done lx lx' t hnext hend =>
      have hnil : mx.tokenStart.rest = [] := h.next_end hnext (of_decide_eq_true hend)
      have hend' : mx.next = (.ok (Token.endAt mx.tokenStart.here),
          ⟨mx.source, ⟨[], mx.tokenStart.here⟩, mx.sizeMode⟩) := by
        rw [next_eq, hnil]
        rfl
      exact ⟨[], none, .done hend' rfl, rfl⟩
  | fail hnext =>
      rcases h.next_error hnext with ⟨e, mx', hfail⟩
      exact ⟨[], some e, .fail hfail, rfl⟩
  | @token lx lx' t ts r hnext hend _ ih =>
      -- The tail is empty, so no condition on it is left.
      have hnothing : Parts [] := nofun
      rcases h.next_ok hnothing hlx hmx hnext (of_decide_eq_false hend) with
        ⟨w, u, mx', hnext', ht, hu, hcopies, -, -⟩
      have hkind : u.kind = t.kind := hu.kind.trans ht.kind.symm
      rcases ih hcopies (hlx.next_ok hnext) (hmx.next_ok hnext') with ⟨us, q, hus, hkinds⟩
      refine ⟨u :: us, q, .token hnext' ?_ hus, ?_⟩
      · rw [Token.isEnd, hkind]
        exact hend
      · rw [List.map_cons, List.map_cons, hkind, hkinds]

end Copies

end Lexer

end PolyScript
