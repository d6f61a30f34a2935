import Mathlib.Data.Nat.Digits.Defs
import PolyScript.Proofs.PrintedPatterns

/-!
# String Literals

Which texts are string literals, and what they denote. A literal is a row of items between
two quotes of one kind. An item is a character that has no meaning of its own, an escape of
one letter, or a code point in hexadecimal digits between braces. The lexer reads exactly
these. It decides on one of them character by character, so it is not obvious that nothing
else gets through: the digits of a code point, for one, are whatever stands before the next
brace, quotes and line ends included, and only then are they read as a number.

One thing does get through. A number may be read with a plus sign before it, and so
`\u{+41}` is taken for a letter, although its digits are no hexadecimal digits. The grammar
keeps account of this. `IsStringLiteral` says of a literal whether a sign occurs in it; those
without a sign are the literals of the lexical rules, and what the lexer reads beyond them
has a sign.

No text begins with two literals. That is no separate argument: the lexer reads a literal
where one stands, and it reads one thing only.

## Main definitions

* `Lexer.IsStringItem`, `Lexer.IsStringLiteral`: The grammar of string literals.
* `Lexer.Opens`: A literal at the front of what a lexer has not read.

## Theorems

* `Text.natInRadix?_eq_some_iff`, `Text.scalar?_eq_some_iff`: What digits denote.
* `Lexer.IsStringBody.scan`: A literal is read as what it denotes.
* `Lexer.isStringBody_of_scanString`: What is read is a literal.
* `Lexer.string_literals_exact`: The lexer reads string literals and nothing else.
-/

namespace PolyScript

namespace Text

/-- Each digit has its value. -/
abbrev Digits (radix : Nat) (digits : List Char) (values : List Nat) : Prop :=
  List.Forall₂ (fun d v => digit? radix d = some v) digits values

/-- A number is extended by characters exactly if all of them are digits of the radix, and then
    to what positional notation makes of their values. -/
theorem extendNat?_eq_some_iff {radix m n : Nat} {digits : List Char} :
    extendNat? radix m digits = some n ↔
      ∃ values, Digits radix digits values ∧
        n = values.foldl (fun number v => number * radix + v) m := by
  induction digits generalizing m with
  | nil => simp [extendNat?, Digits, eq_comm]
  | cons d ds ih =>
      rw [extendNat?]
      constructor
      · intro h
        split at h
        · rename_i v hv
          rcases ih.1 h with ⟨values, hvalues, hn⟩
          exact ⟨v :: values, .cons hv hvalues, hn⟩
        · cases h
      · rintro ⟨_, ⟨⟩ | ⟨hv, hvalues⟩, hn⟩
        simp only [hv]
        exact ih.2 ⟨_, hvalues, hn⟩

/-- A run of digits denotes a number in the usual way, the last digit counting least. -/
theorem natInRadix?_eq_some_iff {radix n : Nat} {digits : List Char} :
    natInRadix? radix digits = some n ↔
      digits ≠ [] ∧ ∃ values, Digits radix digits values ∧
        n = Nat.ofDigits radix values.reverse := by
  have hvalue : ∀ values : List Nat,
      Nat.ofDigits radix values.reverse =
        values.foldl (fun number v => number * radix + v) 0 := by
    intro values
    rw [Nat.ofDigits_eq_foldr, List.foldr_reverse]
    congr 1
    funext number v
    rw [Nat.cast_id, Nat.add_comm, Nat.mul_comm]
  simp only [hvalue]
  cases digits with
  | nil => simp [natInRadix?]
  | cons d ds => simp [natInRadix?, extendNat?_eq_some_iff]

/-- The sign before the digits of a code point, or none. -/
def signMark (signed : Bool) : List Char := if signed then ['+'] else []

theorem Digits.head?_ne_plus {digits : List Char} {values : List Nat}
    (h : Digits 16 digits values) : digits.head? ≠ some '+' := by
  rcases h with _ | ⟨hd, _⟩
  · nofun
  · rintro ⟨⟩
    cases hd

theorem toNat_ofNat_of_valid {n : Nat} (h : n.isValidChar) : (Char.ofNat n).toNat = n := by
  rw [Char.ofNat, dif_pos h]
  rfl

/-- A code point is a number in hexadecimal digits, with a plus sign or without. -/
theorem scalar?_eq_some_iff {cs : List Char} {c : Char} :
    scalar? cs = some c ↔
      ∃ signed digits values, cs = signMark signed ++ digits ∧ digits ≠ [] ∧
        Digits 16 digits values ∧ c.toNat = Nat.ofDigits 16 values.reverse := by
  -- A number that is no code point has no character, and a character has just one code point.
  have hnumber : scalar? cs = some c ↔
      natInRadix? 16 (if cs.head? = some '+' then cs.tail else cs) = some c.toNat := by
    simp only [scalar?]
    split
    · rename_i n hn
      rw [hn, Option.ite_none_right_eq_some, Option.some.injEq, Option.some.injEq]
      constructor
      · rintro ⟨hvalid, rfl⟩
        exact (toNat_ofNat_of_valid hvalid).symm
      · rintro rfl
        exact ⟨c.valid, Char.ofNat_toNat c⟩
    · rename_i hn
      rw [hn]
      simp
  rw [hnumber, natInRadix?_eq_some_iff]
  constructor
  · rintro ⟨hne, values, hvalues, hc⟩
    by_cases hplus : cs.head? = some '+'
    · rw [if_pos hplus] at hne hvalues
      obtain ⟨ds, rfl⟩ : ∃ ds, cs = '+' :: ds := List.head?_eq_some_iff.1 hplus
      exact ⟨true, ds, values, rfl, hne, hvalues, hc⟩
    · rw [if_neg hplus] at hne hvalues
      exact ⟨false, cs, values, rfl, hne, hvalues, hc⟩
  · rintro ⟨signed, digits, values, rfl, hne, hvalues, hc⟩
    -- The digits begin with no sign, so the sign is taken off exactly if it was put there.
    have hdigits : (if (signMark signed ++ digits).head? = some '+'
        then (signMark signed ++ digits).tail else signMark signed ++ digits) = digits := by
      cases signed with
      | true => rfl
      | false => exact if_neg hvalues.head?_ne_plus
    rw [hdigits]
    exact ⟨hne, values, hvalues, hc⟩

end Text

namespace Lexer

/-! ### The grammar -/

/-- The escapes of one letter and the characters that they denote. -/
def letterEscapes : List (Char × Char) :=
  [('n', '\n'), ('t', '\t'), ('r', '\r'), ('0', '\x00'), ('\\', '\\'), ('"', '"'), ('\'', '\'')]

/-- An item between quotes of one kind: how it is written, and which character it denotes.
    The flag says whether it is a code point with a sign. -/
inductive IsStringItem (quote : Char) : Bool → List Char → Char → Prop
  | plain {c : Char} : c ≠ quote → c ≠ '\\' → c ≠ '\n' → IsStringItem quote false [c] c
  | letter {e c : Char} : (e, c) ∈ letterEscapes → IsStringItem quote false ['\\', e] c
  | codePoint {signed : Bool} {digits : List Char} {values : List Nat} {c : Char} :
    digits ≠ [] → Text.Digits 16 digits values → c.toNat = Nat.ofDigits 16 values.reverse →
    IsStringItem quote signed
      (['\\', 'u', '\x7b'] ++ (Text.signMark signed ++ digits) ++ ['\x7d']) c

/-- Items in a row, and the characters that they denote. The flag says whether there is a
    sign in one of them. -/
inductive IsStringBody (quote : Char) : Bool → List Char → List Char → Prop
  | nil : IsStringBody quote false [] []
  | cons {signed more : Bool} {item body chars : List Char} {c : Char} :
    IsStringItem quote signed item c → IsStringBody quote more body chars →
    IsStringBody quote (signed || more) (item ++ body) (c :: chars)

/-- A string literal: how it is written, and the text that it denotes. -/
def IsStringLiteral (quote : Char) (signed : Bool) (written : List Char) (text : String) : Prop :=
  ∃ body, IsStringBody quote signed body text.toList ∧ written = quote :: (body ++ [quote])

/-- What is left to read of a literal: items, or else the end of a code point whose first
    digits have been read, and items. -/
inductive IsStringRest (quote : Char) : Option (List Char) → List Char → List Char → Prop
  | items {signed : Bool} {body chars : List Char} : IsStringBody quote signed body chars →
    IsStringRest quote none body chars
  | digits {signed : Bool} {read digits body chars : List Char} {c : Char} :
    '\x7d' ∉ digits → Text.scalar? (read.reverse ++ digits) = some c →
    IsStringBody quote signed body chars →
    IsStringRest quote (some read) (digits ++ '\x7d' :: body) (c :: chars)

/-- The escapes of one letter are those of the table. -/
theorem escaped?_eq_some_iff {e c : Char} : escaped? e = some c ↔ (e, c) ∈ letterEscapes := by
  constructor
  · intro h
    unfold escaped? at h
    split_ifs at h with hn ht hr h0 hself
    · cases h; subst hn; decide
    · cases h; subst ht; decide
    · cases h; subst hr; decide
    · cases h; subst h0; decide
    · cases h
      rcases hself with rfl | rfl | rfl <;> decide
  · intro h
    have hall : ∀ entry ∈ letterEscapes, escaped? entry.1 = some entry.2 := by decide
    exact hall _ h

/-! ### Literals are read -/

variable {quote : Char}

/-- The digits of a code point are gathered up to the closing brace. -/
theorem scanString_digits (start escape : Position) (text : List Char) {digits : List Char}
    (h : '\x7d' ∉ digits) (read cs : List Char) (p : Position) :
    scanString quote start (some (escape, read)) text (digits ++ cs) p =
      scanString quote start (some (escape, digits.reverse ++ read)) text cs
        (p.advanceAll digits) := by
  induction digits generalizing read p with
  | nil => rfl
  | cons d ds ih =>
      rw [List.mem_cons, not_or] at h
      rw [List.cons_append, scanString, if_neg (Ne.symm h.1), ih h.2, List.reverse_cons,
        List.append_assoc]
      rfl

theorem brace_not_mem {signed : Bool} {digits : List Char} {values : List Nat}
    (h : Text.Digits 16 digits values) : '\x7d' ∉ Text.signMark signed ++ digits := by
  rw [List.mem_append, not_or]
  refine ⟨by cases signed <;> decide, fun hmem => ?_⟩
  rcases List.forall₂_iff_get.1 h with ⟨hlength, hget⟩
  rcases List.mem_iff_get.1 hmem with ⟨i, hi⟩
  have hvalue := hget i i.isLt (hlength ▸ i.isLt)
  rw [show digits.get ⟨i, i.isLt⟩ = '\x7d' from hi] at hvalue
  cases hvalue

/-- An item is read as the character that it denotes. -/
theorem IsStringItem.scan {signed : Bool} {item : List Char} {c : Char}
    (hquote : quote = '"' ∨ quote = '\'') (h : IsStringItem quote signed item c)
    (start : Position) (text cs : List Char) (p : Position) :
    scanString quote start none text (item ++ cs) p =
      scanString quote start none (c :: text) cs (p.advanceAll item) := by
  have hslash : quote ≠ '\\' := by rcases hquote with rfl | rfl <;> decide
  cases h with
  | plain hc hslash hline =>
      rw [List.singleton_append]
      conv => lhs; unfold scanString
      rw [if_neg hc, if_neg hline, if_neg hslash]
      rfl
  | letter he => exact scanString_escape hslash (escaped?_eq_some_iff.2 he) start text cs p
  | @codePoint signed digits values c hne hdigits hc =>
      -- An opening brace puts the scan into the state in which digits are collected.
      have hopen : ∀ rest,
          scanString quote start none text ('\\' :: 'u' :: '\x7b' :: rest) p =
            scanString quote start (some (p, [])) text rest
              (((p.advance '\\').advance 'u').advance '\x7b') := by
        intro rest
        conv => lhs; unfold scanString
        rw [if_neg hslash.symm, if_neg (by decide), if_pos rfl]
        rfl
      have hscalar : Text.scalar? (Text.signMark signed ++ digits) = some c :=
        Text.scalar?_eq_some_iff.2 ⟨signed, digits, values, rfl, hne, hdigits, hc⟩
      rw [List.append_assoc, List.append_assoc, List.cons_append, List.cons_append,
        List.singleton_append, hopen, scanString_digits start p text (brace_not_mem hdigits),
        List.append_nil, List.singleton_append, scanString, if_pos rfl, List.reverse_reverse,
        hscalar]
      simp

/-- A row of items is read up to the quote behind it. -/
theorem IsStringBody.scan {signed : Bool} {body chars : List Char}
    (hquote : quote = '"' ∨ quote = '\'') (h : IsStringBody quote signed body chars)
    (start : Position) (text rest : List Char) (p : Position) :
    scanString quote start none text (body ++ quote :: rest) p =
      (.ok (String.ofList (text.reverse ++ chars)), ⟨rest, p.advanceAll (body ++ [quote])⟩) := by
  induction h generalizing text p with
  | nil =>
      rw [List.nil_append, List.append_nil]
      unfold scanString
      rw [if_pos rfl]
      rfl
  | @cons _ _ item body chars c hitem _ ih =>
      rw [List.append_assoc, hitem.scan hquote, ih, List.reverse_cons, List.append_assoc,
        List.singleton_append, ← Position.advanceAll_append, List.append_assoc]

/-! ### What is read is a literal -/

/-- What is read of a literal, up to the quote that closes it. The scanner may be in the middle
    of an escape, so what is left is described together with the digits that it has already. -/
theorem isStringRest_of_scanString {start : Position} {escape : Option (Position × List Char)}
    {text cs : List Char} {p : Position} {result : String} {after : Cursor}
    (h : scanString quote start escape text cs p = (.ok result, after)) :
    ∃ written chars, IsStringRest quote (escape.map Prod.snd) written chars ∧
      cs = written ++ quote :: after.rest ∧ result = String.ofList (text.reverse ++ chars) := by
  -- By induction along the scan. The items are found from the last one on, so each step puts
  -- one before those of the rest.
  fun_induction scanString quote start escape text cs p with
  | case1 => cases h
  | case2 => cases h
  | case3 escape read text cs p scalar hscalar ih =>
      rcases ih h with ⟨written, chars, ⟨hbody⟩, rfl, hresult⟩
      have hread : Text.scalar? (read.reverse ++ []) = some scalar := by simpa using hscalar
      refine ⟨_, _, .digits List.not_mem_nil hread hbody, rfl, ?_⟩
      simpa using hresult
  | case4 => cases h
  | case5 escape read text c cs p hc ih =>
      rcases ih h with ⟨_, chars, hrest, hcs, hresult⟩
      cases hrest with
      | @digits _ _ digits body chars scalar hmem hscalar hbody =>
          have hmore : '\x7d' ∉ c :: digits := List.not_mem_cons_of_ne_of_not_mem (Ne.symm hc) hmem
          have hread : Text.scalar? (read.reverse ++ c :: digits) = some scalar := by
            simpa using hscalar
          exact ⟨_, _, .digits hmore hread hbody, congrArg (c :: ·) hcs, hresult⟩
  | case6 =>
      cases h
      exact ⟨[], [], .items .nil, rfl, by simp⟩
  | case7 => cases h
  | case8 => cases h
  | case9 text p e cs scalar hscalar hq hn ih =>
      rcases ih h with ⟨written, chars, ⟨hbody⟩, rfl, hresult⟩
      refine ⟨_, _, .items (.cons (.letter (escaped?_eq_some_iff.1 hscalar)) hbody), rfl, ?_⟩
      simpa using hresult
  | case10 text p cs hq hn hu ih =>
      rcases ih h with ⟨_, chars, hrest, hcs, hresult⟩
      cases hrest with
      | @digits _ _ digits body chars c hmem hscalar hbody =>
          rcases Text.scalar?_eq_some_iff.1 hscalar with
            ⟨signed, digits, values, rfl, hne, hvalues, hc⟩
          have hitem : IsStringItem quote signed _ c := .codePoint hne hvalues hc
          refine ⟨_, _, .items (.cons hitem hbody), ?_, hresult⟩
          simp [hcs]
  | case11 => cases h
  | case12 => cases h
  | case13 => cases h
  | case14 text c cs p hq hn hb ih =>
      rcases ih h with ⟨written, chars, ⟨hbody⟩, rfl, hresult⟩
      refine ⟨_, _, .items (.cons (.plain hq hb hn) hbody), rfl, ?_⟩
      simpa using hresult

/-- What is scanned as a string is the body of one, and the closing quote behind it. -/
theorem isStringBody_of_scanString {start : Position} {cs : List Char} {p : Position}
    {result : String} {after : Cursor}
    (h : scanString quote start none [] cs p = (.ok result, after)) :
    ∃ signed body, IsStringBody quote signed body result.toList ∧
      cs = body ++ quote :: after.rest := by
  rcases isStringRest_of_scanString h with ⟨body, chars, hrest, hcs, rfl⟩
  cases hrest with
  | @items signed _ _ hbody =>
      refine ⟨signed, body, ?_, hcs⟩
      rw [String.toList_ofList]
      exact hbody

/-! ### Tokens -/

/-- What a lexer has not read begins with a literal, and this is the token of the literal,
    with the lexer behind it. -/
def Opens (lx : Lexer) (quote : Char) (signed : Bool) (t : Token) (lx' : Lexer) : Prop :=
  ∃ written rest text, lx.cursor.rest = written ++ rest ∧
    IsStringLiteral quote signed written text ∧
    t = ⟨.string, text, lx.location, (lx.location.advanceAll written).offset⟩ ∧
    lx' = { lx with cursor := ⟨rest, lx.location.advanceAll written⟩ }

/-- At a quote a string literal is scanned. -/
theorem next_quote {lx : Lexer} {tail : List Char} (hquote : quote = '"' ∨ quote = '\'')
    (hrest : lx.cursor.rest = quote :: tail) :
    lx.next =
      match scanString quote lx.location none [] tail (lx.location.advance quote) with
      | (.ok text, after) =>
        (.ok ⟨.string, text, lx.location, after.here.offset⟩, { lx with cursor := after })
      | (.error e, after) => (.error e, { lx with cursor := after }) := by
  have hstart : lx.tokenStart = lx.cursor := by
    have hopens : opensWord quote = true := by rcases hquote with rfl | rfl <;> rfl
    rw [tokenStart, hrest, skipBlank_opensWord hopens, ← hrest]
  have hline : ¬quote = '\n' := by rcases hquote with rfl | rfl <;> decide
  rw [next_eq, hstart, hrest]
  simp only [scanToken, if_neg hline, if_pos hquote, location]
  rcases scanString quote lx.cursor.here none [] tail (lx.cursor.here.advance quote) with
    ⟨_ | _, _⟩ <;> rfl

/-- A literal is read as a token, and the lexer moves behind it. -/
theorem Opens.next {lx lx' : Lexer} {signed : Bool} {t : Token}
    (hquote : quote = '"' ∨ quote = '\'') (h : lx.Opens quote signed t lx') :
    lx.next = (.ok t, lx') := by
  rcases h with ⟨written, rest, text, hrest, ⟨body, hbody, rfl⟩, rfl, rfl⟩
  have htail : quote :: (body ++ [quote]) ++ rest = quote :: (body ++ quote :: rest) := by simp
  rw [htail] at hrest
  rw [next_quote hquote hrest, hbody.scan hquote, List.reverse_nil, List.nil_append,
    String.ofList_toList]
  rfl

/-- The lexer reads string literals exactly. Where a quote comes next, it yields a token if
    and only if what is left of the text begins with a literal; then it yields the token that
    spans the literal and has the text that the literal denotes. Unless that literal has a sign
    in it, it is one by the lexical rules. No text begins with two literals, and where there
    is none, a string is unterminated or an escape is invalid. -/
theorem string_literals_exact (lx : Lexer) (quote : Char) (tail : List Char)
    (hquote : quote = '"' ∨ quote = '\'') (hrest : lx.cursor.rest = quote :: tail) :
    (∀ t lx', lx.next = (.ok t, lx') ↔ ∃ signed, lx.Opens quote signed t lx') ∧
      ((∀ t lx', ¬lx.Opens quote true t lx') →
        ∀ t lx', lx.next = (.ok t, lx') ↔ lx.Opens quote false t lx') ∧
      (∀ written text signed written' text' signed' rest rest',
        lx.cursor.rest = written ++ rest → IsStringLiteral quote signed written text →
        lx.cursor.rest = written' ++ rest' → IsStringLiteral quote signed' written' text' →
        written = written' ∧ text = text') ∧
      ∀ e lx', lx.next = (.error e, lx') →
        e = .unterminatedString lx.location ∨ ∃ sequence p, e = .invalidEscape sequence p := by
  have hexact : ∀ t lx', lx.next = (.ok t, lx') ↔ ∃ signed, lx.Opens quote signed t lx' := by
    intro t lx'
    refine ⟨fun hnext => ?_, fun ⟨signed, hopens⟩ => hopens.next hquote⟩
    rw [next_quote hquote hrest] at hnext
    have hleads := scanString_leads quote lx.location none [] tail (lx.location.advance quote)
    rcases hscan : scanString quote lx.location none [] tail (lx.location.advance quote) with
      ⟨_ | text, after⟩
    · rw [hscan] at hnext
      cases hnext
    · rw [hscan] at hnext hleads
      cases hnext
      rcases isStringBody_of_scanString hscan with ⟨signed, body, hbody, rfl⟩
      rcases hleads with ⟨used, hused, hhere⟩
      -- The place behind the literal is known from what was read, and that is the literal.
      have hwritten : body ++ [quote] = used := by
        have hboth : body ++ [quote] ++ after.rest = used ++ after.rest := by
          rw [List.append_assoc]
          exact hused
        exact List.append_cancel_right hboth
      have hplace : lx.location.advanceAll (quote :: (body ++ [quote])) = after.here := by
        rw [hhere, hwritten]
        rfl
      refine ⟨signed, quote :: (body ++ [quote]), after.rest, text, ?_, ⟨body, hbody, rfl⟩, ?_, ?_⟩
      · rw [hrest]
        simp
      · rw [hplace]
      · rw [hplace]
  refine ⟨hexact, fun hunsigned t lx' => ?_, ?_, fun e lx' hnext => ?_⟩
  · rw [hexact]
    constructor
    · rintro ⟨_ | _, hopens⟩
      · exact hopens
      · exact absurd hopens (hunsigned t lx')
    · exact fun hopens => ⟨false, hopens⟩
  · intro written text signed written' text' signed' rest rest' hw hliteral hw' hliteral'
    have hopens : lx.Opens quote signed _ _ := ⟨written, rest, text, hw, hliteral, rfl, rfl⟩
    have hopens' : lx.Opens quote signed' _ _ := ⟨written', rest', text', hw', hliteral', rfl, rfl⟩
    have hsame := (hopens.next hquote).symm.trans (hopens'.next hquote)
    simp only [Prod.mk.injEq, Except.ok.injEq, Token.mk.injEq, Lexer.mk.injEq,
      Cursor.mk.injEq] at hsame
    refine ⟨?_, hsame.1.2.1⟩
    rw [hw, hsame.2.2.1.1] at hw'
    exact List.append_cancel_right hw'
  · rw [next_quote hquote hrest] at hnext
    have herror := @scanString_error quote lx.location none [] tail (lx.location.advance quote)
    rcases hscan : scanString quote lx.location none [] tail (lx.location.advance quote) with
      ⟨_ | text, after⟩
    · rw [hscan] at hnext herror
      cases hnext
      rcases herror rfl with he | ⟨sequence, p, he, _⟩
      · exact .inl he
      · exact .inr ⟨sequence, p, he⟩
    · rw [hscan] at hnext
      cases hnext

theorem string_literals_exact_escapes :
    ('\'' = '"' ∨ '\'' = '\'') ∧
      (Lexer.ofSource "'\\u\x7b1F600\x7d\\'' x").cursor.rest =
        '\'' :: "\\u\x7b1F600\x7d\\'' x".toList ∧
      ∃ signed lx', (Lexer.ofSource "'\\u\x7b1F600\x7d\\'' x").Opens '\'' signed
        ⟨.string, "😀'", Position.start, 13⟩ lx' := by
  have hrest : (Lexer.ofSource "'\\u\x7b1F600\x7d\\'' x").cursor.rest =
      '\'' :: "\\u\x7b1F600\x7d\\'' x".toList := by decide +kernel
  have htoken : (Lexer.ofSource "'\\u\x7b1F600\x7d\\'' x").next.1 =
      .ok ⟨.string, "😀'", Position.start, 13⟩ := by decide +kernel
  rcases hnext : (Lexer.ofSource "'\\u\x7b1F600\x7d\\'' x").next with ⟨result, lx'⟩
  rw [hnext] at htoken
  cases htoken
  rcases ((string_literals_exact _ _ _ (.inr rfl) hrest).1 _ _).1 hnext with ⟨signed, hopens⟩
  exact ⟨.inr rfl, hrest, signed, _, hopens⟩

/-- A code point with a plus sign is read, although no text that begins so begins with a
    literal by the lexical rules. -/
theorem signed_code_point_read :
    (Lexer.ofSource "\"\\u\x7b+41\x7d\"").next.1 = .ok ⟨.string, "A", Position.start, 9⟩ ∧
      ∀ written rest text, "\"\\u\x7b+41\x7d\"".toList = written ++ rest →
        ¬IsStringLiteral '"' false written text := by
  refine ⟨by decide +kernel, ?_⟩
  rintro written rest text hsource ⟨body, hbody, rfl⟩
  have hbegins : ['\\', 'u', '\x7b', '+', '4', '1', '\x7d', '"'] = body ++ '"' :: rest := by
    simpa using hsource
  generalize text.toList = chars at hbody
  generalize hsigned : false = signed at hbody
  -- The text begins with a backslash, so only an escape could be the first item, and none fits.
  cases hbody with
  | nil => cases hbegins
  | @cons first _ item _ _ c hitem _ =>
      obtain rfl : first = false := (Bool.or_eq_false_iff.1 hsigned.symm).1
      cases hitem with
      | plain _ hslash => exact hslash (List.cons.inj hbegins).1.symm
      | @letter e c he =>
          have hall : ∀ entry ∈ letterEscapes, entry.1 ≠ 'u' := by decide
          exact hall _ he (List.cons.inj (List.cons.inj hbegins).2).1.symm
      | @codePoint _ digits values c hne hdigits =>
          cases digits with
          | nil => exact hne rfl
          | cons d ds =>
              have hdrop := congrArg (List.drop 3) hbegins
              have hplus : '+' = d := (List.cons.inj hdrop).1
              exact hdigits.head?_ne_plus (congrArg some hplus.symm)

end Lexer

end PolyScript
