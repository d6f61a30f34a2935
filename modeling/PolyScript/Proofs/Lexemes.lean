import PolyScript.Proofs.Spelling

/-!
# Names, Numbers and Strings by Themselves

What the lexer cuts out of a text it also finds when it is given the piece alone. A name
and a number end where they end because of the character behind them, and the end of the
text does the same; a string literal ends at its quote.

So every token that a parse comes upon can be written down again. `Token.Form` says what
there is to know about the token for that: nothing if it is a symbol or has no spelling,
and otherwise that its spelling is a lexeme. The size mode of the lexer makes no
difference, because the names that it finds in this mode have no dashes.

## Main definitions

* `Token.Form`: What kind of token it is, and what its spelling is like.

## Theorems

* `Lexer.splitWord_alone`, `Lexer.splitNumber_alone`: Pieces that are cut out.
* `Token.IsOf.form`: The form of the tokens of a text.
-/

namespace PolyScript

namespace Lexer

variable {cs : List Char}

/-! ### Names -/

/-- A name that is cut out of a text, in either mode, is a name by itself. -/
theorem splitWord_alone (sizeMode : Bool) (cs : List Char) :
    splitWord false (splitWord sizeMode cs).1 = ((splitWord sizeMode cs).1, []) := by
  fun_induction splitWord sizeMode cs with
  | case1 => rfl
  | case2 c cs hpart word rest heq ih =>
      have hcontinues : (isNamePart c || (c = '-' && !false && word.head?.any Text.isAlphabetic)) =
          true := by
        rw [Bool.or_eq_true] at hpart ⊢
        refine hpart.imp_right fun hdash => ?_
        simp only [Bool.and_eq_true, decide_eq_true_eq] at hdash
        rcases hdash with ⟨⟨rfl, -⟩, hletter⟩
        -- The letter behind a dash belongs to the name, so it is still there.
        cases cs with
        | nil => cases hletter
        | cons d cs =>
            have hletter : Text.isAlphabetic d = true := hletter
            have hd : isNamePart d = true :=
              isNamePart_of_isNameStart (by rw [isNameStart, hletter, Bool.true_or])
            rw [splitWord_part hd, Prod.mk.injEq] at heq
            rw [← heq.1]
            simpa using hletter
      rw [heq] at ih
      rw [splitWord, hcontinues, if_pos rfl, ih]
  | case3 => rfl

/-- It begins as the text does. -/
theorem splitWord_start {sizeMode : Bool} {c : Char} (h : isNameStart c = true) :
    (splitWord sizeMode (c :: cs)).1.head?.any isNameStart = true := by
  rw [splitWord_part (isNamePart_of_isNameStart h)]
  exact h

/-! ### Numbers -/

theorem span_takeWhile (p : Char → Bool) (cs rest : List Char) (h : rest.head?.any p = false) :
    (cs.takeWhile p ++ rest).span p = (cs.takeWhile p, rest) := by
  rw [span_append h, List.span_eq_takeWhile_dropWhile, List.takeWhile_idem,
    List.dropWhile_eq_nil_iff.2 fun c hc => List.mem_takeWhile_imp hc, List.nil_append]

/-- An exponent, or nothing. -/
inductive IsExponent : List Char → Prop
  | none : IsExponent []
  | some {e : Char} {sign digits : List Char} : e = 'e' ∨ e = 'E' →
    sign = [] ∨ sign = ['+'] ∨ sign = ['-'] → digits ≠ [] → (∀ d ∈ digits, d.isDigit = true) →
    IsExponent (e :: sign ++ digits)

/-- A fraction, or nothing. -/
inductive IsFraction : List Char → Prop
  | none : IsFraction []
  | some {d : Char} {digits : List Char} : d.isDigit = true →
    (∀ c ∈ digits, isDecimalPart c = true) → IsFraction ('.' :: d :: digits)

/-- What is split off as an exponent is one, or nothing. The sign counts only if a digit follows
    it, which is why the cases look two characters ahead. -/
theorem isExponent_splitExponent (cs : List Char) : IsExponent (splitExponent cs).1 := by
  unfold splitExponent
  split
  · rename_i e cs
    split
    · rename_i he
      have hsign : (splitSign cs).1 = [] ∨ (splitSign cs).1 = ['+'] ∨ (splitSign cs).1 = ['-'] := by
        unfold splitSign
        split
        · split
          · rename_i hc
            rcases hc with rfl | rfl
            · exact .inr (.inl rfl)
            · exact .inr (.inr rfl)
          · exact .inl rfl
        · exact .inl rfl
      simp only [List.span_eq_takeWhile_dropWhile]
      split
      · exact .none
      · rename_i hdigits
        exact .some he hsign (by simpa using hdigits) fun d hd => List.mem_takeWhile_imp hd
    · exact .none
  · exact .none

/-- Digits end at an exponent. -/
theorem IsExponent.ends (h : IsExponent cs) : cs.head?.any isDecimalPart = false := by
  cases h with
  | none => rfl
  | some he => rcases he with rfl | rfl <;> rfl

/-- An exponent is split off whole. -/
theorem IsExponent.split (h : IsExponent cs) : splitExponent cs = (cs, []) := by
  cases h with
  | none => rfl
  | @some e sign digits he hsign hdigits hall =>
      have hspan : digits.span Char.isDigit = (digits, []) := by
        rw [List.span_eq_takeWhile_dropWhile, List.takeWhile_eq_self_iff.2 hall,
          List.dropWhile_eq_nil_iff.2 hall]
      -- The digits do not begin with a sign.
      have hsplit : splitSign (sign ++ digits) = (sign, digits) := by
        rcases hsign with rfl | rfl | rfl
        · cases digits with
          | nil => rfl
          | cons d digits =>
              have hd := hall d List.mem_cons_self
              refine if_neg ?_
              rintro (rfl | rfl) <;> cases hd
        · rfl
        · rfl
      rw [List.cons_append, splitExponent, if_pos he, hsplit]
      simp only [hspan, List.isEmpty_eq_false_iff.2 hdigits, Bool.false_eq_true, if_false]
      rfl

/-- What is split off as a fraction is one, or nothing. -/
theorem isFraction_splitFraction (cs : List Char) : IsFraction (splitFraction cs).1 := by
  unfold splitFraction
  split
  · rename_i d cs
    split
    · rename_i hd
      have hpart : isDecimalPart d = true := by rw [isDecimalPart, hd, Bool.true_or]
      simp only [List.span_eq_takeWhile_dropWhile, List.takeWhile_cons, hpart, if_true]
      exact .some hd fun c hc => List.mem_takeWhile_imp hc
    · exact .none
  · exact .none

/-- A fraction is split off up to an exponent. -/
theorem IsFraction.split (h : IsFraction cs) {rest : List Char} (hrest : IsExponent rest) :
    splitFraction (cs ++ rest) = (cs, rest) := by
  cases h with
  | none =>
      cases hrest with
      | none => rfl
      | some he => exact splitFraction_ne (by rcases he with rfl | rfl <;> decide) _
  | @some d digits hd hall =>
      have hpart : ∀ c ∈ d :: digits, isDecimalPart c = true := by
        refine List.forall_mem_cons.2 ⟨?_, hall⟩
        rw [isDecimalPart, hd, Bool.true_or]
      have hspan := span_takeWhile isDecimalPart (d :: digits) _ hrest.ends
      rw [List.takeWhile_eq_self_iff.2 hpart, List.cons_append] at hspan
      rw [List.cons_append, List.cons_append, splitFraction, if_pos hd, hspan]

theorem IsFraction.ends (h : IsFraction cs) {rest : List Char} (hrest : IsExponent rest) :
    (cs ++ rest).head?.any isDecimalPart = false := by
  cases h with
  | none => exact hrest.ends
  | some => rfl

/-- A number split off a text is split off whole from its own spelling, since what follows has no
    say in it. -/
theorem splitDecimal_alone (cs : List Char) :
    splitDecimal (splitDecimal cs).text = ⟨(splitDecimal cs).text, [], true⟩ := by
  have hwhole : ∀ {fraction exponent : List Char}, IsFraction fraction → IsExponent exponent →
      splitDecimal (cs.takeWhile isDecimalPart ++ fraction ++ exponent) =
        ⟨cs.takeWhile isDecimalPart ++ fraction ++ exponent, [], true⟩ := by
    intro fraction exponent hfraction hexponent
    rw [splitDecimal, List.append_assoc, span_takeWhile _ _ _ (hfraction.ends hexponent)]
    simp only [hfraction.split hexponent, hexponent.split, List.append_assoc]
    rfl
  have htext : (splitDecimal cs).text = cs.takeWhile isDecimalPart ++
      (splitFraction (cs.span isDecimalPart).2).1 ++
      (splitExponent (splitFraction (cs.span isDecimalPart).2).2).1 := by
    rw [splitDecimal, List.span_eq_takeWhile_dropWhile]
  rw [htext]
  exact hwhole (isFraction_splitFraction _) (isExponent_splitExponent _)

/-- Digits of a radix that are well formed are split off whole from their own spelling. -/
theorem splitRadix_alone {radix : Nat} {mark : List Char}
    (h : (splitRadix radix mark cs).wellFormed = true) :
    ∃ digits, (splitRadix radix mark cs).text = mark ++ digits ∧
      splitRadix radix mark digits = ⟨mark ++ digits, [], true⟩ := by
  simp only [splitRadix, List.span_eq_takeWhile_dropWhile _ cs] at h ⊢
  refine ⟨_, rfl, ?_⟩
  have hspan := span_takeWhile (fun c => Text.isDigitIn radix c || decide (c = '_')) cs
    [] rfl
  rw [List.append_nil] at hspan
  rw [Bool.and_eq_true] at h
  simp only [hspan, h.1]
  rfl

/-- A number that is cut out of a text is a number by itself. -/
theorem splitNumber_alone (h : (splitNumber cs).wellFormed = true) :
    splitNumber (splitNumber cs).text = ⟨(splitNumber cs).text, [], true⟩ := by
  by_cases hradix : ∃ c radix tail, cs = '0' :: c :: tail ∧ radix? c = some radix
  · rcases hradix with ⟨c, radix, tail, rfl, hc⟩
    have hsplit : ∀ ds, splitNumber ('0' :: c :: ds) = splitRadix radix ['0', c] ds := by
      intro ds
      rw [splitNumber, hc]
    rw [hsplit] at h ⊢
    rcases splitRadix_alone h with ⟨digits, htext, hdigits⟩
    rw [htext]
    exact (hsplit digits).trans hdigits
  -- Without a mark of a radix, cutting text off behind does not bring one in.
  · have hdecimal : ∀ {ds rest : List Char}, ds ++ rest = cs →
        splitNumber ds = splitDecimal ds := by
      rintro ds rest rfl
      unfold splitNumber
      split
      · rename_i c tail
        cases hc : radix? c with
        | none => rfl
        | some radix => exact absurd ⟨c, radix, tail ++ rest, rfl, hc⟩ hradix
      · rfl
    rw [hdecimal (List.append_nil cs), hdecimal (splitDecimal_append cs), splitDecimal_alone]

/-- It begins as the text does. -/
theorem splitNumber_start {c : Char} (h : c.isDigit = true) :
    (splitNumber (c :: cs)).text.head?.any Char.isDigit = true := by
  have hshorter : (splitNumber (c :: cs)).rest.length < (c :: cs).length :=
    splitNumber_rest_length h
  have hsplit := splitNumber_append (c :: cs)
  cases htext : (splitNumber (c :: cs)).text with
  | nil =>
      rw [htext, List.nil_append] at hsplit
      rw [hsplit] at hshorter
      exact absurd hshorter (Nat.lt_irrefl _)
  | cons d ds =>
      rw [htext, List.cons_append, List.cons.injEq] at hsplit
      rw [hsplit.1]
      exact h

/-! ### Strings -/

/-- A string literal that is cut out of a text is a lexeme. -/
theorem isLexeme_string {quote : Char} (hquote : quote = '"' ∨ quote = '\'')
    {p : Position} {text : String} {after : Cursor}
    (h : scanString quote p none [] cs (p.advance quote) = (.ok text, after)) :
    ∃ used, cs = used ++ after.rest ∧ after.here = p.advanceAll (quote :: used) ∧
      IsLexeme ⟨.string, text, quote :: used⟩ := by
  rcases scanString_used h with ⟨used, hcs, hhere, hread⟩
  have hproper : Kind.string ∉ Kind.symbols.map Prod.snd := by decide
  refine ⟨used, hcs, hhere, ?_, fun p' => ?_, nofun, nofun, hproper⟩
  · rcases hquote with rfl | rfl <;> rfl
  · have hline : quote ≠ '\n' := by rcases hquote with rfl | rfl <;> decide
    have hstring := hread p' none [] (p'.advance quote) rfl
    rw [List.append_nil] at hstring
    simp only [scanToken, if_neg hline, if_pos hquote, hstring]
    rfl

end Lexer

/-! ### Tokens -/

namespace Token

/-- What there is to know about the spelling of a token of a text: nothing if it is a
    symbol or stands for a line end or the end of the text, and otherwise that it is read
    as the same token by itself. -/
inductive Form (source : String) (t : Token) : Prop
  | mark : t.kind ∈ .newline :: .endOfInput :: Kind.symbols.map Prod.snd → Form source t
  | number : t.kind = .number → Lexer.IsNumeral t.text.toList → Form source t
  | word : t.kind = Kind.ofWord t.text → Lexer.IsName t.text.toList → Form source t
  | string {raw : String} : t.kind = .string →
    Text.slice source t.position.offset t.stop = raw →
    Lexer.IsLexeme ⟨.string, t.text, raw.toList⟩ → Form source t

/-- A token that is scanned has the form of its kind. The rules of the scanner say of which
    characters it was made, one case for each. -/
theorem form_of_scanToken {source : String} {sizeMode : Bool} {before rest : List Char} {t : Token}
    {after : Cursor} (hsource : source.toList = before ++ rest)
    (hscan : Lexer.scanToken sizeMode rest (Position.after before) = (.ok t, after)) :
    t.Form source := by
  -- A token of each kind was cut out of the text as the characters that it is spelled with.
  cases Lexer.scansAs_of_scanToken hscan with
  | endOfInput => exact .mark (List.mem_cons_of_mem _ List.mem_cons_self)
  | newline => exact .mark List.mem_cons_self
  | @string quote tail _ _ hquote hstring =>
      rcases Lexer.isLexeme_string hquote hstring with ⟨used, htail, hhere, hlexeme⟩
      have hstop : after.here = Position.after (before ++ quote :: used) := by
        rw [hhere, Position.after, Position.after, Position.advanceAll_append]
      have hwhole : source.toList = before ++ quote :: used ++ after.rest := by
        simp [hsource, htail]
      have hslice : Text.slice source (Position.after before).offset after.here.offset =
          String.ofList (quote :: used) := by
        rw [hstop, Position.offset_after, Position.offset_after]
        exact Text.slice_eq hwhole
      exact .string rfl hslice (by simpa using hlexeme)
  | number hdigit hformed =>
      refine .number rfl ?_
      rw [String.toList_ofList]
      exact ⟨Lexer.splitNumber_start hdigit, Lexer.splitNumber_alone hformed⟩
  | word hname =>
      refine .word rfl ?_
      rw [String.toList_ofList]
      exact ⟨Lexer.splitWord_start hname, Lexer.splitWord_alone sizeMode _⟩
  | symbol hsymbol =>
      exact .mark (List.mem_cons_of_mem _ (List.mem_cons_of_mem _
        (List.mem_map_of_mem (Lexer.mem_of_symbol? hsymbol).1)))

theorem IsOf.form {source : String} {t : Token} (h : t.IsOf source.toList) : t.Form source := by
  rcases h with ⟨before, rest, hsource, hposition, hend | ⟨sizeMode, after, hscan⟩⟩
  · rw [hend]
    exact .mark (List.mem_cons_of_mem _ List.mem_cons_self)
  · rw [hposition] at hscan
    exact form_of_scanToken hsource hscan

section

variable {source : String} {t : Token}

/-- An identifier is a name that is not reserved. -/
theorem Form.isPlain (h : t.Form source) (hkind : t.kind = .identifier) : Lexer.IsPlain t.text := by
  cases h with
  | mark hmark =>
      rw [hkind] at hmark
      exact absurd hmark (by decide)
  | number hnumber => cases hkind.symm.trans hnumber
  | word hword hname => exact ⟨hname, hword.symm.trans hkind⟩
  | string hstring => cases hkind.symm.trans hstring

/-- A number has the spelling of one. -/
theorem Form.isNumeral (h : t.Form source) (hkind : t.kind = .number) :
    Lexer.IsNumeral t.text.toList := by
  cases h with
  | mark hmark =>
      rw [hkind] at hmark
      exact absurd hmark (by decide)
  | number _ hraw => exact hraw
  | word hword =>
      have hmem := Lexer.ofWord_mem t.text
      rw [← hword, hkind] at hmem
      exact absurd hmem (by decide)
  | string hstring => cases hkind.symm.trans hstring

/-- A string literal has the spelling of one. -/
theorem Form.lexeme (h : t.Form source) (hkind : t.kind = .string) :
    ∃ raw : String, Text.slice source t.position.offset t.stop = raw ∧
      Lexer.IsLexeme ⟨.string, t.text, raw.toList⟩ := by
  cases h with
  | mark hmark =>
      rw [hkind] at hmark
      exact absurd hmark (by decide)
  | number hnumber => cases hkind.symm.trans hnumber
  | word hword =>
      have hmem := Lexer.ofWord_mem t.text
      rw [← hword, hkind] at hmem
      exact absurd hmem (by decide)
  | string _ hslice hlexeme => exact ⟨_, hslice, hlexeme⟩

end

end Token

end PolyScript
