import PolyScript.Parse.Pattern
import PolyScript.Proofs.ExpressionsReadBack
import PolyScript.Proofs.Lexemes

/-!
# Printed Patterns

The words of which a printed pattern consists: its numbers and its keys.

An integer in a pattern has its decimal digits for a spelling, whatever it was written as,
and these digits denote it. A negative number is the negation of a number with a sign
before the spelling, except that there is no negative integer zero.

A key is printed as it is if that is one word that may be a key, and between quotes
otherwise. The quoted form has the escapes of JSON. The lexer shares some of them: those
of the quote, the backslash, the line end, the carriage return and the tab. The other
control characters are escaped in ways that it does not know, so a key is read back if it
has none of these (`SourcePrinter.isQuotable`).

## Main definitions

* `Number.IsNormal`: A number as a pattern has it, with its spelling.
* `SourcePrinter.isQuotable`: The characters that a quoted key can have.
* `Pattern.hasBits`, `Pattern.keys`: The bit strings and the keys in a pattern.

## Theorems

* `Number.ofText?_toString`: The decimal digits of a number denote it.
* `Number.exists_normal`: Normalizing makes a number normal.
* `Lexer.isLexeme_quote`: A quoted text is a string literal that denotes it.
* `SourcePrinter.exists_keyWord`: A key is printed as one word, which is read as the key.
-/

namespace PolyScript

/-! ### Decimal digits -/

namespace Text

theorem digit?_of_isDigit {c : Char} (h : c.isDigit = true) :
    digit? 10 c = some (c.toNat - '0'.toNat) := by
  have hrange : '0' ≤ c ∧ c ≤ '9' := by
    simpa [Char.isDigit, Char.le_def] using h
  have hsmall : c.toNat - '0'.toNat < 10 := by
    have hle : c.toNat ≤ 57 := hrange.2
    have hzero : '0'.toNat = 48 := rfl
    omega
  rw [digit?, if_pos hrange]
  exact if_pos hsmall

theorem extendNat?_eq {cs : List Char} (h : ∀ c ∈ cs, c.isDigit = true) (n : Nat) :
    extendNat? 10 n cs = some (Nat.ofDigitChars 10 cs n) := by
  induction cs generalizing n with
  | nil => rfl
  | cons c cs ih =>
      rw [extendNat?, digit?_of_isDigit (h c List.mem_cons_self)]
      simp only
      rw [ih fun d hd => h d (List.mem_cons_of_mem _ hd), Nat.ofDigitChars_cons, Nat.mul_comm]

theorem isDigit_toDigits (n : Nat) : ∀ c ∈ Nat.toDigits 10 n, c.isDigit = true :=
  fun _ hc => Nat.isDigit_of_mem_toDigits (by decide) (by decide) hc

/-- The decimal digits of a number denote it. -/
theorem natInRadix?_toDigits (n : Nat) : natInRadix? 10 (Nat.toDigits 10 n) = some n := by
  have hvalue := extendNat?_eq (isDigit_toDigits n) 0
  rw [Nat.ofDigitChars_toDigits (by decide) (by decide)] at hvalue
  cases htext : Nat.toDigits 10 n with
  | nil => exact absurd htext Nat.toDigits_ne_nil
  | cons c cs =>
      rw [htext] at hvalue
      exact hvalue

end Text

namespace Number

/-- Plain digits are read as the integer that they make, whose value does not depend on the
    reader: there is no mark, fraction or exponent to be seen. -/
theorem ofDigits?_of_isDigit {cs : List Char} (h : ∀ c ∈ cs, c.isDigit = true) {n : Nat}
    (hn : Text.natInRadix? 10 cs = some n) : ofDigits? cs = some (.integer n) := by
  have hmarks : cs.any isFloatMark = false := by
    refine List.any_eq_false.2 fun c hc => ?_
    have hdigit := h c hc
    simp only [isFloatMark, Bool.or_eq_true, decide_eq_true_eq]
    rintro ((rfl | rfl) | rfl) <;> cases hdigit
  unfold ofDigits?
  simp only [hmarks, Bool.false_eq_true, if_false, hn]
  split
  · rename_i mark digits
    have hdigit := h mark (by simp)
    rw [if_neg, if_neg, if_neg]
    · rfl
    all_goals rintro (rfl | rfl) <;> cases hdigit
  · rfl

/-- The value of the decimal digits of a number. -/
theorem ofText?_toString (n : Nat) : ofText? (toString n) = some (.integer n) := by
  have hdigits := Text.isDigit_toDigits n
  have hplain : (Nat.toDigits 10 n).filter (· ≠ '_') = Nat.toDigits 10 n := by
    refine List.filter_eq_self.2 fun c hc => decide_eq_true ?_
    rintro rfl
    cases hdigits _ hc
  rw [ofText?, Nat.toString_eq_repr, Nat.toList_repr, hplain]
  exact ofDigits?_of_isDigit hdigits (Text.natInRadix?_toDigits n)

/-- A number is printed as a numeral. -/
theorem isNumeral_toString (n : Nat) : Lexer.IsNumeral (toString n).toList := by
  rw [Nat.toString_eq_repr, Nat.toList_repr]
  have hdigits := Text.isDigit_toDigits n
  refine Lexer.isNumeral_decimal ?_ fun c hc => by
    rw [Lexer.isDecimalPart, hdigits c hc, Bool.true_or]
  cases htext : Nat.toDigits 10 n with
  | nil => exact absurd htext Nat.toDigits_ne_nil
  | cons c cs =>
      rw [htext] at hdigits
      exact hdigits c List.mem_cons_self

/-- A number is never negative; signs stand before it. -/
theorem ofText?_nonneg {text : String} {n : Int} (h : ofText? text = some (.integer n)) :
    0 ≤ n := by
  have hnatural : ∀ {radix : Nat} {cs : List Char},
      ((Text.natInRadix? radix cs).map fun m => integer m) = some (.integer n) → 0 ≤ n := by
    intro radix cs hvalue
    cases hnat : Text.natInRadix? radix cs with
    | none =>
        rw [hnat] at hvalue
        cases hvalue
    | some m =>
        rw [hnat] at hvalue
        cases hvalue
        exact Int.natCast_nonneg m
  have hplain : ∀ {cs : List Char}, (if cs.any isFloatMark then (decimal? cs).map float
      else (Text.natInRadix? 10 cs).map fun m => integer m) = some (.integer n) → 0 ≤ n := by
    intro cs hvalue
    split at hvalue
    · rcases Option.map_eq_some_iff.1 hvalue with ⟨_, _, hfloat⟩
      cases hfloat
    · exact hnatural hvalue
  unfold ofText? ofDigits? at h
  simp only at h
  -- The three radixes with a prefix are tried before the decimal digits.
  split at h
  · split at h
    · exact hnatural h
    · split at h
      · exact hnatural h
      · split at h
        · exact hnatural h
        · exact hplain h
  · exact hplain h

/-- The value and the spelling of a number as a pattern has them: an integer with its
    decimal digits, or any other number as it was spelled. -/
inductive IsNormal : Number → String → Prop
  | integer (n : Nat) : IsNormal (.integer n) (toString n)
  | float {d : Double} {raw : String} : Lexer.IsNumeral raw.toList →
    ofText? raw = some (.float d) → IsNormal (.float d) raw

theorem IsNormal.isNumeral {value : Number} {raw : String} (h : value.IsNormal raw) :
    Lexer.IsNumeral raw.toList := by
  cases h with
  | integer n => exact isNumeral_toString n
  | float hraw => exact hraw

theorem IsNormal.ofText?_eq {value : Number} {raw : String} (h : value.IsNormal raw) :
    ofText? raw = some value := by
  cases h with
  | integer n => exact ofText?_toString n
  | float _ hvalue => exact hvalue

theorem IsNormal.normalize {value : Number} {raw : String} (h : value.IsNormal raw)
    (p : Position) : Parse.normalizeLiteral (.number value raw p) = .number value raw p := by
  cases h <;> rfl

/-- Normalizing makes a number normal. -/
theorem exists_normal {value : Number} {raw : String} (hraw : Lexer.IsNumeral raw.toList)
    (hvalue : ofText? raw = some value) (p : Position) :
    ∃ raw', Parse.normalizeLiteral (.number value raw p) = .number value raw' p ∧
      value.IsNormal raw' := by
  cases value with
  | integer n =>
      obtain ⟨m, rfl⟩ := Int.eq_ofNat_of_zero_le (ofText?_nonneg hvalue)
      exact ⟨_, rfl, .integer m⟩
  | float d => exact ⟨raw, rfl, .float hraw hvalue⟩

/-- The negation of a number is printed with a sign, unless it is the integer zero. -/
theorem IsNormal.negate {value : Number} {raw : String} (h : value.IsNormal raw)
    (hzero : value ≠ .integer 0) (p q : Position) :
    ∃ negated, Parse.negateLiteral p (.number value raw q) = .number negated ("-" ++ raw) p := by
  cases h with
  | integer n =>
      cases n with
      | zero => exact absurd rfl hzero
      | succ n => exact ⟨_, rfl⟩
  | @float d => exact ⟨.float d.neg, rfl⟩

end Number

/-! ### Keys -/

namespace SourcePrinter

/-- Whether a character stands in a quoted key as the lexer reads it: all but the control
    characters whose escapes it does not know. -/
def isQuotable (c : Char) : Bool := c = '\t' || c = '\n' || c = '\r' || 0x20 ≤ c.toNat

end SourcePrinter

namespace Lexer

/-- An escape of one letter. -/
theorem scanString_escape {quote e c : Char} (hquote : quote ≠ '\\') (he : escaped? e = some c)
    (start : Position) (text cs : List Char) (p : Position) :
    scanString quote start none text ('\\' :: e :: cs) p =
      scanString quote start none (c :: text) cs ((p.advance '\\').advance e) := by
  conv => lhs; unfold scanString
  simp [hquote.symm, he]

/-- A character is written as an escape of one letter, or as itself if it has no meaning of
    its own inside a string. -/
theorem escapeChar_cases {c : Char} (hc : SourcePrinter.isQuotable c = true) :
    (∃ e, escaped? e = some c ∧ Json.escapeChar c = ['\\', e]) ∨
      (Json.escapeChar c = [c] ∧ c ≠ '"' ∧ c ≠ '\n' ∧ c ≠ '\\') := by
  by_cases hescape : c ∈ ['"', '\\', '\n', '\r', '\t']
  · simp only [List.mem_cons, List.not_mem_nil, or_false] at hescape
    rcases hescape with rfl | rfl | rfl | rfl | rfl
    · exact .inl ⟨'"', rfl, rfl⟩
    · exact .inl ⟨'\\', rfl, rfl⟩
    · exact .inl ⟨'n', rfl, rfl⟩
    · exact .inl ⟨'r', rfl, rfl⟩
    · exact .inl ⟨'t', rfl, rfl⟩
  · simp only [List.mem_cons, List.not_mem_nil, or_false, not_or] at hescape
    rcases hescape with ⟨hquote, hslash, hline, hreturn, htab⟩
    have hcode : 0x20 ≤ c.toNat := by
      simpa [SourcePrinter.isQuotable, hline, hreturn, htab] using hc
    -- Backspace and form feed have escapes of one letter too, but not in the lexer.
    have hback : c ≠ '\x08' := by
      rintro rfl
      cases hc
    have hfeed : c ≠ '\x0c' := by
      rintro rfl
      cases hc
    refine .inr ⟨?_, hquote, hline, hslash⟩
    rw [Json.escapeChar, if_neg hquote, if_neg hslash, if_neg hback, if_neg hfeed, if_neg hline,
      if_neg hreturn, if_neg htab, if_neg (Nat.not_lt.2 hcode)]

/-- What is written for a character is read as the character. -/
theorem scanString_escapeChar {c : Char} (hc : SourcePrinter.isQuotable c = true) (start : Position)
    (text cs : List Char) (p : Position) :
    scanString '"' start none text (Json.escapeChar c ++ cs) p =
      scanString '"' start none (c :: text) cs (p.advanceAll (Json.escapeChar c)) := by
  rcases escapeChar_cases hc with ⟨e, he, hescape⟩ | ⟨hescape, hquote, hline, hslash⟩
  · rw [hescape]
    exact scanString_escape (by decide) he start text cs p
  · rw [hescape, List.singleton_append]
    conv => lhs; unfold scanString
    rw [if_neg hquote, if_neg hline, if_neg hslash]
    rfl

/-- A quoted text is scanned back from its escapes. By induction on the text, where each
    character is either itself or an escape of it. -/
theorem scanString_quoted {cs : List Char} (h : ∀ c ∈ cs, SourcePrinter.isQuotable c = true)
    (start : Position) (text : List Char) (p : Position) :
    scanString '"' start none text (cs.flatMap Json.escapeChar ++ ['"']) p =
      (.ok (String.ofList (text.reverse ++ cs)),
        ⟨[], p.advanceAll (cs.flatMap Json.escapeChar ++ ['"'])⟩) := by
  induction cs generalizing text p with
  | nil =>
      rw [List.flatMap_nil, List.nil_append, List.append_nil]
      unfold scanString
      rw [if_pos rfl]
      rfl
  | cons c cs ih =>
      rw [List.flatMap_cons, List.append_assoc, scanString_escapeChar (h c List.mem_cons_self),
        ih (fun d hd => h d (List.mem_cons_of_mem _ hd)), List.reverse_cons, List.append_assoc,
        List.singleton_append, ← Position.advanceAll_append]

/-- A quoted text is read as a string literal that denotes it. -/
theorem isLexeme_quote {key : String} (h : ∀ c ∈ key.toList, SourcePrinter.isQuotable c = true) :
    IsLexeme ⟨.string, key, (Json.quote key).toList⟩ := by
  have hproper : Kind.string ∉ Kind.symbols.map Prod.snd := by decide
  have htext : (Json.quote key).toList = '"' :: (key.toList.flatMap Json.escapeChar ++ ['"']) := by
    rw [Json.quote, String.toList_ofList, List.cons_append]
  refine ⟨by rw [htext]; rfl, fun p => ?_, nofun, nofun, hproper⟩
  have hstring := scanString_quoted h p [] (p.advance '"')
  rw [List.reverse_nil, List.nil_append, String.ofList_toList] at hstring
  simp only [htext, scanToken, hstring]
  rfl

/-- A word without dashes is a name. -/
theorem isName_of_isWord {key : String} (h : SourcePrinter.isWord key = true) :
    IsName key.toList := by
  unfold SourcePrinter.isWord at h
  split at h
  · cases h
  · rename_i c cs hchars
    rw [Bool.and_eq_true, List.all_eq_true] at h
    rw [hchars]
    have hwhole : ∀ {ds : List Char}, (∀ d ∈ ds, isNamePart d = true) →
        splitWord false ds = (ds, []) := by
      intro ds hds
      induction ds with
      | nil => rfl
      | cons d ds ih =>
          rw [splitWord_part (hds d List.mem_cons_self),
            ih fun e he => hds e (List.mem_cons_of_mem _ he)]
    exact ⟨h.1, hwhole (List.forall_mem_cons.2 ⟨isNamePart_of_isNameStart h.1, h.2⟩)⟩

end Lexer

namespace SourcePrinter

/-- Whether the key of an object pattern is printed without quotes. -/
def isBare (key : String) : Bool :=
  isWord key &&
    match Kind.keyword? key with
    | none | some .language | some .underscore => true
    | some _ => false

theorem patternKey_eq (key : String) :
    patternKey key = if isBare key then key else Json.quote key := rfl

/-- A key that is printed without quotes is of a kind that patterns accept as a key. -/
theorem isPatternKey_of_isBare {key : String} (h : isBare key = true) :
    Parse.isPatternKey (Kind.ofWord key) = true := by
  rw [isBare, Bool.and_eq_true] at h
  have hkind := h.2
  split at hkind
  · rename_i hnone
    rw [Kind.ofWord, hnone]
    rfl
  · rename_i hlanguage
    rw [Kind.ofWord, hlanguage]
    rfl
  · rename_i hunderscore
    rw [Kind.ofWord, hunderscore]
    rfl
  · cases hkind

/-- The word as which a key is printed, and which is read as the key. -/
structure IsKeyWord (key : String) (w : Word) : Prop where
  lexeme : Lexer.IsLexeme w
  spelling : w.spelling = (patternKey key).toList
  text : w.text = key
  kind : Parse.isPatternKey w.kind = true

/-- The key of an object pattern is printed as one word. -/
theorem exists_keyWord {key : String} (h : ∀ c ∈ key.toList, isQuotable c = true) :
    ∃ w, IsKeyWord key w := by
  cases hbare : isBare key with
  | false =>
      have hkey : patternKey key = Json.quote key := by
        rw [patternKey_eq, hbare, if_neg Bool.false_ne_true]
      exact ⟨_, Lexer.isLexeme_quote h, by rw [hkey], rfl, rfl⟩
  | true =>
      have hkey : patternKey key = key := by rw [patternKey_eq, hbare, if_pos rfl]
      have hkind := isPatternKey_of_isBare hbare
      rw [isBare, Bool.and_eq_true] at hbare
      exact ⟨_, Lexer.isLexeme_name (Lexer.isName_of_isWord hbare.1), by rw [hkey]; rfl, rfl, hkind⟩

end SourcePrinter

/-! ### What a pattern contains -/

mutual

/-- Whether a pattern contains a bit string. -/
def Pattern.hasBits : Pattern → Bool
  | .array elements _ _ => elementsHaveBits elements
  | .object fields _ => fieldsHaveBits fields
  | .bitstring .. => true
  | _ => false

/-- Whether one of the elements of an array pattern contains a bit string. -/
def elementsHaveBits : List Pattern → Bool
  | [] => false
  | p :: rest => p.hasBits || elementsHaveBits rest

/-- Whether one of the fields of an object pattern contains a bit string. -/
def fieldsHaveBits : List PatternField → Bool
  | [] => false
  | .mk _ p :: rest => p.hasBits || fieldsHaveBits rest

end

mutual

/-- The keys of a pattern, those of the patterns that it contains among them. -/
def Pattern.keys : Pattern → List String
  | .array elements _ _ => elementKeys elements
  | .object fields _ => fieldKeys fields
  | _ => []

/-- The keys of the elements of an array pattern. -/
def elementKeys : List Pattern → List String
  | [] => []
  | p :: rest => p.keys ++ elementKeys rest

/-- The keys of the fields of an object pattern. -/
def fieldKeys : List PatternField → List String
  | [] => []
  | .mk key p :: rest => key :: p.keys ++ fieldKeys rest

end

theorem elementsHaveBits_eq (elements : List Pattern) :
    elementsHaveBits elements = elements.any Pattern.hasBits := by
  induction elements with
  | nil => rfl
  | cons p rest ih => rw [elementsHaveBits, ih, List.any_cons]

theorem fieldsHaveBits_eq (fields : List PatternField) :
    fieldsHaveBits fields = fields.any fun f => f.pattern.hasBits := by
  induction fields with
  | nil => rfl
  | cons f rest ih =>
      cases f
      rw [fieldsHaveBits, ih, List.any_cons]
      rfl

theorem elementKeys_eq (elements : List Pattern) :
    elementKeys elements = elements.flatMap Pattern.keys := by
  induction elements with
  | nil => rfl
  | cons p rest ih => rw [elementKeys, ih, List.flatMap_cons]

theorem fieldKeys_eq (fields : List PatternField) :
    fieldKeys fields = fields.flatMap fun f => f.key :: f.pattern.keys := by
  induction fields with
  | nil => rfl
  | cons f rest ih =>
      cases f
      rw [fieldKeys, ih, List.flatMap_cons]
      rfl

/-! ### Printed lists -/

namespace SourcePrinter

/-- The texts that stand for the rest of an array pattern. -/
def restTexts (rest : Option String) : List String := rest.toList.map ("..." ++ ·)

theorem pattern_array (p : SourcePrinter) (elements : List Pattern) (rest : Option String)
    (q : Position) : p.pattern (.array elements rest q) =
      "[" ++ joinWith ", " (elements.map p.pattern ++ restTexts rest) ++ "]" := by
  have hpatterns : p.patterns elements = elements.map p.pattern := by
    induction elements with
    | nil => rfl
    | cons e es ih => rw [patterns, ih, List.map_cons]
  cases rest <;> rw [pattern, hpatterns] <;> rfl

/-- An object pattern is printed as its fields in braces, with commas between them. -/
theorem pattern_object (p : SourcePrinter) (fields : List PatternField) (q : Position) :
    p.pattern (.object fields q) = "\x7b" ++
      joinWith ", " (fields.map fun f => patternKey f.key ++ ": " ++ p.pattern f.pattern) ++
        "\x7d" := by
  have htexts : p.fieldTexts fields =
      fields.map fun f => patternKey f.key ++ ": " ++ p.pattern f.pattern := by
    induction fields with
    | nil => rfl
    | cons f fs ih =>
        cases f
        rw [fieldTexts, ih, List.map_cons]
        rfl
  rw [pattern, htexts]

end SourcePrinter

end PolyScript
