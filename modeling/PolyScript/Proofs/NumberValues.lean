import PolyScript.Proofs.PatternsReadBack
import PolyScript.Proofs.Pieces
import PolyScript.Proofs.StringLiterals

/-!
# Values of Numbers

Every number that the lexer reads has a value, and it is the one that its spelling denotes.
This needs an argument because a spelling is classified twice. The lexer sees the radix in the
second character, and otherwise looks ahead for the digits of a fraction and of an exponent.
The value is found later, from the spelling without its underscores, by its first two
characters and by whether there is a point or an `e` anywhere in it.

The two agree for three reasons. Underscores that are taken out move no mark up behind a zero,
since a number without a mark has no letter but that of its exponent. An `e` that is a digit
stands behind a mark, which is looked for first. And a point or an exponent belongs to a number
only together with a digit, so none of the parts that are evaluated is empty.

What digits denote is said without regard to how they are read: by their places in a list of
all digits, and by the sum of their values times the powers of the radix.

## Main definitions

* `Text.valueIn`: What digits denote in a radix.
* `Lexer.IsDecimal`: The parts of a number without a mark.
* `Number.IsDenotedBy`: What a spelling denotes.

## Theorems

* `Text.natInRadix?_filter`: Digits are read as what they denote.
* `Number.decimal?_of_isDecimal`: Underscores do not matter to a fraction or an exponent.
* `Number.exists_value`: The spelling of a number has a value.
* `Parse.pattern_run_integer`: A pattern that is an integer does not depend on its spelling.
* `numbers_have_values`: The numbers that the lexer reads.
-/

namespace PolyScript

/-! ### Digits -/

namespace Text

/-- The value of a digit, in upper or lower case. -/
def digitValue (c : Char) : Nat := "0123456789abcdef".toList.idxOf c.toLower

/-- What digits denote in a radix. Underscores count for nothing. -/
def valueIn (radix : Nat) (cs : List Char) : Nat :=
  Nat.ofDigits radix ((cs.filter (· ≠ '_')).map digitValue).reverse

/-- A run of digits in a radix, with underscores anywhere among them. -/
structure IsDigitRun (radix : Nat) (cs : List Char) : Prop where
  digit : ∀ c ∈ cs, c ≠ '_' → digitValue c < radix
  nonempty : ∃ c ∈ cs, c ≠ '_'

theorem le_iff_toNat_le {c d : Char} : c ≤ d ↔ c.toNat ≤ d.toNat := Iff.rfl

/-- Outside of the digits there is no value. -/
theorem digitValue_of_large {c : Char} (h : 128 ≤ c.toNat) : digitValue c = 16 := by
  have hlower : c.toLower = c := by
    unfold Char.toLower
    rw [dif_neg]
    intro hupper
    have hbound : c.toNat ≤ 'Z'.toNat := hupper.2
    have hZ : 'Z'.toNat = 90 := rfl
    omega
  refine List.idxOf_eq_length ?_
  rw [hlower]
  intro hmem
  have hall : ∀ d ∈ "0123456789abcdef".toList, d.toNat < 128 :=
    List.all_iff_forall_prop.1 (by decide)
  exact absurd (hall c hmem) (Nat.not_lt.2 h)

/-- The value of a digit by the code of its character, in the three ranges that digits may come
    from. -/
theorem digitValue_eq (c : Char) : digitValue c =
    if 48 ≤ c.toNat ∧ c.toNat ≤ 57 then c.toNat - 48
    else if 97 ≤ c.toNat ∧ c.toNat ≤ 102 then c.toNat - 87
    else if 65 ≤ c.toNat ∧ c.toNat ≤ 70 then c.toNat - 55
    else 16 := by
  by_cases hsmall : c.toNat < 128
  -- Below the bound the characters are gone through one by one.
  · have hlist : ∀ n < 128, digitValue (Char.ofNat n) =
        if 48 ≤ n ∧ n ≤ 57 then n - 48 else if 97 ≤ n ∧ n ≤ 102 then n - 87
        else if 65 ≤ n ∧ n ≤ 70 then n - 55 else 16 := by
      decide +kernel
    rw [← hlist c.toNat hsmall, Char.ofNat_toNat]
  · rw [digitValue_of_large (Nat.le_of_not_lt hsmall), if_neg (by omega), if_neg (by omega),
      if_neg (by omega)]

/-- The reader of digits gives them these values. -/
theorem digit?_eq {radix : Nat} (hradix : radix ≤ 16) (c : Char) :
    digit? radix c = if digitValue c < radix then some (digitValue c) else none := by
  have hconstants : '0'.toNat = 48 ∧ '9'.toNat = 57 ∧ 'a'.toNat = 97 ∧ 'z'.toNat = 122 ∧
      'A'.toNat = 65 ∧ 'Z'.toNat = 90 := by decide
  simp only [digit?, digitValue_eq, le_iff_toNat_le, hconstants]
  split_ifs <;> first | rfl | omega | (congr 1; omega)

theorem isDigitIn_iff {radix : Nat} (hradix : radix ≤ 16) {c : Char} :
    isDigitIn radix c = true ↔ digitValue c < radix := by
  rw [isDigitIn, digit?_eq hradix]
  split <;> simp [*]

theorem natInRadix?_filter {radix : Nat} (hradix : radix ≤ 16) {cs : List Char}
    (h : IsDigitRun radix cs) :
    natInRadix? radix (cs.filter (· ≠ '_')) = some (valueIn radix cs) := by
  refine natInRadix?_eq_some_iff.2 ⟨?_, _, ?_, rfl⟩
  · rcases h.nonempty with ⟨c, hc, hne⟩
    exact List.ne_nil_of_mem (List.mem_filter.2 ⟨hc, decide_eq_true hne⟩)
  · refine List.forall₂_map_right_iff.2 (List.forall₂_same.2 fun c hc => ?_)
    rw [List.mem_filter, decide_eq_true_eq] at hc
    rw [digit?_eq hradix, if_pos (h.digit c hc.1 hc.2)]

end Text

/-! ### Two kinds of numbers -/

namespace Lexer

variable {cs : List Char}

/-- The letters that announce a radix behind a zero. -/
def radixMarks : List (Char × Nat) :=
  [('x', 16), ('X', 16), ('b', 2), ('B', 2), ('o', 8), ('O', 8)]

/-- The marks behind a leading zero are those of the table, in either case. -/
theorem radix?_eq_some_iff {mark : Char} {radix : Nat} :
    radix? mark = some radix ↔ (mark, radix) ∈ radixMarks := by
  constructor
  · intro h
    unfold radix? at h
    split at h
    · rename_i hmark
      cases h
      rcases hmark with rfl | rfl <;> decide
    split at h
    · rename_i hmark
      cases h
      rcases hmark with rfl | rfl <;> decide
    split at h
    · rename_i hmark
      cases h
      rcases hmark with rfl | rfl <;> decide
    · cases h
  · intro h
    simp only [radixMarks, List.mem_cons, Prod.mk.injEq, List.not_mem_nil, or_false] at h
    rcases h with ⟨rfl, rfl⟩ | ⟨rfl, rfl⟩ | ⟨rfl, rfl⟩ | ⟨rfl, rfl⟩ | ⟨rfl, rfl⟩ | ⟨rfl, rfl⟩ <;>
      rfl

theorem radix_le_of_mark {mark : Char} {radix : Nat} (h : (mark, radix) ∈ radixMarks) :
    radix ≤ 16 := by
  have hall : ∀ m ∈ radixMarks, m.2 ≤ 16 := by decide
  exact hall _ h

/-- Behind a mark there are digits of its radix. -/
theorem IsNumeral.digits_of_mark {mark : Char} {radix : Nat} {digits : List Char}
    (h : IsNumeral ('0' :: mark :: digits)) (hmark : (mark, radix) ∈ radixMarks) :
    Text.IsDigitRun radix digits := by
  have hradix := radix_le_of_mark hmark
  have hwhole := h.whole
  rw [splitNumber, radix?_eq_some_iff.2 hmark] at hwhole
  simp only [splitRadix, List.span_eq_takeWhile_dropWhile, NumberSplit.mk.injEq,
    List.cons_append, List.nil_append, List.cons.injEq, true_and, Bool.and_eq_true] at hwhole
  rcases hwhole with ⟨htake, hdrop, hsome, -⟩
  constructor
  -- Each character is a digit of the radix or an underscore.
  · intro c hc hne
    have hpart := List.takeWhile_eq_self_iff.1 htake c hc
    rw [Bool.or_eq_true, decide_eq_true_eq] at hpart
    exact (Text.isDigitIn_iff hradix).1 (hpart.resolve_right hne)
  -- Not all of them are underscores, since a digit is demanded.
  · rw [htake, List.any_eq_true] at hsome
    rcases hsome with ⟨c, hc, hdigit⟩
    refine ⟨c, hc, ?_⟩
    rintro rfl
    have hvalue : Text.digitValue '_' = 16 := by decide
    have hsmall := (Text.isDigitIn_iff hradix).1 hdigit
    omega

/-- The parts of a number without a mark. -/
structure IsDecimal (cs whole fraction exponent : List Char) : Prop where
  append : cs = whole ++ fraction ++ exponent
  start : whole.head?.any Char.isDigit = true
  whole : ∀ c ∈ whole, isDecimalPart c = true
  fraction : IsFraction fraction
  exponent : IsExponent exponent

/-- A numeral that has no mark of a radix is a decimal one. -/
theorem IsNumeral.isDecimal (h : IsNumeral cs)
    (hmark : ∀ mark radix ds, (mark, radix) ∈ radixMarks → cs ≠ '0' :: mark :: ds) :
    ∃ whole fraction exponent, IsDecimal cs whole fraction exponent := by
  have hnone : ∀ c ds, cs = '0' :: c :: ds → radix? c = none := by
    intro c ds hcs
    cases hradix : radix? c with
    | none => rfl
    | some radix => exact absurd hcs (hmark c radix ds (radix?_eq_some_iff.1 hradix))
  have hwhole := h.whole
  rw [splitNumber_eq_splitDecimal hnone] at hwhole
  simp only [splitDecimal, List.span_eq_takeWhile_dropWhile, NumberSplit.mk.injEq] at hwhole
  -- That nothing is left makes the three parts the whole of the spelling.
  refine ⟨_, _, _, hwhole.1.symm, ?_, fun c hc => List.mem_takeWhile_imp hc,
    isFraction_splitFraction _, isExponent_splitExponent _⟩
  have hstart := h.start
  cases cs with
  | nil => cases hstart
  | cons c cs =>
      have hdigit : c.isDigit = true := hstart
      have hpart : isDecimalPart c = true := by rw [isDecimalPart, hdigit, Bool.true_or]
      rw [List.takeWhile_cons, if_pos hpart]
      exact hdigit

/-- A run of characters is split off in front of one that is different. -/
theorem span_of_all {p : Char → Bool} {rest : List Char} (hall : ∀ c ∈ cs, p c = true)
    (hrest : rest.head?.any p = false) : (cs ++ rest).span p = (cs, rest) := by
  have hspan := span_takeWhile p cs rest hrest
  rwa [List.takeWhile_eq_self_iff.2 hall] at hspan

/-- A row of digits and underscores with a digit in it is a run of digits. -/
theorem isDigitRun_of_part (h : ∀ c ∈ cs, isDecimalPart c = true)
    (hdigit : ∃ c ∈ cs, c.isDigit = true) : Text.IsDigitRun 10 cs := by
  constructor
  · intro c hc hne
    have hpart := h c hc
    rw [isDecimalPart, Bool.or_eq_true, decide_eq_true_eq] at hpart
    refine (Text.isDigitIn_iff (by omega)).1 ?_
    rw [Text.isDigitIn, Text.digit?_of_isDigit (hpart.resolve_right hne)]
    rfl
  · rcases hdigit with ⟨c, hc, hdigit⟩
    exact ⟨c, hc, by rintro rfl; cases hdigit⟩

variable {whole fraction exponent : List Char}

theorem IsFraction.part (h : IsFraction cs) : ∀ c ∈ cs.drop 1, isDecimalPart c = true := by
  cases h with
  | none => exact nofun
  | some hd hall =>
      refine List.forall_mem_cons.2 ⟨?_, hall⟩
      rw [isDecimalPart, hd, Bool.true_or]

theorem IsFraction.mem (h : IsFraction cs) {c : Char} (hc : c ∈ cs) :
    c = '.' ∨ isDecimalPart c = true := by
  have hpart := h.part
  cases h with
  | none => cases hc
  | some => exact (List.mem_cons.1 hc).imp_right fun hc => hpart c hc

/-- An exponent is made of digits, signs and its own letter. -/
theorem IsExponent.mem (h : IsExponent cs) {c : Char} (hc : c ∈ cs) :
    c.isDigit = true ∨ c ∈ ['e', 'E', '+', '-'] := by
  cases h with
  | none => cases hc
  | @some e sign digits he hsign _ hall =>
      rw [List.cons_append, List.mem_cons, List.mem_append] at hc
      rcases hc with rfl | hc | hc
      · right
        rcases he with rfl | rfl <;> simp
      · right
        rcases hsign with rfl | rfl | rfl
        · cases hc
        · cases List.mem_singleton.1 hc
          simp
        · cases List.mem_singleton.1 hc
          simp
      · exact .inl (hall c hc)

theorem IsExponent.ne_underscore (h : IsExponent cs) : ∀ c ∈ cs, c ≠ '_' := by
  intro c hc heq
  subst heq
  rcases h.mem hc with hdigit | hmark
  · cases hdigit
  · simp at hmark

namespace IsDecimal

variable (h : IsDecimal cs whole fraction exponent)

include h

theorem exists_digit : ∃ c ∈ whole, c.isDigit = true := by
  have hstart := h.start
  cases whole with
  | nil => cases hstart
  | cons c whole => exact ⟨c, List.mem_cons_self, hstart⟩

theorem digits : Text.IsDigitRun 10 (whole ++ fraction.drop 1) := by
  refine isDigitRun_of_part ?_ ?_
  · intro c hc
    rcases List.mem_append.1 hc with hc | hc
    · exact h.whole c hc
    · exact h.fraction.part c hc
  · rcases h.exists_digit with ⟨c, hc, hdigit⟩
    exact ⟨c, List.mem_append_left _ hc, hdigit⟩

/-- The characters of a number without a mark. -/
theorem mem (c : Char) (hc : c ∈ cs) :
    c.isDigit = true ∨ c ∈ ['_', '.', 'e', 'E', '+', '-'] := by
  have hpart : ∀ c, isDecimalPart c = true →
      c.isDigit = true ∨ c ∈ ['_', '.', 'e', 'E', '+', '-'] := by
    intro c hc
    rw [isDecimalPart, Bool.or_eq_true, decide_eq_true_eq] at hc
    exact hc.imp_right fun hc => by rw [hc]; exact List.mem_cons_self
  rw [h.append, List.mem_append, List.mem_append] at hc
  rcases hc with (hc | hc) | hc
  · exact hpart c (h.whole c hc)
  · rcases h.fraction.mem hc with rfl | hc
    · right
      simp
    · exact hpart c hc
  · exact (h.exponent.mem hc).imp_right fun hmark =>
      List.mem_cons_of_mem _ (List.mem_cons_of_mem _ hmark)

end IsDecimal

/-- A token that is a number has the spelling of one. -/
theorem isNumeral_of_scansAs {sizeMode : Bool} {start : Position} {t : Token} {after : Cursor}
    (h : ScansAs sizeMode start cs t after) (hkind : t.kind = .number) :
    IsNumeral t.text.toList := by
  have hsymbols : Kind.number ∉ Kind.symbols.map Prod.snd := by decide
  cases h with
  | endOfInput | newline | string => cases hkind
  | number hdigit hformed =>
      rw [String.toList_ofList]
      exact ⟨splitNumber_start hdigit, splitNumber_alone hformed⟩
  | @word c cs =>
      have hword : Kind.ofWord (String.ofList (splitWord sizeMode (c :: cs)).1) = .number := hkind
      have hmem := ofWord_mem (String.ofList (splitWord sizeMode (c :: cs)).1)
      rw [hword] at hmem
      exact absurd hmem (by decide)
  | symbol hsymbol =>
      cases hkind
      exact absurd (List.mem_map_of_mem (mem_of_symbol? hsymbol).1) hsymbols

end Lexer

/-! ### Decoding -/

namespace Number

/-- The power of ten that an exponent denotes, or zero if there is none. -/
def exponentValue : List Char → Int
  | _ :: '-' :: digits => -(Text.valueIn 10 digits : Int)
  | _ :: '+' :: digits => Text.valueIn 10 digits
  | _ :: digits => Text.valueIn 10 digits
  | [] => 0

/-- The reader gives an exponent the value that its digits denote, with their sign, and zero
    where there is none. -/
theorem exponent?_of_isExponent {cs : List Char} (h : Lexer.IsExponent cs) :
    (if cs.isEmpty then some 0 else exponent? (cs.drop 1)) = some (exponentValue cs) := by
  cases h with
  | none => rfl
  | @some e sign digits he hsign hdigits hall =>
      have hrun : Text.IsDigitRun 10 digits := by
        refine Lexer.isDigitRun_of_part (fun c hc => ?_) ?_
        · rw [Lexer.isDecimalPart, hall c hc, Bool.true_or]
        · rcases List.exists_mem_of_ne_nil _ hdigits with ⟨c, hc⟩
          exact ⟨c, hc, hall c hc⟩
      have hvalue := Text.natInRadix?_filter (by omega) hrun
      have hplain : digits.filter (· ≠ '_') = digits := by
        refine List.filter_eq_self.2 fun c hc => decide_eq_true ?_
        intro heq
        subst heq
        cases hall _ hc
      rw [hplain] at hvalue
      change exponent? (sign ++ digits) = some (exponentValue (e :: (sign ++ digits)))
      rcases hsign with rfl | rfl | rfl
      -- Without a sign, the first digit must not be taken for one.
      · cases digits with
        | nil => exact absurd rfl hdigits
        | cons d digits =>
            have hd := hall d List.mem_cons_self
            have hplus : d ≠ '+' := by rintro rfl; cases hd
            have hminus : d ≠ '-' := by rintro rfl; cases hd
            simp [exponent?, exponentValue, hplus, hminus, hvalue]
      · simp [exponent?, exponentValue, hvalue]
      · simp [exponent?, exponentValue, hvalue]

/-- How many digits a fraction has. -/
def places (fraction : List Char) : Nat := ((fraction.drop 1).filter (· ≠ '_')).length

section Decimal

variable {cs whole fraction exponent : List Char}

theorem drop_filter_fraction (h : Lexer.IsFraction fraction) :
    (fraction.filter (· ≠ '_')).drop 1 = (fraction.drop 1).filter (· ≠ '_') := by
  cases h <;> rfl

/-- What is left of a number without its underscores is taken apart as the number was. -/
theorem decimal?_of_isDecimal (h : Lexer.IsDecimal cs whole fraction exponent) :
    decimal? (cs.filter (· ≠ '_')) =
      some (Double.ofDecimal false (Text.valueIn 10 (whole ++ fraction.drop 1))
        (exponentValue exponent - places fraction)) := by
  have hexponent : exponent.filter (· ≠ '_') = exponent :=
    List.filter_eq_self.2 fun c hc => decide_eq_true (h.exponent.ne_underscore c hc)
  -- The first letter is that of the exponent, and the first point that of the fraction.
  have hmantissa : ((whole ++ fraction).filter (· ≠ '_') ++ exponent).span
      (fun c => c ≠ 'e' && c ≠ 'E') = ((whole ++ fraction).filter (· ≠ '_'), exponent) := by
    refine Lexer.span_of_all (fun c hc => ?_) ?_
    · have hparts : c = '.' ∨ Lexer.isDecimalPart c = true := by
        rcases List.mem_append.1 (List.mem_filter.1 hc).1 with hc | hc
        · exact .inr (h.whole c hc)
        · exact h.fraction.mem hc
      simp only [Bool.and_eq_true, decide_eq_true_eq]
      constructor <;> rintro rfl <;> rcases hparts with hc | hc <;> cases hc
    · cases h.exponent with
      | none => rfl
      | some he => rcases he with rfl | rfl <;> rfl
  have hwhole : (whole.filter (· ≠ '_') ++ fraction.filter (· ≠ '_')).span (· ≠ '.') =
      (whole.filter (· ≠ '_'), fraction.filter (· ≠ '_')) := by
    refine Lexer.span_of_all (fun c hc => decide_eq_true ?_) ?_
    · rintro rfl
      cases h.whole _ (List.mem_filter.1 hc).1
    · cases h.fraction <;> rfl
  have hdigits := Text.natInRadix?_filter (by omega) h.digits
  rw [List.filter_append] at hdigits
  rw [h.append, List.filter_append, hexponent]
  unfold decimal?
  rw [hmantissa]
  simp only
  rw [List.filter_append, hwhole]
  simp only
  rw [drop_filter_fraction h.fraction, hdigits, exponent?_of_isExponent h.exponent]
  rfl

/-- Without a mark, a number is a decimal one. -/
theorem ofDigits?_of_unmarked {ds : List Char}
    (h : ∀ c ∈ ds, c ∉ Lexer.radixMarks.map Prod.fst) :
    ofDigits? ds = if ds.any isFloatMark then (decimal? ds).map float
      else (Text.natInRadix? 10 ds).map fun n => integer n := by
  unfold ofDigits?
  simp only
  split
  · rename_i mark digits
    have hmark := h mark (by simp)
    simp only [Lexer.radixMarks, List.map_cons, List.map_nil, List.mem_cons, List.not_mem_nil,
      or_false, not_or] at hmark
    simp only [hmark, or_self, if_false]
  · rfl

theorem ofDigits?_of_mark {mark : Char} {radix : Nat} (h : (mark, radix) ∈ Lexer.radixMarks)
    (digits : List Char) :
    ofDigits? ('0' :: mark :: digits) = (Text.natInRadix? radix digits).map fun n => integer n := by
  simp only [Lexer.radixMarks, List.mem_cons, Prod.mk.injEq, List.not_mem_nil, or_false] at h
  rcases h with ⟨rfl, rfl⟩ | ⟨rfl, rfl⟩ | ⟨rfl, rfl⟩ | ⟨rfl, rfl⟩ | ⟨rfl, rfl⟩ | ⟨rfl, rfl⟩ <;> rfl

end Decimal

/-- A spelling begins with a zero and the mark of a radix. -/
def IsMarked (cs : List Char) : Prop :=
  ∃ mark radix digits, (mark, radix) ∈ Lexer.radixMarks ∧ cs = '0' :: mark :: digits

/-- What a spelling denotes: the integer that its digits denote in the radix of its mark, or in
    radix ten if there is neither a mark nor a point nor an exponent, and otherwise the double
    precision number nearest to the decimal one. -/
structure IsDenotedBy (value : Number) (cs : List Char) : Prop where
  marked : ∀ mark radix digits, (mark, radix) ∈ Lexer.radixMarks → cs = '0' :: mark :: digits →
    Text.IsDigitRun radix digits ∧ value = .integer (Text.valueIn radix digits)
  whole : ¬IsMarked cs → (∀ c ∈ cs, c ∉ ['.', 'e', 'E']) →
    Text.IsDigitRun 10 cs ∧ value = .integer (Text.valueIn 10 cs)
  fractional : ¬IsMarked cs → (∃ c ∈ cs, c ∈ ['.', 'e', 'E']) →
    ∃ whole fraction exponent, Lexer.IsDecimal cs whole fraction exponent ∧
      value = .float (Double.ofDecimal false (Text.valueIn 10 (whole ++ fraction.drop 1))
        (exponentValue exponent - places fraction))

/-- The mark decides on the radix. -/
theorem isDenotedBy_marked {mark : Char} {radix : Nat} {digits : List Char}
    (hmark : (mark, radix) ∈ Lexer.radixMarks) (hdigits : Text.IsDigitRun radix digits) :
    (integer (Text.valueIn radix digits)).IsDenotedBy ('0' :: mark :: digits) where
  marked mark' radix' digits' hmark' heq := by
    cases heq
    have hradix := (Lexer.radix?_eq_some_iff.2 hmark).symm.trans (Lexer.radix?_eq_some_iff.2 hmark')
    cases hradix
    exact ⟨hdigits, rfl⟩
  whole hunmarked _ := absurd ⟨mark, radix, digits, hmark, rfl⟩ hunmarked
  fractional hunmarked _ := absurd ⟨mark, radix, digits, hmark, rfl⟩ hunmarked

/-- A numeral with the mark of a radix is read as what its digits denote in this radix. -/
theorem exists_value_of_mark {mark : Char} {radix : Nat} {digits : List Char}
    (hmark : (mark, radix) ∈ Lexer.radixMarks) (hdigits : Text.IsDigitRun radix digits) :
    ∃ value, ofDigits? (('0' :: mark :: digits).filter (· ≠ '_')) = some value ∧
      value.IsDenotedBy ('0' :: mark :: digits) := by
  have hplain : mark ≠ '_' := by
    rintro rfl
    revert hmark
    simp [Lexer.radixMarks]
  refine ⟨_, ?_, isDenotedBy_marked hmark hdigits⟩
  rw [List.filter_cons_of_pos (by decide), List.filter_cons_of_pos (by simpa using hplain),
    ofDigits?_of_mark hmark, Text.natInRadix?_filter (Lexer.radix_le_of_mark hmark) hdigits]
  rfl

theorem isFloatMark_iff {c : Char} : isFloatMark c = true ↔ c ∈ ['.', 'e', 'E'] := by
  simp [isFloatMark, or_assoc]

/-- Without a point and an exponent there are digits alone. -/
theorem digits_of_isDecimal {cs whole fraction exponent : List Char}
    (h : Lexer.IsDecimal cs whole fraction exponent) (hfloat : ∀ c ∈ cs, c ∉ ['.', 'e', 'E']) :
    Text.IsDigitRun 10 cs := by
  have hcs : cs = whole := by
    have happend := h.append
    cases h.fraction with
    | some => exact absurd (by decide) (hfloat '.' (by simp [happend]))
    | none =>
        cases h.exponent with
        | none => simpa using happend
        | @some e _ _ he =>
            refine absurd ?_ (hfloat e (by simp [happend]))
            rcases he with rfl | rfl <;> decide
  rw [hcs]
  exact Lexer.isDigitRun_of_part h.whole h.exists_digit

/-- A decimal numeral is read, and as the value that it denotes: a float if it has a point or an
    exponent, an integer otherwise. -/
theorem exists_value_of_isDecimal {cs whole fraction exponent : List Char}
    (hunmarked : ¬IsMarked cs) (h : Lexer.IsDecimal cs whole fraction exponent) :
    ∃ value, ofDigits? (cs.filter (· ≠ '_')) = some value ∧ value.IsDenotedBy cs := by
  have hmarked : ∀ mark radix digits, (mark, radix) ∈ Lexer.radixMarks →
      cs ≠ '0' :: mark :: digits := fun mark radix digits hmark heq =>
    hunmarked ⟨mark, radix, digits, hmark, heq⟩
  -- No letter but that of an exponent is in the spelling, so none moves up behind a zero.
  have hletters : ∀ c ∈ cs.filter (· ≠ '_'), c ∉ Lexer.radixMarks.map Prod.fst := by
    intro c hc hmark
    have hall : ∀ d ∈ Lexer.radixMarks.map Prod.fst,
        ¬(d.isDigit = true ∨ d ∈ ['_', '.', 'e', 'E', '+', '-']) := by
      simp [Lexer.radixMarks]
    exact hall c hmark (h.mem c (List.mem_filter.1 hc).1)
  rw [ofDigits?_of_unmarked hletters]
  by_cases hfloat : ∃ c ∈ cs, c ∈ ['.', 'e', 'E']
  · have hany : (cs.filter (· ≠ '_')).any isFloatMark = true := by
      rcases hfloat with ⟨c, hc, hmark⟩
      refine List.any_eq_true.2 ⟨c, List.mem_filter.2 ⟨hc, decide_eq_true ?_⟩,
        isFloatMark_iff.2 hmark⟩
      rintro rfl
      revert hmark
      decide
    rw [if_pos hany, decimal?_of_isDecimal h]
    exact ⟨_, rfl, fun mark radix digits hmark heq => absurd heq (hmarked mark radix digits hmark),
      fun _ hnone => absurd hfloat fun ⟨c, hc, hmark⟩ => hnone c hc hmark,
      fun _ _ => ⟨whole, fraction, exponent, h, rfl⟩⟩
  · have hnone : ∀ c ∈ cs, c ∉ ['.', 'e', 'E'] := fun c hc hmark => hfloat ⟨c, hc, hmark⟩
    have hany : (cs.filter (· ≠ '_')).any isFloatMark = false :=
      List.any_eq_false.2 fun c hc hmark =>
        hnone c (List.mem_filter.1 hc).1 (isFloatMark_iff.1 hmark)
    have hdigits := digits_of_isDecimal h hnone
    rw [hany, if_neg Bool.false_ne_true, Text.natInRadix?_filter (by omega) hdigits]
    exact ⟨_, rfl, fun mark radix digits hmark heq => absurd heq (hmarked mark radix digits hmark),
      fun _ _ => ⟨hdigits, rfl⟩, fun _ hsome => absurd hsome hfloat⟩

/-- The spelling of a number has a value, the one that it denotes. -/
theorem exists_value {text : String} (h : Lexer.IsNumeral text.toList) :
    ∃ value, ofText? text = some value ∧ value.IsDenotedBy text.toList := by
  unfold ofText?
  generalize text.toList = cs at h ⊢
  by_cases hmarked : IsMarked cs
  · rcases hmarked with ⟨mark, radix, digits, hmark, rfl⟩
    exact exists_value_of_mark hmark (h.digits_of_mark hmark)
  · rcases h.isDecimal fun mark radix ds hmark heq => hmarked ⟨mark, radix, ds, hmark, heq⟩ with
      ⟨whole, fraction, exponent, hparts⟩
    exact exists_value_of_isDecimal hmarked hparts

end Number

/-! ### Tokens and patterns -/

namespace Parse

variable {env : Env} {s : State}

theorem literalOf_number {source : String} {t : Token} {value : Number} (hkind : t.kind = .number)
    (hvalue : Number.ofText? t.text = some value) :
    literalOf source t = .ok (.number value t.text t.position) := by
  rw [literalOf, hkind]
  simp only [hvalue]

/-- A pattern that is an integer says nothing of how the integer was written. -/
theorem pattern_run_integer {n : Int} (g : Grammar) (hguard : env.guard.Admits s.depth)
    (hkind : s.token.kind = .number) (hvalue : Number.ofText? s.token.text = some (.integer n)) :
    ∃ t, pattern g env s =
      .ok (.literal (.number (.integer n) (toString n) s.token.position) s.token.position) t := by
  have htoken : (s.filled.atDepth (s.depth + 1)).filled.token = s.token := by
    rw [State.token_filled]
    exact s.token_filled
  have hliteral : literalOf env.source (s.filled.atDepth (s.depth + 1)).filled.token =
      .ok (.number (.integer n) s.token.text s.token.position) := by
    rw [htoken]
    exact literalOf_number hkind hvalue
  have hcurrent : current env (s.filled.atDepth (s.depth + 1)) =
      .ok s.token (s.filled.atDepth (s.depth + 1)).filled := by
    rw [current_run, ← State.token_filled, htoken]
  rw [pattern, nested_run, hguard]
  simp only [bind_run, hcurrent, hkind, literal_ok hliteral, normalizeLiteral]
  exact ⟨_, rfl⟩

end Parse

/-- Every number that the lexer reads has a value, the one that its spelling denotes, and two
    numbers that denote one integer make the same pattern, apart from positions. -/
theorem numbers_have_values :
    (∀ (lx lx' : Lexer) (t : Token), lx.next = (.ok t, lx') → t.kind = .number →
      ∃ value, Number.ofText? t.text = some value ∧ value.IsDenotedBy t.text.toList ∧
        ∀ source, Parse.literalOf source t = .ok (.number value t.text t.position)) ∧
    ∀ (g g' : Grammar) (env env' : Parse.Env) (s s' : Parse.State) (n : Int),
      env.guard.Admits s.depth → env'.guard.Admits s'.depth →
      s.token.kind = .number → s'.token.kind = .number →
      Number.ofText? s.token.text = some (.integer n) →
      Number.ofText? s'.token.text = some (.integer n) →
      ∃ p t p' t', Parse.pattern g env s = .ok p t ∧ Parse.pattern g' env' s' = .ok p' t' ∧
        SamePattern p p' := by
  constructor
  · intro lx lx' t hnext hkind
    have hnumeral := Lexer.isNumeral_of_scansAs (Lexer.scansAs_of_next hnext) hkind
    rcases Number.exists_value hnumeral with ⟨value, hvalue, hdenoted⟩
    exact ⟨value, hvalue, hdenoted, fun _ => Parse.literalOf_number hkind hvalue⟩
  · intro g g' env env' s s' n hguard hguard' hkind hkind' hvalue hvalue'
    rcases Parse.pattern_run_integer g hguard hkind hvalue with ⟨t, hrun⟩
    rcases Parse.pattern_run_integer g' hguard' hkind' hvalue' with ⟨t', hrun'⟩
    exact ⟨_, t, _, t', hrun, hrun', rfl⟩

/-- One integer in radix sixteen, with underscores, and in radix ten. -/
theorem numbers_have_values_hex :
    let s := Parse.State.initial "0x_F_F"
    let s' := Parse.State.initial "2__55"
    let env : Parse.Env := ⟨"0x_F_F", .ofList [], ⟨1, true⟩⟩
    (∃ t lx, (Lexer.ofSource "0x_F_F").next = (.ok t, lx) ∧ t.kind = .number ∧
      ∃ value, Number.ofText? t.text = some value ∧ value.IsDenotedBy t.text.toList) ∧
    (env.guard.Admits s.depth ∧ s.token.kind = .number ∧ s'.token.kind = .number ∧
      Number.ofText? s.token.text = some (.integer 255) ∧
      Number.ofText? s'.token.text = some (.integer 255)) ∧
    ∃ p t p' t', Parse.pattern .bottom env s = .ok p t ∧
      Parse.pattern .bottom { env with source := "2__55" } s' = .ok p' t' ∧ SamePattern p p' := by
  intro s s' env
  have hguard : env.guard.Admits s.depth := Parse.enter_of_below fun _ => by decide
  have hkind : s.token.kind = .number := by decide
  have hkind' : s'.token.kind = .number := by decide
  have hvalue : Number.ofText? s.token.text = some (.integer 255) := by decide
  have hvalue' : Number.ofText? s'.token.text = some (.integer 255) := by decide
  have hnext : (Lexer.ofSource "0x_F_F").next =
      (.ok ⟨.number, "0x_F_F", .start, 6⟩, (Lexer.ofSource "0x_F_F").next.2) := by
    rfl
  rcases numbers_have_values.1 _ _ _ hnext rfl with ⟨value, htext, hdenoted, -⟩
  exact ⟨⟨_, _, hnext, rfl, value, htext, hdenoted⟩, ⟨hguard, hkind, hkind', hvalue, hvalue'⟩,
    numbers_have_values.2 _ _ env { env with source := "2__55" } s s' 255 hguard hguard hkind hkind'
      hvalue hvalue'⟩

end PolyScript
