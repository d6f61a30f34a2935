import Mathlib.Data.Bool.AllAny
import PolyScript.Proofs.Shift
import PolyScript.Proofs.Standing

/-!
# Texts Inside Texts

A text may stand inside a longer one: behind some whole lines, and before a line feed
or the end. A lexer that reads the copy finds the tokens it would find in the text by
itself, moved by what stands before. Nothing that follows matters, because a line feed
ends whatever a token could consist of. The exceptions are the end of the text, where
the copy may go on with a line feed, and a newline token before the end, which takes
the white space behind it along and so leads out of the copy.

## Main definitions

* `LineEnd`: Nothing follows, or a new line.
* `Breaks`: Something follows at which names and numbers are over.
* `Lexer.Retells`: A lexer stands in the copy where another one stands in the text.

## Theorems

* `Lexer.skipBlank_within`: White space before a line end.
* `Lexer.scanToken_within`: Tokens before a text at which they are over.
* `Lexer.Retells.next_ok`, `Lexer.Retells.next_newline`, `Lexer.Retells.next_end`: The
  tokens of a copy.
-/

namespace PolyScript

/-- Nothing follows, or a new line. -/
def LineEnd (tail : List Char) : Prop := tail = [] ∨ ∃ rest, tail = '\n' :: rest

variable {δ : Shift} {tail : List Char}

theorem LineEnd.any_head? (h : LineEnd tail) {p : Char → Bool} (hp : p '\n' = false)
    (cs : List Char) : (cs ++ tail).head?.any p = cs.head?.any p := by
  cases cs with
  | nil =>
      rcases h with rfl | ⟨rest, rfl⟩
      · rfl
      · exact hp
  | cons c cs => rfl

/-- The characters at which names and numbers are over, apart from the point. -/
def breakers : List Char := ['\n', ' ', ',', ':', '(', ')', '[', ']', '\x7b', '\x7d']

/-- A text at which names and numbers are over. A point is one if it does not begin a
    fraction. -/
inductive Breaks : List Char → Prop
  | finish : Breaks []
  | mark {c : Char} {cs : List Char} : c ∈ breakers → Breaks (c :: cs)
  | field {c : Char} {cs : List Char} : Lexer.isNameStart c = true → Breaks ('.' :: c :: cs)

theorem LineEnd.breaks (h : LineEnd tail) : Breaks tail := by
  rcases h with rfl | ⟨rest, rfl⟩
  · exact .finish
  · exact .mark (by decide)

theorem Breaks.mem {c : Char} {cs : List Char} (h : Breaks (c :: cs)) : c ∈ '.' :: breakers := by
  cases h with
  | mark hc => exact List.mem_cons_of_mem _ hc
  | field => exact List.mem_cons_self

theorem Breaks.any_head? (h : Breaks tail) {p : Char → Bool}
    (hp : ∀ c ∈ '.' :: breakers, p c = false) (cs : List Char) :
    (cs ++ tail).head?.any p = cs.head?.any p := by
  cases cs with
  | nil =>
      cases tail with
      | nil => rfl
      | cons c rest => exact hp c h.mem
  | cons c cs => rfl

/-- A run of characters is not prolonged by a text that begins with another character. -/
theorem span_append {p : Char → Bool} {rest : List Char} (h : rest.head?.any p = false)
    (cs : List Char) : (cs ++ rest).span p = ((cs.span p).1, (cs.span p).2 ++ rest) := by
  simp only [List.span_eq_takeWhile_dropWhile]
  induction cs with
  | nil =>
      cases rest with
      | nil => rfl
      | cons c rest =>
          have hc : p c = false := h
          simp [hc]
  | cons c cs ih =>
      rw [Prod.mk.injEq] at ih
      rw [List.cons_append, List.takeWhile_cons, List.dropWhile_cons, List.takeWhile_cons,
        List.dropWhile_cons]
      cases p c with
      | true => simp [ih.1, ih.2]
      | false => rfl

theorem Breaks.span_append (h : Breaks tail) {p : Char → Bool}
    (hp : ∀ c ∈ '.' :: breakers, p c = false) (cs : List Char) :
    (cs ++ tail).span p = ((cs.span p).1, (cs.span p).2 ++ tail) :=
  PolyScript.span_append (h.any_head? hp []) cs

/-! ### Moved places -/

theorem Position.shift_advance (p : Position) (c : Char) :
    (p.advance c).shift δ = (p.shift δ).advance c := by
  unfold advance
  split
  · simp only [shift, mk.injEq, true_and]
    omega
  · simp only [shift, mk.injEq, true_and]
    omega

theorem Position.shift_advanceAll (p : Position) (cs : List Char) :
    (p.advanceAll cs).shift δ = (p.shift δ).advanceAll cs := by
  induction cs generalizing p with
  | nil => rfl
  | cons c cs ih => rw [advanceAll_cons, advanceAll_cons, ih, shift_advance]

namespace Lexer

/-- The cursor at the same character of a moved copy that something follows. -/
def moved (δ : Shift) (tail : List Char) (c : Cursor) : Cursor :=
  ⟨c.rest ++ tail, c.here.shift δ⟩

/-! ### White space -/

/-- Whether a comment starts is known from two characters. -/
theorem startsComment_cons (c : Char) (cs : List Char) :
    startsComment (c :: cs) = (c == '#' || (c == '/' && cs.head?.any (· == '/'))) := by
  unfold startsComment
  split
  · rename_i heq
    cases heq
    rfl
  · rename_i heq
    cases heq
    rfl
  -- Neither pattern matched, so the first character is no `#` and no slash before another.
  · rename_i hnumber hslashes
    have hc : c ≠ '#' := by
      rintro rfl
      exact hnumber cs rfl
    cases cs with
    | nil => simp [hc]
    | cons d cs =>
        by_cases hslash : c = '/' ∧ d = '/'
        · exact absurd (by rw [hslash.1, hslash.2]) (hslashes cs)
        · simpa [hc] using hslash

theorem startsComment_append (h : LineEnd tail) (c : Char) (cs : List Char) :
    startsComment (c :: (cs ++ tail)) = startsComment (c :: cs) := by
  rw [startsComment_cons, startsComment_cons, h.any_head? (by decide)]

/-- Blanks before a line end are skipped as if nothing followed. -/
theorem skipBlank_within (h : LineEnd tail) (inComment : Bool) (cs : List Char) (p : Position) :
    skipBlank false inComment (cs ++ tail) (p.shift δ) =
      moved δ tail (skipBlank false inComment cs p) := by
  fun_induction skipBlank false inComment cs p with
  | case1 inComment p =>
      rcases h with rfl | ⟨rest, rfl⟩
      · rw [List.append_nil, skipBlank]
        rfl
      · cases inComment <;> rfl
  | case2 _ _ h => cases h
  | case3 => rfl
  | case4 c cs p hc ih =>
      rw [List.cons_append, skipBlank, if_neg hc, ← Position.shift_advance, ih]
  | case5 c cs p hblank ih =>
      rw [List.cons_append, skipBlank, if_pos hblank, ← Position.shift_advance, ih]
  | case6 c cs p hblank hcomment ih =>
      rw [List.cons_append, skipBlank, if_neg hblank, startsComment_append h, if_pos hcomment,
        ← Position.shift_advance, ih]
  | case7 c cs p hblank hcomment =>
      rw [List.cons_append, skipBlank, if_neg hblank, startsComment_append h, if_neg hcomment]
      rfl

/-- Across lines no line feed is left to begin with. -/
theorem skipBlank_across_head (inComment : Bool) (cs : List Char) (p : Position) :
    (skipBlank true inComment cs p).rest.head? ≠ some '\n' := by
  fun_induction skipBlank true inComment cs p with
  | case1 => simp
  | case2 _ _ _ ih => exact ih
  | case3 _ _ hacross => exact absurd rfl hacross
  | case4 _ _ _ _ ih => exact ih
  | case5 _ _ _ _ ih => exact ih
  | case6 _ _ _ _ _ ih => exact ih
  | case7 c cs p hblank =>
      intro hhead
      cases hhead
      exact hblank (by decide)

/-- Skipping across lines may begin with skipping to the end of the line. -/
theorem skipBlank_lines (inComment : Bool) (cs : List Char) (p : Position) :
    skipBlank true inComment cs p = skipBlank true false (skipBlank false inComment cs p).rest
      (skipBlank false inComment cs p).here := by
  fun_induction skipBlank false inComment cs p with
  | case1 => rfl
  | case2 _ _ hacross => cases hacross
  | case3 cs p _ => rw [skipBlank, skipBlank]; rfl
  | case4 c cs p hc ih => rw [skipBlank, if_neg hc, ih]
  | case5 c cs p hblank ih =>
      rw [skipBlank, if_pos (by simp only [Bool.and_eq_true] at hblank; simp [hblank.1]), ih]
  | case6 c cs p hblank hcomment ih =>
      have hnot : ¬(Text.isBlank c && (true || decide (c ≠ '\n'))) = true := by
        intro h
        by_cases hline : c = '\n'
        · rw [hline] at hcomment
          cases hcomment
        · exact hblank (by simp_all)
      rw [skipBlank, if_neg hnot, if_pos hcomment, ih]
  | case7 c cs p hblank hcomment => rfl

/-- Where white space in a line ends, and not in a line feed, it ends altogether. -/
theorem skipBlank_stay {cs : List Char} {p : Position} (h : skipBlank false false cs p = ⟨cs, p⟩)
    (hline : cs.head? ≠ some '\n') : skipBlank true false cs p = ⟨cs, p⟩ := by
  cases cs with
  | nil => rfl
  | cons c cs =>
      rw [skipBlank] at h ⊢
      have hblank : Text.isBlank c = false := by
        by_contra hblank
        rw [if_pos (by simp_all)] at h
        -- Were it skipped, less would be left than there is.
        rcases skipBlank_leads false false cs (p.advance c) with ⟨skipped, hskipped, -⟩
        rw [h] at hskipped
        have hlength := congrArg List.length hskipped
        simp at hlength
        omega
      rw [if_neg (by simp [hblank])] at h ⊢
      split at h
      · rename_i hcomment
        rcases skipBlank_leads false true cs (p.advance c) with ⟨skipped, hskipped, -⟩
        rw [h] at hskipped
        have hlength := congrArg List.length hskipped
        simp at hlength
        omega
      · rename_i hcomment
        rw [if_neg hcomment]

/-- Across lines the same is true as long as something is left, or nothing follows. -/
theorem skipBlank_across (h : LineEnd tail) (inComment : Bool) (cs : List Char) (p : Position)
    (hrest : (skipBlank true inComment cs p).rest ≠ [] ∨ tail = []) :
    skipBlank true inComment (cs ++ tail) (p.shift δ) =
      moved δ tail (skipBlank true inComment cs p) := by
  fun_induction skipBlank true inComment cs p with
  | case1 inComment p =>
      rcases hrest with hrest | rfl
      · exact absurd rfl hrest
      · rw [List.append_nil, skipBlank]
        rfl
  | case2 p cs _ ih =>
      rw [List.cons_append, skipBlank, if_pos rfl, if_pos rfl, ← Position.shift_advance, ih hrest]
  | case3 _ _ h => exact absurd rfl h
  | case4 c cs p hc ih =>
      rw [List.cons_append, skipBlank, if_neg hc, ← Position.shift_advance, ih hrest]
  | case5 c cs p hblank ih =>
      rw [List.cons_append, skipBlank, if_pos hblank, ← Position.shift_advance, ih hrest]
  | case6 c cs p hblank hcomment ih =>
      rw [List.cons_append, skipBlank, if_neg hblank, startsComment_append h, if_pos hcomment,
        ← Position.shift_advance, ih hrest]
  | case7 c cs p hblank hcomment =>
      rw [List.cons_append, skipBlank, if_neg hblank, startsComment_append h, if_neg hcomment]
      rfl

/-- If nothing is left of the text, white space goes on behind the line feed. -/
theorem skipBlank_through (inComment : Bool) (cs rest : List Char) (p : Position)
    (hrest : (skipBlank true inComment cs p).rest = []) :
    skipBlank true inComment (cs ++ '\n' :: rest) (p.shift δ) =
      skipBlank true false rest (((skipBlank true inComment cs p).here.shift δ).advance '\n') := by
  fun_induction skipBlank true inComment cs p with
  | case1 inComment p => cases inComment <;> rfl
  | case2 p cs _ ih =>
      rw [List.cons_append, skipBlank, if_pos rfl, if_pos rfl, ← Position.shift_advance, ih hrest]
  | case3 _ _ h => exact absurd rfl h
  | case4 c cs p hc ih =>
      rw [List.cons_append, skipBlank, if_neg hc, ← Position.shift_advance, ih hrest]
  | case5 c cs p hblank ih =>
      rw [List.cons_append, skipBlank, if_pos hblank, ← Position.shift_advance, ih hrest]
  | case6 c xs p hblank hcomment ih =>
      have hcomment' : startsComment (c :: (xs ++ '\n' :: rest)) = true := by
        rw [startsComment_append (.inr ⟨rest, rfl⟩), hcomment]
      rw [List.cons_append, skipBlank, if_neg hblank, if_pos hcomment', ← Position.shift_advance,
        ih hrest]
  | case7 => cases hrest

/-! ### Words and numbers -/

/-- A word is split off in front of a tail as it is on its own. -/
theorem splitWord_within (h : Breaks tail) (sizeMode : Bool) (cs : List Char) :
    splitWord sizeMode (cs ++ tail) =
      ((splitWord sizeMode cs).1, (splitWord sizeMode cs).2 ++ tail) := by
  induction cs with
  | nil =>
      cases tail with
      | nil => rfl
      | cons c rest =>
          have hover : ∀ c ∈ '.' :: breakers, isNamePart c = false ∧ c ≠ '-' :=
            List.all_iff_forall_prop.1 (by decide +kernel)
          exact splitWord_stop (hover c h.mem).1 fun hdash => absurd hdash (hover c h.mem).2
  | cons c cs ih =>
      have hletter : ∀ c ∈ '.' :: breakers, Text.isAlphabetic c = false :=
        List.all_iff_forall_prop.1 (by decide +kernel)
      rw [List.cons_append, splitWord, splitWord, h.any_head? hletter, ih]
      split <;> rfl

/-- A number that something follows. -/
def NumberSplit.before (number : NumberSplit) (tail : List Char) : NumberSplit :=
  { number with rest := number.rest ++ tail }

/-- The digits of a radix are split off in front of a tail as they are on their own. -/
theorem splitRadix_within (h : Breaks tail) {c : Char} {radix : Nat}
    (hradix : radix? c = some radix) (mark cs : List Char) :
    splitRadix radix mark (cs ++ tail) = (splitRadix radix mark cs).before tail := by
  have hdigit : ∀ d ∈ '.' :: breakers, (Text.isDigitIn radix d || decide (d = '_')) = false := by
    unfold radix? at hradix
    split at hradix
    · cases hradix
      exact List.all_iff_forall_prop.1 (by decide)
    · split at hradix
      · cases hradix
        exact List.all_iff_forall_prop.1 (by decide)
      · split at hradix
        · cases hradix
          exact List.all_iff_forall_prop.1 (by decide)
        · cases hradix
  have hletter : ∀ d ∈ '.' :: breakers, Text.isAlphanumeric d = false :=
    List.all_iff_forall_prop.1 (by decide +kernel)
  unfold splitRadix
  rw [h.span_append hdigit]
  simp only [h.any_head? hletter]
  rfl

theorem span_decimal_within (h : Breaks tail) (cs : List Char) :
    (cs ++ tail).span isDecimalPart =
      ((cs.span isDecimalPart).1, (cs.span isDecimalPart).2 ++ tail) :=
  h.span_append (List.all_iff_forall_prop.1 (by decide)) cs

theorem splitFraction_ne {c : Char} (hc : c ≠ '.') (cs : List Char) :
    splitFraction (c :: cs) = ([], c :: cs) := by
  unfold splitFraction
  split
  · rename_i heq
    cases heq
    exact absurd rfl hc
  · rfl

/-- A point is no part of a number if no digit follows. -/
theorem splitFraction_point {d : Char} (hd : d.isDigit = false) (cs : List Char) :
    splitFraction ('.' :: d :: cs) = ([], '.' :: d :: cs) := by
  rw [splitFraction, hd]
  rfl

/-- A fraction is split off in front of a tail as it is on its own, since no tail begins with a
    point and a digit. -/
theorem splitFraction_within (h : Breaks tail) (cs : List Char) :
    splitFraction (cs ++ tail) = ((splitFraction cs).1, (splitFraction cs).2 ++ tail) := by
  cases cs with
  | nil =>
      cases h with
      | finish => rfl
      | @mark c rest hc =>
          have hpoint : ∀ c ∈ breakers, c ≠ '.' := List.all_iff_forall_prop.1 (by decide)
          exact splitFraction_ne (hpoint c hc) rest
      | @field c rest hc => exact splitFraction_point (isDigit_of_isNameStart hc) rest
  | cons c cs =>
      -- Only a point can begin a fraction, and whether it does is settled by the character behind
      -- it.
      by_cases hc : c = '.'
      · subst hc
        cases cs with
        | nil =>
            cases tail with
            | nil => rfl
            | cons d rest =>
                have hdigit : ∀ d ∈ '.' :: breakers, d.isDigit = false :=
                  List.all_iff_forall_prop.1 (by decide)
                exact splitFraction_point (hdigit d h.mem) rest
        | cons d cs =>
            rw [List.cons_append, List.cons_append, splitFraction, splitFraction,
              ← List.cons_append, span_decimal_within h]
            split <;> rfl
      · rw [List.cons_append, splitFraction_ne hc, splitFraction_ne hc]
        rfl

theorem splitSign_within (h : Breaks tail) (cs : List Char) :
    splitSign (cs ++ tail) = ((splitSign cs).1, (splitSign cs).2 ++ tail) := by
  cases cs with
  | nil =>
      cases tail with
      | nil => rfl
      | cons c rest =>
          have hsign : ∀ c ∈ '.' :: breakers, ¬(c = '+' ∨ c = '-') :=
            List.all_iff_forall_prop.1 (by decide)
          exact if_neg (hsign c h.mem)
  | cons c cs =>
      rw [List.cons_append, splitSign, splitSign]
      split <;> rfl

/-- An exponent is split off in front of a tail as it is on its own. -/
theorem splitExponent_within (h : Breaks tail) (cs : List Char) :
    splitExponent (cs ++ tail) = ((splitExponent cs).1, (splitExponent cs).2 ++ tail) := by
  cases cs with
  | nil =>
      cases tail with
      | nil => rfl
      | cons c rest =>
          have hmark : ∀ c ∈ '.' :: breakers, ¬(c = 'e' ∨ c = 'E') :=
            List.all_iff_forall_prop.1 (by decide)
          exact if_neg (hmark c h.mem)
  | cons e cs =>
      have hdigit : ∀ d ∈ '.' :: breakers, d.isDigit = false :=
        List.all_iff_forall_prop.1 (by decide)
      rw [List.cons_append, splitExponent, splitExponent, splitSign_within h]
      simp only [h.span_append hdigit]
      split
      · split <;> rfl
      · rfl

theorem splitDecimal_within (h : Breaks tail) (cs : List Char) :
    splitDecimal (cs ++ tail) = (splitDecimal cs).before tail := by
  have hname : ∀ c ∈ '.' :: breakers, isNameStart c = false :=
    List.all_iff_forall_prop.1 (by decide +kernel)
  unfold splitDecimal
  rw [span_decimal_within h]
  simp only [splitFraction_within h, splitExponent_within h, h.any_head? hname]
  rfl

theorem splitNumber_cons {c : Char} {cs : List Char} (h : c ≠ '0' ∨ cs = []) :
    splitNumber (c :: cs) = splitDecimal (c :: cs) := by
  unfold splitNumber
  split
  · rename_i heq
    cases heq
    rcases h with h | h
    · exact absurd rfl h
    · cases h
  · rfl

/-- A number is split off in front of a tail as it is on its own, with or without the mark of a
    radix. -/
theorem splitNumber_within (h : Breaks tail) (cs : List Char) :
    splitNumber (cs ++ tail) = (splitNumber cs).before tail := by
  have hbegins : ∀ c ∈ '.' :: breakers, c ≠ '0' ∧ radix? c = none :=
    List.all_iff_forall_prop.1 (by decide)
  cases cs with
  | nil =>
      cases tail with
      | nil => rfl
      | cons c rest =>
          rw [List.nil_append, splitNumber_cons (.inl (hbegins c h.mem).1)]
          exact splitDecimal_within h []
  | cons c cs =>
      -- Only a zero can announce a radix, and what follows a number announces none.
      by_cases hc : c = '0'
      · subst hc
        cases cs with
        | nil =>
            rw [splitNumber_cons (.inr rfl), ← splitDecimal_within h]
            cases tail with
            | nil => rfl
            | cons c rest =>
                rw [List.singleton_append, splitNumber, (hbegins c h.mem).2]
        | cons d cs =>
            rw [List.cons_append, List.cons_append, splitNumber, splitNumber]
            split
            · rename_i radix hd
              exact splitRadix_within h hd _ cs
            · exact splitDecimal_within h ('0' :: d :: cs)
      · rw [List.cons_append, splitNumber_cons (.inl hc), splitNumber_cons (.inl hc)]
        exact splitDecimal_within h (c :: cs)

/-! ### Strings -/

/-- A string that is closed is closed whatever follows, and wherever it stands. The text behind
    the closing quote is never looked at, which is what allows a literal to be cut out of one
    text and put into another. -/
theorem scanString_used {quote : Char} {start : Position} {escape : Option (Position × List Char)}
    {text cs : List Char} {p : Position} {result : String} {after : Cursor}
    (h : scanString quote start escape text cs p = (.ok result, after)) :
    ∃ used, cs = used ++ after.rest ∧ after.here = p.advanceAll used ∧
      ∀ (start' : Position) (escape' : Option (Position × List Char)) (tail : List Char)
        (p' : Position), escape'.map Prod.snd = escape.map Prod.snd →
        scanString quote start' escape' text (used ++ tail) p' =
          (.ok result, ⟨tail, p'.advanceAll used⟩) := by
  -- By induction along the scan. Places matter for errors alone, so of an escape that is open
  -- only its digits have to be the same.
  fun_induction scanString quote start escape text cs p with
  | case1 => cases h
  | case2 => cases h
  | case3 escape digits text cs p scalar hscalar ih =>
      rcases ih h with ⟨used, hcs, hhere, hread⟩
      refine ⟨'\x7d' :: used, by rw [List.cons_append, ← hcs], hhere,
        fun start' escape' tail p' hescape => ?_⟩
      rcases escape' with _ | ⟨escape', digits'⟩
      · cases hescape
      · cases hescape
        rw [List.cons_append, scanString, if_pos rfl]
        simp only [hscalar]
        exact hread start' none tail _ rfl
  | case4 => cases h
  | case5 escape digits text c cs p hc ih =>
      rcases ih h with ⟨used, hcs, hhere, hread⟩
      refine ⟨c :: used, by rw [List.cons_append, ← hcs], hhere,
        fun start' escape' tail p' hescape => ?_⟩
      rcases escape' with _ | ⟨escape', digits'⟩
      · cases hescape
      · cases hescape
        rw [List.cons_append, scanString, if_neg hc]
        exact hread start' (some (escape', c :: digits)) tail _ rfl
  | case6 text cs p =>
      cases h
      refine ⟨[quote], rfl, rfl, fun start' escape' tail p' hescape => ?_⟩
      rcases escape' with _ | escape'
      · rw [List.singleton_append]
        unfold scanString
        rw [if_pos rfl]
        rfl
      · cases hescape
  | case7 => cases h
  | case8 => cases h
  | case9 text p c cs scalar hscalar hq hn ih =>
      rcases ih h with ⟨used, hcs, hhere, hread⟩
      refine ⟨'\\' :: c :: used, by rw [List.cons_append, List.cons_append, ← hcs], hhere,
        fun start' escape' tail p' hescape => ?_⟩
      rcases escape' with _ | escape'
      · rw [List.cons_append, List.cons_append]
        unfold scanString
        rw [if_neg hq, if_neg hn, if_pos rfl]
        simp only [hscalar]
        exact hread start' none tail _ rfl
      · cases hescape
  | case10 text p cs hq hn hu ih =>
      rcases ih h with ⟨used, hcs, hhere, hread⟩
      refine ⟨'\\' :: 'u' :: '\x7b' :: used,
        by rw [List.cons_append, List.cons_append, List.cons_append, ← hcs], hhere,
        fun start' escape' tail p' hescape => ?_⟩
      rcases escape' with _ | escape'
      · rw [List.cons_append, List.cons_append, List.cons_append, scanString, if_neg hq, if_neg hn,
          if_pos rfl]
        simp only [hu, if_true]
        exact hread start' (some (p', [])) tail _ rfl
      · cases hescape
  | case11 => cases h
  | case12 => cases h
  | case13 => cases h
  | case14 text c cs p hq hn hb ih =>
      rcases ih h with ⟨used, hcs, hhere, hread⟩
      refine ⟨c :: used, by rw [List.cons_append, ← hcs], hhere,
        fun start' escape' tail p' hescape => ?_⟩
      rcases escape' with _ | escape'
      · rw [List.cons_append]
        unfold scanString
        rw [if_neg hq, if_neg hn, if_neg hb]
        exact hread start' none tail _ rfl
      · cases hescape

/-- So it is in a copy. -/
theorem scanString_within {quote : Char} {start start' : Position} {text cs : List Char}
    {p : Position} {result : String} {after : Cursor}
    (h : scanString quote start none text cs p = (.ok result, after)) :
    scanString quote start' none text (cs ++ tail) (p.shift δ) =
      (.ok result, moved δ tail after) := by
  rcases scanString_used h with ⟨used, hcs, hhere, hread⟩
  rw [hcs, List.append_assoc, hread start' none (after.rest ++ tail) (p.shift δ) rfl, moved, hhere,
    Position.shift_advanceAll]

/-! ### Tokens -/

/-- A symbol is found at the start of a text whether or not another line follows. -/
theorem isPrefixOf_within (h : LineEnd tail) {symbol : List Char} (hsymbol : '\n' ∉ symbol)
    (cs : List Char) : symbol.isPrefixOf (cs ++ tail) = symbol.isPrefixOf cs := by
  induction symbol generalizing cs with
  | nil => simp
  | cons d symbol ih =>
      have hd : d ≠ '\n' := fun heq => hsymbol (by rw [heq]; exact List.mem_cons_self)
      cases cs with
      | nil =>
          rcases h with rfl | ⟨rest, rfl⟩
          · rfl
          · simp [List.isPrefixOf, hd]
      | cons c cs =>
          rw [List.cons_append, List.isPrefixOf, List.isPrefixOf,
            ih fun hmem => hsymbol (List.mem_cons_of_mem _ hmem)]

theorem symbol?_within (h : LineEnd tail) (cs : List Char) : symbol? (cs ++ tail) = symbol? cs := by
  have hsymbols : ∀ s ∈ Kind.symbols, '\n' ∉ s.1 := by decide
  unfold symbol?
  generalize Kind.symbols = symbols at hsymbols
  induction symbols with
  | nil => rfl
  | cons s symbols ih =>
      rw [List.find?_cons, List.find?_cons, isPrefixOf_within h (hsymbols s List.mem_cons_self),
        ih fun s hs => hsymbols s (List.mem_cons_of_mem _ hs)]

/-- A token is what it is by itself if names and numbers are over where the text goes on,
    unless it is a newline or the end. Whether a symbol is, depends on the symbols there
    are. -/
theorem scanToken_within (h : Breaks tail) {sizeMode : Bool} {cs : List Char} {start : Position}
    {t : Token} {after : Cursor} (hscan : scanToken sizeMode cs start = (.ok t, after))
    (hkind : t.kind ≠ .newline ∧ t.kind ≠ .endOfInput)
    (hsymbols : t.kind ∈ Kind.symbols.map Prod.snd → symbol? (cs ++ tail) = symbol? cs) :
    scanToken sizeMode (cs ++ tail) (start.shift δ) = (.ok (t.shift δ), moved δ tail after) := by
  -- Each kind of token ends in the longer text where it ended alone.
  cases scansAs_of_scanToken hscan with
  | endOfInput => exact absurd rfl hkind.2
  | newline => exact absurd rfl hkind.1
  | @string quote cs text _ hquote hstring =>
      have hstring' : scanString quote (start.shift δ) none [] (cs ++ tail)
          ((start.shift δ).advance quote) = (.ok text, moved δ tail after) := by
        rw [← Position.shift_advance]
        exact scanString_within hstring
      exact scanToken_of_scansAs (.string hquote hstring')
  | @number c cs hdigit hformed =>
      have hnumber := splitNumber_within h (c :: cs)
      have hscans : ScansAs sizeMode (start.shift δ) (c :: (cs ++ tail)) _ _ :=
        .number hdigit (by rw [← List.cons_append, hnumber]; exact hformed)
      rw [← List.cons_append, hnumber] at hscans
      simp only [NumberSplit.before, ← Position.shift_advanceAll] at hscans
      exact scanToken_of_scansAs hscans
  | @word c cs hname =>
      have hscans : ScansAs sizeMode (start.shift δ) (c :: (cs ++ tail)) _ _ := .word hname
      rw [← List.cons_append, splitWord_within h, ← Position.shift_advanceAll] at hscans
      exact scanToken_of_scansAs hscans
  | @symbol c cs text kind hsymbol =>
      rcases mem_of_symbol? hsymbol with ⟨hmem, happend⟩
      have hscans : ScansAs sizeMode (start.shift δ) (c :: (cs ++ tail)) _ _ :=
        .symbol ((hsymbols (List.mem_map_of_mem hmem)).trans hsymbol)
      have hlength : text.length ≤ (c :: cs).length := by
        rw [← happend, List.length_append]
        exact Nat.le_add_right _ _
      rw [← List.cons_append, List.drop_append_of_le_length hlength,
        ← Position.shift_advanceAll] at hscans
      exact scanToken_of_scansAs hscans

/-- A newline token is read at a line feed. -/
theorem scanToken_newline {sizeMode : Bool} {cs : List Char} {start : Position} {t : Token}
    {after : Cursor} (hscan : scanToken sizeMode cs start = (.ok t, after))
    (hkind : t.kind = .newline) :
    ∃ rest, cs = '\n' :: rest ∧ t = ⟨.newline, "\n", start, start.offset + 1⟩ ∧
      after = skipBlank true false cs start := by
  cases scansAs_of_scanToken hscan with
  | newline => exact ⟨_, rfl, rfl, rfl⟩
  | endOfInput | string | number => cases hkind
  | word => exact absurd hkind (ofWord_proper _).2
  | symbol hsymbol => exact absurd hkind (symbols_proper _ (mem_of_symbol? hsymbol).1).2.2

/-! ### Lexers -/

/-- A newline takes the line feeds behind it along, so no other newline follows. -/
theorem next_ne_newline {lx lx' : Lexer} {t : Token} {inComment : Bool} {cs : List Char}
    {p : Position} (hcursor : lx.cursor = skipBlank true inComment cs p)
    (hnext : lx.next = (.ok t, lx')) : t.kind ≠ .newline := by
  intro hline
  rw [next_eq, Prod.mk.injEq] at hnext
  rcases scanToken_newline (Prod.ext hnext.1 rfl) hline with ⟨rest, hrest, -, -⟩
  have hstart : lx.tokenStart = lx.cursor := by
    rw [tokenStart, hcursor]
    exact skipBlank_skipBlank true inComment cs p
  rw [hstart, hcursor] at hrest
  exact skipBlank_across_head inComment cs p (by rw [hrest]; rfl)

/-- The second lexer stands in a moved copy of the text of the first one, at the same
    token, and what is left of the copy is followed by something. -/
def Retells (δ : Shift) (tail : List Char) (lx mx : Lexer) : Prop :=
  mx.sizeMode = lx.sizeMode ∧ mx.tokenStart = moved δ tail lx.tokenStart

theorem retells_of_cursor (h : LineEnd tail) {lx mx : Lexer} (hmode : mx.sizeMode = lx.sizeMode)
    (hcursor : mx.cursor = moved δ tail lx.cursor) : lx.Retells δ tail mx := by
  refine ⟨hmode, ?_⟩
  rw [tokenStart, hcursor]
  exact skipBlank_within h false lx.cursor.rest lx.cursor.here

/-- The end of the text is found where nothing is left. -/
theorem tokenStart_nil {lx lx' : Lexer} {t : Token} (hnext : lx.next = (.ok t, lx')) :
    lx.tokenStart.rest = [] ↔ t.kind = .endOfInput := by
  rw [next_eq, Prod.mk.injEq] at hnext
  rw [← (scanToken_ok (Prod.ext hnext.1 rfl)).2.2.1, Token.isEnd, decide_eq_true_eq]

namespace Retells

variable {lx lx' mx : Lexer} {t : Token}

theorem switched (h : lx.Retells δ tail mx) (sizeMode : Bool) :
    ({ lx with sizeMode } : Lexer).Retells δ tail { mx with sizeMode } := ⟨rfl, h.2⟩

/-- Apart from its ends, a copy has the tokens of the text. -/
theorem next_ok (h : lx.Retells δ tail mx) (htail : LineEnd tail)
    (hnext : lx.next = (.ok t, lx')) (hkind : t.kind ≠ .newline ∧ t.kind ≠ .endOfInput) :
    ∃ mx', mx.next = (.ok (t.shift δ), mx') ∧ lx'.Retells δ tail mx' := by
  rw [next_eq, Prod.mk.injEq] at hnext
  rcases hnext with ⟨hresult, rfl⟩
  have hscan := scanToken_within (δ := δ) htail.breaks (Prod.ext hresult rfl) hkind
    fun _ => symbol?_within htail _
  refine ⟨{ mx with cursor := moved δ tail (scanToken lx.sizeMode lx.tokenStart.rest
    lx.tokenStart.here).2 }, ?_, retells_of_cursor htail h.1 rfl⟩
  rw [next_eq, h.2, h.1, moved, hscan]

/-- A newline of the text is one of the copy. Both lexers are in step behind it unless
    the text is over there. -/
theorem next_newline (h : lx.Retells δ tail mx) (htail : LineEnd tail)
    (hnext : lx.next = (.ok t, lx')) (hkind : t.kind = .newline) :
    ∃ mx', mx.next = (.ok (t.shift δ), mx') ∧ lx'.tokenStart = lx'.cursor ∧
      (lx'.cursor.rest ≠ [] ∨ tail = [] → lx'.Retells δ tail mx') ∧
      (lx'.cursor.rest = [] → ∀ rest, tail = '\n' :: rest →
        mx'.cursor = skipBlank true false rest ((lx'.cursor.here.shift δ).advance '\n')) := by
  rw [next_eq, Prod.mk.injEq] at hnext
  rcases hnext with ⟨hresult, rfl⟩
  rcases scanToken_newline (Prod.ext hresult rfl) hkind with ⟨rest, hrest, ht, hafter⟩
  -- The copy scans the same newline and then skips white space from there, possibly past the end
  -- of the text.
  have hmx : mx.next = (.ok (t.shift δ), { mx with
      cursor := skipBlank true false (lx.tokenStart.rest ++ tail)
        (lx.tokenStart.here.shift δ) }) := by
    have hstop :
        (lx.tokenStart.here.shift δ).offset + 1 = lx.tokenStart.here.offset + 1 + δ.bytes :=
      Nat.add_right_comm _ _ _
    rw [next_eq, h.2, h.1, moved, ht, hrest, List.cons_append]
    simp only [scanToken, if_true, Token.shift, hstop]
  refine ⟨_, hmx, ?_, fun hleft => ?_, fun hnil follow hfollow => ?_⟩
  · rw [tokenStart]
    simp only [hafter]
    exact skipBlank_skipBlank true false lx.tokenStart.rest lx.tokenStart.here
  · refine retells_of_cursor htail h.1 ?_
    simp only [hafter] at hleft ⊢
    exact skipBlank_across htail false _ _ hleft
  · simp only [hafter] at hnil ⊢
    rw [hfollow]
    exact skipBlank_through false _ follow _ hnil

/-- At the end of the text the copy ends too, or it goes on with a line feed. -/
theorem next_end (h : lx.Retells δ tail mx) (htail : LineEnd tail)
    (hnext : lx.next = (.ok t, lx')) (hkind : t.kind = .endOfInput) :
    ∃ u mx', mx.next = (.ok u, mx') ∧
      ((tail = [] ∧ u = t.shift δ ∧ lx'.Retells δ tail mx') ∨
        ∃ rest, tail = '\n' :: rest ∧ u.kind = .newline ∧
          mx'.cursor = skipBlank true false rest ((t.position.shift δ).advance '\n')) := by
  rw [next_eq, Prod.mk.injEq] at hnext
  rcases hnext with ⟨hresult, rfl⟩
  have hnil : lx.tokenStart.rest = [] :=
    (scanToken_ok (Prod.ext hresult rfl)).2.2.1.1 (by simp [Token.isEnd, hkind])
  rw [hnil] at hresult ⊢
  cases hresult
  have hmx : mx.next = ((scanToken lx.sizeMode tail (lx.tokenStart.here.shift δ)).1,
      { mx with cursor := (scanToken lx.sizeMode tail (lx.tokenStart.here.shift δ)).2 }) := by
    rw [next_eq, h.2, h.1, moved, hnil]
    rfl
  rcases htail with rfl | ⟨rest, rfl⟩
  · exact ⟨_, _, hmx, .inl ⟨rfl, rfl, retells_of_cursor (.inl rfl) h.1 rfl⟩⟩
  · exact ⟨_, _, hmx, .inr ⟨rest, rfl, rfl, rfl⟩⟩

end Retells

end Lexer

end PolyScript
