import Mathlib.Computability.RegularExpressions
import PolyScript.Settings.Validate

/-!
# Names in Settings

The names of handlers and of languages are those that regular expressions match:
`[a-z][a-z0-9]*([-_][a-z0-9]+)*` and `[a-z][a-z0-9_]*`. The checks of the names are written
as scans that look at one character after another, with a flag for what came before it. Here
they are shown to find just the texts of these expressions.

For the scan of a language name it is enough to know what the star of a set of characters
matches. The scan of a handler name has two states, and each of them answers to an expression
of its own: what may follow a letter or a digit is `handlerEnd`, and what may follow a dash
or an underscore is a letter or a digit with `handlerEnd` behind it. The expression
`handlerEnd` unfolds into these two (`mem_handlerEnd`), as the scan does.

## Main definitions

* `Settings.oneOf`: Any one character of a text.
* `Settings.handlerName`, `Settings.languageName`: The regular expressions.

## Theorems

* `Settings.isHandlerName_iff`: The names of handlers.
* `Settings.isLanguageName_iff`: The names of languages.
-/

namespace PolyScript

namespace Settings

open RegularExpression

/-- Any one character of a text. -/
def oneOf (chars : String) : RegularExpression Char :=
  (chars.toList.map RegularExpression.char).sum

/-- The expression `[a-z]`. -/
def lower : RegularExpression Char := oneOf "abcdefghijklmnopqrstuvwxyz"

/-- The expression `[a-z0-9]`. -/
def lowerOrDigit : RegularExpression Char := oneOf "abcdefghijklmnopqrstuvwxyz0123456789"

/-- The expression `[a-z0-9]*([-_][a-z0-9]+)*`. -/
def handlerEnd : RegularExpression Char :=
  lowerOrDigit.star * (oneOf "-_" * (lowerOrDigit * lowerOrDigit.star)).star

/-- The expression `[a-z][a-z0-9]*([-_][a-z0-9]+)*`. -/
def handlerName : RegularExpression Char := lower * handlerEnd

/-- The expression `[a-z][a-z0-9_]*`. -/
def languageName : RegularExpression Char :=
  lower * (oneOf "abcdefghijklmnopqrstuvwxyz0123456789_").star

/-! ### What expressions match -/

variable {chars : String} {r : RegularExpression Char} {c : Char} {cs : List Char}

theorem mem_oneOf : cs ∈ (oneOf chars).matches' ↔ ∃ c ∈ chars.toList, cs = [c] := by
  unfold oneOf
  induction chars.toList with
  | nil => simp [Language.notMem_zero]
  | cons d ds ih =>
      have hone : cs ∈ (RegularExpression.char d).matches' ↔ cs = [d] := Iff.rfl
      rw [List.map_cons, List.sum_cons, matches'_add, Language.mem_add, ih, hone,
        List.exists_mem_cons_iff]

/-- One of some characters comes first. -/
theorem cons_mem_oneOf_mul :
    c :: cs ∈ (oneOf chars * r).matches' ↔ c ∈ chars.toList ∧ cs ∈ r.matches' := by
  rw [matches'_mul, Language.mem_mul]
  constructor
  · intro h
    rcases h with ⟨word, hword, rest, hrest, happend⟩
    rcases mem_oneOf.1 hword with ⟨d, hd, rfl⟩
    cases happend
    exact ⟨hd, hrest⟩
  · intro h
    exact ⟨[c], mem_oneOf.2 ⟨c, h.1, rfl⟩, cs, h.2, rfl⟩

theorem nil_not_mem_oneOf_mul : [] ∉ (oneOf chars * r).matches' := by
  rw [matches'_mul, Language.mem_mul]
  intro h
  rcases h with ⟨word, hword, rest, -, happend⟩
  rcases mem_oneOf.1 hword with ⟨d, -, rfl⟩
  cases happend

/-- What a star matches is empty, or begins with what is repeated. -/
theorem matches_star (r : RegularExpression Char) :
    r.star.matches' = (1 + r * r.star).matches' := by
  rw [matches'_add, matches'_epsilon, matches'_mul, matches'_star,
    Language.one_add_self_mul_kstar_eq_kstar]

theorem mem_star_oneOf : cs ∈ (oneOf chars).star.matches' ↔ ∀ c ∈ cs, c ∈ chars.toList := by
  induction cs with
  | nil =>
      rw [matches'_star]
      exact iff_of_true (Language.nil_mem_kstar _) (List.forall_mem_nil _)
  | cons c cs ih =>
      rw [matches_star, matches'_add, Language.mem_add, cons_mem_oneOf_mul, ih,
        List.forall_mem_cons]
      simp [Language.mem_one]

/-- Behind a run of some characters there is nothing more, or a joint with such a run behind
    it. So it goes on with a joint, or it begins with one of the characters. -/
theorem mem_handlerEnd : cs ∈ handlerEnd.matches' ↔
    cs = [] ∨ cs ∈ (oneOf "-_" * (lowerOrDigit * handlerEnd)).matches' ∨
      cs ∈ (lowerOrDigit * handlerEnd).matches' := by
  have hrun := matches_star lowerOrDigit
  have hgroups := matches_star (oneOf "-_" * (lowerOrDigit * lowerOrDigit.star))
  unfold handlerEnd
  simp only [matches'_add, matches'_mul, matches'_epsilon] at hrun hgroups ⊢
  generalize lowerOrDigit.star.matches' = run at *
  generalize (oneOf "-_" * (lowerOrDigit * lowerOrDigit.star)).star.matches' = groups at *
  generalize lowerOrDigit.matches' = once at *
  generalize (oneOf "-_").matches' = joint at *
  have hunfold : run * groups =
      1 + (joint * (once * (run * groups)) + once * (run * groups)) :=
    calc run * groups = (1 + once * run) * groups := by rw [← hrun]
      _ = groups + once * (run * groups) := by rw [add_mul, one_mul, mul_assoc]
      _ = 1 + joint * (once * run) * groups + once * (run * groups) := by rw [← hgroups]
      _ = 1 + (joint * (once * (run * groups)) + once * (run * groups)) := by
        rw [mul_assoc, mul_assoc, add_assoc]
  rw [← Language.mem_one cs, ← Language.mem_add, ← Language.mem_add, ← hunfold]

/-! ### The characters of names -/

/-- A test that only ASCII characters pass is passed by just the characters of a text if
    that is so among the ASCII characters. -/
theorem iff_mem_of_ascii {p : Char → Bool} (hascii : p c = true → c.toNat < 128)
    (hall : ∀ n < 128, p (Char.ofNat n) = true → Char.ofNat n ∈ chars.toList)
    (hback : chars.toList.all p = true) : p c = true ↔ c ∈ chars.toList := by
  refine ⟨fun h => ?_, List.all_eq_true.1 hback c⟩
  have hmem := hall c.toNat (hascii h)
  rw [Char.ofNat_toNat] at hmem
  exact hmem h

theorem toNat_of_isLower (h : isLower c = true) : c.toNat < 128 := by
  simp only [isLower, Bool.and_eq_true, decide_eq_true_eq] at h
  have hz : c.toNat ≤ 122 := h.2
  omega

theorem toNat_of_isLowerOrDigit (h : isLowerOrDigit c = true) : c.toNat < 128 := by
  simp only [isLowerOrDigit, Bool.or_eq_true, Bool.and_eq_true, decide_eq_true_eq] at h
  rcases h with h | h
  · exact toNat_of_isLower h
  · have hnine : c.toNat ≤ 57 := h.2
    omega

theorem isLower_iff : isLower c = true ↔ c ∈ "abcdefghijklmnopqrstuvwxyz".toList :=
  iff_mem_of_ascii toNat_of_isLower (by decide +kernel) (by decide +kernel)

theorem isLowerOrDigit_iff :
    isLowerOrDigit c = true ↔ c ∈ "abcdefghijklmnopqrstuvwxyz0123456789".toList :=
  iff_mem_of_ascii toNat_of_isLowerOrDigit (by decide +kernel) (by decide +kernel)

theorem isLanguagePart_iff : (isLowerOrDigit c || c = '_') = true ↔
    c ∈ "abcdefghijklmnopqrstuvwxyz0123456789_".toList := by
  refine iff_mem_of_ascii (p := fun c => isLowerOrDigit c || c = '_') (fun h => ?_)
    (by decide +kernel) (by decide +kernel)
  simp only [Bool.or_eq_true, decide_eq_true_eq] at h
  rcases h with h | rfl
  · exact toNat_of_isLowerOrDigit h
  · decide

/-! ### The scans -/

/-- What may follow a letter or a digit of a handler name, and what may follow a joint. -/
theorem handlerNameTail_iff (cs : List Char) :
    (handlerNameTail false cs = true ↔ cs ∈ handlerEnd.matches') ∧
      (handlerNameTail true cs = true ↔ cs ∈ (lowerOrDigit * handlerEnd).matches') := by
  induction cs with
  | nil =>
      exact ⟨iff_of_true rfl (mem_handlerEnd.2 (.inl rfl)),
        iff_of_false (by decide) nil_not_mem_oneOf_mul⟩
  | cons c cs ih =>
      have hpart : c :: cs ∈ (lowerOrDigit * handlerEnd).matches' ↔
          isLowerOrDigit c = true ∧ handlerNameTail false cs = true := by
        rw [lowerOrDigit, cons_mem_oneOf_mul, ← isLowerOrDigit_iff, ih.1]
      have hjoint : c ∈ "-_".toList ↔ c = '-' ∨ c = '_' := by simp
      rw [mem_handlerEnd, cons_mem_oneOf_mul, ← ih.2, hpart, hjoint, handlerNameTail,
        handlerNameTail]
      by_cases hc : isLowerOrDigit c = true
      · -- A letter or a digit is no joint.
        have hnot : ¬(c = '-' ∨ c = '_') := by
          rintro (rfl | rfl) <;> revert hc <;> decide
        simp [hc, hnot]
      · simp [hc]

/-- A text is the name of a handler exactly if the expression matches it. -/
theorem isHandlerName_iff (s : String) :
    isHandlerName s = true ↔ s.toList ∈ handlerName.matches' := by
  unfold isHandlerName handlerName
  cases s.toList with
  | nil => exact iff_of_false (by decide) nil_not_mem_oneOf_mul
  | cons c cs =>
      rw [lower, cons_mem_oneOf_mul, ← isLower_iff, ← (handlerNameTail_iff cs).1]
      exact Bool.and_eq_true_iff

/-- A text is the name of a language exactly if the expression matches it. -/
theorem isLanguageName_iff (s : String) :
    isLanguageName s = true ↔ s.toList ∈ languageName.matches' := by
  unfold isLanguageName languageName
  cases s.toList with
  | nil => exact iff_of_false (by decide) nil_not_mem_oneOf_mul
  | cons c cs =>
      rw [lower, cons_mem_oneOf_mul, ← isLower_iff, mem_star_oneOf, Bool.and_eq_true_iff,
        List.all_eq_true]
      simp only [isLanguagePart_iff]

end Settings

end PolyScript
