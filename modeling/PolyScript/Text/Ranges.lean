/-!
# Ranges of Code Points

A character class of the Unicode Character Database is a long list of ranges.
The tables are read from the front: a source text has few characters outside
the basic Latin block, and those are the only ones that reach a table.

## Main definitions

* `inRanges`: Membership of a code point in a list of closed ranges.

## Theorems

* `inRanges_iff`: Membership is membership in one of the ranges.
-/

namespace PolyScript

namespace Text

/-- Whether a code point lies in one of the ranges, both ends included. -/
def inRanges (ranges : List (Nat × Nat)) (n : Nat) : Bool :=
  ranges.any fun r => r.1 ≤ n && n ≤ r.2

theorem inRanges_iff (ranges : List (Nat × Nat)) (n : Nat) :
    inRanges ranges n = true ↔ ∃ r ∈ ranges, r.1 ≤ n ∧ n ≤ r.2 := by
  simp only [inRanges, List.any_eq_true, Bool.and_eq_true, decide_eq_true_eq]

end Text

end PolyScript
