import PolyScript.Powers
import PolyScript.Text.Radix

/-!
# Words

Sizes, units and limits of nesting are unsigned words of sixty-four bits. A number that is
read from a text or computed by a program is refused if it does not fit into a word.

## Main definitions

* `sizeLimit`: The first number that is no word.
* `Text.word?`: The word that a text denotes.
-/

namespace PolyScript

/-- Sizes and units are unsigned words of sixty-four bits. What a parse only counts is a plain
    number: one more than the offset of a pattern, the place that a look-ahead comes to, the
    tokens that a window holds. These sums are taken to fit into a word. All of them do, but for
    one more than an offset of `sizeLimit - 1`, which valid settings do not have. -/
def sizeLimit : Nat := 2 ^ 64

namespace Text

/-- The word that the decimal digits of a text denote, perhaps after a plus sign. -/
def word? (text : String) : Option Nat :=
  let digits := match text.toList with
    | '+' :: digits => digits
    | digits => digits
  match natInRadix? 10 digits with
  | some n => if n < sizeLimit then some n else none
  | none => none

end Text

end PolyScript
