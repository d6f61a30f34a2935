import PolyScript.Text.Ranges

/-!
# White Space

The property *White_Space* of the Unicode Character Database. It decides which
characters separate tokens and nothing else: a line ends at a line feed only.

## Main definitions

* `isBlank`: The property *White_Space*.
-/

namespace PolyScript

namespace Text

/-- The code points from U+0080 on with the property *White_Space*, as ascending
    ranges with both ends included. -/
def blankRanges : List (Nat × Nat) :=
  [(0x85, 0x85), (0xa0, 0xa0), (0x1680, 0x1680), (0x2000, 0x200a), (0x2028, 0x2029),
   (0x202f, 0x202f), (0x205f, 0x205f), (0x3000, 0x3000)]

/-- Whether a character has the property *White_Space*. -/
def isBlank (c : Char) : Bool :=
  if c.toNat < 0x80 then c = ' ' || (0x9 ≤ c.toNat && c.toNat ≤ 0xd)
  else inRanges blankRanges c.toNat

end Text

end PolyScript
