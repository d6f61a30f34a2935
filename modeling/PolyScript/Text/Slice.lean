/-!
# Slices by Byte Offset

Positions count bytes of the encoding while the text is a list of characters.
A cut is possible only between two characters.

## Main definitions

* `splitBytes?`: A text cut after a number of bytes.
* `slice`: The text between two byte offsets.
-/

namespace PolyScript

namespace Text

/-- Cuts a text after a number of bytes, if it is long enough and the cut does
    not fall inside a character. -/
def splitBytes? : Nat → List Char → Option (List Char × List Char)
  | n, [] => if n = 0 then some ([], []) else none
  | n, c :: cs =>
    if n = 0 then some ([], c :: cs)
    else if c.utf8Size ≤ n then
      match splitBytes? (n - c.utf8Size) cs with
      | some (before, after) => some (c :: before, after)
      | none => none
    else none

/-- The text between two byte offsets; empty if there is no such cut. -/
def slice (source : String) (start stop : Nat) : String :=
  match splitBytes? start source.toList with
  | some (_, rest) =>
    if start ≤ stop then
      match splitBytes? (stop - start) rest with
      | some (piece, _) => String.ofList piece
      | none => ""
    else ""
  | none => ""

end Text

end PolyScript
