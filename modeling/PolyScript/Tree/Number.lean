import PolyScript.Text.Radix
import PolyScript.Tree.Expr

/-!
# Values of Number Literals

The value that the spelling of a number denotes. Underscores count for nothing.
A number with a fraction or an exponent is the double precision number nearest
to it; any other is an exact integer.

## Main definitions

* `Number.ofText?`: The value of a spelling.
-/

namespace PolyScript

namespace Number

/-- Whether a character makes a decimal number a fractional one. -/
def isFloatMark (c : Char) : Bool := c = '.' || c = 'e' || c = 'E'

/-- The exponent that stands after its mark. -/
def exponent? : List Char → Option Int
  | '+' :: cs => (Text.natInRadix? 10 cs).map Int.ofNat
  | '-' :: cs => (Text.natInRadix? 10 cs).map fun n => -(n : Int)
  | cs => (Text.natInRadix? 10 cs).map Int.ofNat

/-- The value of a decimal number with a fraction or an exponent. -/
def decimal? (cs : List Char) : Option Double :=
  let (mantissa, afterMantissa) := cs.span fun c => c ≠ 'e' && c ≠ 'E'
  let (whole, afterWhole) := mantissa.span (· ≠ '.')
  let fraction := afterWhole.drop 1
  let exponent := if afterMantissa.isEmpty then some 0 else exponent? (afterMantissa.drop 1)
  match Text.natInRadix? 10 (whole ++ fraction), exponent with
  | some digits, some power => some (Double.ofDecimal false digits (power - fraction.length))
  | _, _ => none

/-- The value of a spelling without underscores. -/
def ofDigits? (cs : List Char) : Option Number :=
  let plain : Option Number :=
    if cs.any isFloatMark then (decimal? cs).map float
    else (Text.natInRadix? 10 cs).map fun n => integer n
  match cs with
  | '0' :: mark :: digits =>
    if mark = 'x' ∨ mark = 'X' then (Text.natInRadix? 16 digits).map fun n => integer n
    else if mark = 'b' ∨ mark = 'B' then (Text.natInRadix? 2 digits).map fun n => integer n
    else if mark = 'o' ∨ mark = 'O' then (Text.natInRadix? 8 digits).map fun n => integer n
    else plain
  | _ => plain

/-- The value of the spelling of a number. -/
def ofText? (text : String) : Option Number := ofDigits? (text.toList.filter (· ≠ '_'))

end Number

end PolyScript
