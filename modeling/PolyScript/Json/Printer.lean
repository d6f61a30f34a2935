import PolyScript.Json.Basic
import PolyScript.Double.Shortest

/-!
# Printing Documents

The text of a document, on one line without blanks or spread over indented
lines. Strings escape the quote, the backslash and the control characters below
U+0020, and nothing else. A number that is not an integer is written with the
fewest digits that read back; one that is not finite is written `null`.

## Main definitions

* `FloatFormat`: Where positional notation ends and how exponents are written.
* `Json.compact`: The text on one line.
* `Json.pretty`: The text over several lines.
-/

namespace PolyScript

/-- How a decimal is laid out. The power of the leading digit decides between
    positional and scientific notation. -/
structure FloatFormat where
  /-- The least power of the leading digit that is written positionally. -/
  least : Int
  /-- The greatest power of the leading digit that is written positionally. -/
  greatest : Int
  /-- What a whole number ends with in positional notation. -/
  wholeEnding : String
  /-- What stands before a negative exponent. -/
  minusMark : String
  /-- What stands before any other exponent. -/
  plusMark : String

namespace FloatFormat

/-- Documents write a leading digit from `10 ^ -5` to `10 ^ 15` positionally,
    keep a fraction on whole numbers and always sign the exponent. -/
def document : FloatFormat := ⟨-5, 15, ".0", "e-", "e+"⟩

/-- Drops the zeros at the end of a run of digits. -/
def dropTrailingZeros (digits : List Char) : List Char :=
  (digits.reverse.dropWhile (· = '0')).reverse

/-- The text of a positive decimal. -/
def layout (f : FloatFormat) (d : Decimal) : String :=
  let all := Nat.toDigits 10 d.digits
  let lead := d.power + all.length - 1
  let digits := dropTrailingZeros all
  if f.least ≤ lead ∧ lead ≤ f.greatest then
    if lead < 0 then
      "0." ++ String.ofList (List.replicate (-lead - 1).toNat '0' ++ digits)
    else
      let whole := lead.toNat + 1
      if digits.length ≤ whole then
        String.ofList (digits ++ List.replicate (whole - digits.length) '0') ++ f.wholeEnding
      else String.ofList (digits.take whole) ++ "." ++ String.ofList (digits.drop whole)
  else
    let mantissa :=
      match digits with
      | [] => ""
      | [c] => String.ofList [c]
      | c :: rest => String.ofList (c :: '.' :: rest)
    let mark := if lead < 0 then f.minusMark else f.plusMark
    mantissa ++ mark ++ toString lead.natAbs

/-- The text of a finite number. -/
def render (f : FloatFormat) (d : Double) : String :=
  let sign := if d.isNegative then "-" else ""
  if d.isZero then sign ++ "0" ++ f.wholeEnding else sign ++ f.layout d.shortest

end FloatFormat

namespace Json

/-- The spelling of one character inside a string. -/
def escapeChar (c : Char) : List Char :=
  if c = '"' then ['\\', '"']
  else if c = '\\' then ['\\', '\\']
  else if c = '\x08' then ['\\', 'b']
  else if c = '\x0c' then ['\\', 'f']
  else if c = '\n' then ['\\', 'n']
  else if c = '\r' then ['\\', 'r']
  else if c = '\t' then ['\\', 't']
  else if c.toNat < 0x20 then
    ['\\', 'u', '0', '0', Nat.digitChar (c.toNat / 16), Nat.digitChar (c.toNat % 16)]
  else [c]

/-- The text of a string, in double quotes. -/
def quote (s : String) : String :=
  String.ofList ('"' :: s.toList.flatMap escapeChar ++ ['"'])

/-- The text of a number that is not an integer. -/
def floatText (d : Double) : String :=
  if d.isFinite then FloatFormat.document.render d else "null"

mutual

/-- The text of a document on one line, without blanks. -/
def compact : Json → String
  | null => "null"
  | bool true => "true"
  | bool false => "false"
  | int n => toString n
  | float d => floatText d
  | string s => quote s
  | array [] => "[]"
  | array (j :: rest) => "[" ++ compact j ++ compactItems rest ++ "]"
  | object [] => "\x7b\x7d"
  | object ((k, j) :: rest) =>
    "\x7b" ++ quote k ++ ":" ++ compact j ++ compactMembers rest ++ "\x7d"

/-- The items after the first, each behind its comma. -/
def compactItems : List Json → String
  | [] => ""
  | j :: rest => "," ++ compact j ++ compactItems rest

/-- The members after the first, each behind its comma. -/
def compactMembers : List (String × Json) → String
  | [] => ""
  | (k, j) :: rest => "," ++ quote k ++ ":" ++ compact j ++ compactMembers rest

end

/-- The start of a line at the given nesting. -/
def newLine (depth : Nat) : String := String.ofList ('\n' :: List.replicate (2 * depth) ' ')

mutual

/-- The text of a document over several lines, two blanks for each level. -/
def prettyAt (depth : Nat) : Json → String
  | null => "null"
  | bool true => "true"
  | bool false => "false"
  | int n => toString n
  | float d => floatText d
  | string s => quote s
  | array [] => "[]"
  | array (j :: rest) =>
    "[" ++ newLine (depth + 1) ++ prettyAt (depth + 1) j ++ prettyItems (depth + 1) rest ++
      newLine depth ++ "]"
  | object [] => "\x7b\x7d"
  | object ((k, j) :: rest) =>
    "\x7b" ++ newLine (depth + 1) ++ quote k ++ ": " ++ prettyAt (depth + 1) j ++
      prettyMembers (depth + 1) rest ++ newLine depth ++ "\x7d"

/-- The items after the first, each on a line of its own. -/
def prettyItems (depth : Nat) : List Json → String
  | [] => ""
  | j :: rest => "," ++ newLine depth ++ prettyAt depth j ++ prettyItems depth rest

/-- The members after the first, each on a line of its own. -/
def prettyMembers (depth : Nat) : List (String × Json) → String
  | [] => ""
  | (k, j) :: rest =>
    "," ++ newLine depth ++ quote k ++ ": " ++ prettyAt depth j ++ prettyMembers depth rest

end

/-- The text of a document over several lines. -/
def pretty (j : Json) : String := prettyAt 0 j

end Json

end PolyScript
