import PolyScript.Json.Basic
import PolyScript.Tree.Number

/-!
# Numbers in TOML

## Main definitions

* `Toml.number?`: An integer or a floating point number.
-/

namespace PolyScript

namespace Toml

/-- Reads digits with single underscores between them, without the
    underscores. -/
def digitsWith (test : Char → Bool) : List Char → List Char × List Char
  | c :: '_' :: d :: cs =>
    if test c && test d then
      let (digits, rest) := digitsWith test (d :: cs)
      (c :: digits, rest)
    else if test c then ([c], '_' :: d :: cs)
    else ([], c :: '_' :: d :: cs)
  | c :: cs =>
    if test c then
      let (digits, rest) := digitsWith test cs
      (c :: digits, rest)
    else ([], c :: cs)
  | [] => ([], [])

/-- The integer of a sign and digits, if it fits sixty-four bits. -/
def int64? (negative : Bool) (radix : Nat) (digits : List Char) : Option Json :=
  match Text.natInRadix? radix digits with
  | some n =>
    let value : Int := if negative then -(n : Int) else n
    if -(2 ^ 63) ≤ value ∧ value < 2 ^ 63 then some (.int value) else none
  | none => none

/-- The document of a floating point number. One that is not finite has none but
    null. -/
def floatJson (d : Double) : Json := if d.isFinite then .float d else .null

/-- Reads a sign. -/
def sign : List Char → Bool × List Char
  | '+' :: cs => (false, cs)
  | '-' :: cs => (true, cs)
  | cs => (false, cs)

/-- Reads the whole part of a decimal number. A leading zero stands alone. -/
def wholePart (cs : List Char) : List Char × List Char :=
  match cs with
  | '0' :: rest => (['0'], rest)
  | _ => digitsWith Char.isDigit cs

/-- Reads a fraction, if one begins here. -/
def fractionPart : List Char → Option (List Char × List Char)
  | '.' :: cs =>
    let (digits, rest) := digitsWith Char.isDigit cs
    if digits.isEmpty then none else some (digits, rest)
  | cs => some ([], cs)

/-- Reads an exponent, if one begins here. -/
def exponentPart : List Char → Option (Option Int × List Char)
  | c :: cs =>
    if c = 'e' ∨ c = 'E' then
      let (negative, unsigned) := sign cs
      let (digits, rest) := digitsWith Char.isDigit unsigned
      match Text.natInRadix? 10 digits with
      | some n => some (some (if negative then -(n : Int) else n), rest)
      | none => none
    else some (none, c :: cs)
  | [] => some (none, [])

/-- Reads a decimal number without its sign. A positive number too large for the
    format is refused. -/
def decimal? (negative : Bool) (cs : List Char) : Option (Json × List Char) :=
  let (whole, afterWhole) := wholePart cs
  if whole.isEmpty then none
  else
    match fractionPart afterWhole with
    | none => none
    | some (fraction, afterFraction) =>
      match exponentPart afterFraction with
      | none => none
      | some (exponent, rest) =>
        if fraction.isEmpty && exponent.isNone then
          (int64? negative 10 whole).map fun j => (j, rest)
        else
          match Text.natInRadix? 10 (whole ++ fraction) with
          | none => none
          | some digits =>
            let d := Double.ofDecimal negative digits (exponent.getD 0 - fraction.length)
            if d.isFinite || negative then some (floatJson d, rest) else none

/-- Reads a number in a radix other than ten, from just after its mark. -/
def inRadix? (radix : Nat) (cs : List Char) : Option (Json × List Char) :=
  let (digits, rest) := digitsWith (Text.isDigitIn radix) cs
  (int64? false radix digits).map fun j => (j, rest)

/-- Reads a number. Infinities and what is no number have names. -/
def number? : List Char → Option (Json × List Char)
  | '0' :: 'x' :: cs => inRadix? 16 cs
  | '0' :: 'o' :: cs => inRadix? 8 cs
  | '0' :: 'b' :: cs => inRadix? 2 cs
  | cs =>
    let (negative, unsigned) := sign cs
    match unsigned with
    | 'i' :: 'n' :: 'f' :: rest => some (.null, rest)
    | 'n' :: 'a' :: 'n' :: rest => some (.null, rest)
    | _ => decimal? negative unsigned

end Toml

end PolyScript
