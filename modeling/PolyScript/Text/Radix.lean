/-!
# Digits in a Radix

Reading natural numbers written with the digits `0`–`9`, `a`–`z` and `A`–`Z`.

## Main definitions

* `digit?`: The value of one digit in a radix.
* `natInRadix?`: The number that a non-empty run of digits denotes.
* `scalar?`: The character whose code point a run of hexadecimal digits denotes.
-/

namespace PolyScript

namespace Text

/-- The value of a digit in the given radix, if the character is one. -/
def digit? (radix : Nat) (c : Char) : Option Nat :=
  let value :=
    if '0' ≤ c ∧ c ≤ '9' then c.toNat - '0'.toNat
    else if 'a' ≤ c ∧ c ≤ 'z' then c.toNat - 'a'.toNat + 10
    else if 'A' ≤ c ∧ c ≤ 'Z' then c.toNat - 'A'.toNat + 10
    else radix
  if value < radix then some value else none

/-- Whether a character is a digit in the given radix. -/
def isDigitIn (radix : Nat) (c : Char) : Bool := (digit? radix c).isSome

/-- Appends further digits to a number already read. -/
def extendNat? (radix : Nat) : Nat → List Char → Option Nat
  | n, [] => some n
  | n, c :: cs =>
    match digit? radix c with
    | some d => extendNat? radix (n * radix + d) cs
    | none => none

/-- The number that the digits denote, most significant first. No digits denote
    no number. -/
def natInRadix? (radix : Nat) : List Char → Option Nat
  | [] => none
  | cs => extendNat? radix 0 cs

/-- The character whose code point the hexadecimal digits denote. One leading
    plus sign is allowed; a number that is no Unicode scalar value denotes no
    character. -/
def scalar? (digits : List Char) : Option Char :=
  let unsigned := if digits.head? = some '+' then digits.tail else digits
  match natInRadix? 16 unsigned with
  | some n => if n.isValidChar then some (Char.ofNat n) else none
  | none => none

end Text

end PolyScript
