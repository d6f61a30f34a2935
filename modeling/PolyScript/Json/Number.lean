import PolyScript.Json.Basic

/-!
# Numbers in Documents

A number without fraction and exponent is an integer if it fits sixty-four bits,
signed or unsigned; any other number is a double precision number. The latter is
found by a short cut rather than by rounding the decimal itself: of the digits,
those that fit an unsigned word make up a whole number, and that number is
multiplied or divided once by a power of ten. The result can differ in its last
bit from the number nearest to the decimal. A number beyond the range of the
format is refused.

## Main definitions

* `Json.Number.read?`: The number at the front of a text, and what follows it.
-/

namespace PolyScript

namespace Json

namespace Number

/-- Takes decimal digits as long as the whole number they make up fits sixty-four
    bits. -/
def takeDigits : Nat → List Char → Nat × List Char
  | n, [] => (n, [])
  | n, c :: cs =>
    let extended := n * 10 + (c.toNat - '0'.toNat)
    if c.isDigit && extended < 2 ^ 64 then takeDigits extended cs else (n, c :: cs)

/-- Whether a digit comes next. -/
def digitAhead (cs : List Char) : Bool := cs.head?.any Char.isDigit

/-- Multiplies or divides by a power of ten, in steps that the format can hold.
    Two steps down bring every whole number of sixty-four bits to zero. -/
def scaleByTen : Nat → Double → Int → Option Double
  | 0, f, _ => some f
  | n + 1, f, power =>
    if power.natAbs ≤ 308 then
      let ten := Double.ofInt (10 ^ power.natAbs)
      if 0 ≤ power then
        let product := f.mul ten
        if product.isFinite then some product else none
      else some (f.div ten)
    else if f.isZero then some f
    else if 0 ≤ power then none
    else scaleByTen n (f.div (Double.ofInt (10 ^ 308))) (power + 308)

/-- The number `± significand · 10 ^ power`. -/
def ofParts (negative : Bool) (significand : Nat) (power : Int) : Option Json :=
  match scaleByTen 4 (Double.ofInt significand) power with
  | some f => some (.float (if negative then f.neg else f))
  | none => none

/-- Reads an exponent from just after its mark, if a mark stands here, and
    finishes the number. An exponent that overflows thirty-two bits leaves only
    zero representable. -/
def finish (negative : Bool) (significand : Nat) (power : Int) (cs : List Char) :
    Option (Json × List Char) :=
  match cs with
  | c :: tail =>
    if c = 'e' ∨ c = 'E' then
      let (down, digits) : Bool × List Char :=
        match tail with
        | '+' :: rest => (false, rest)
        | '-' :: rest => (true, rest)
        | rest => (false, rest)
      let (exponent, rest) := digits.span Char.isDigit
      if exponent.isEmpty then none
      else
        let size : Int := exponent.foldl (fun n d => n * 10 + (d.toNat - '0'.toNat)) 0
        if size < 2 ^ 31 then
          (ofParts negative significand (if down then power - size else power + size)).map
            fun j => (j, rest)
        else if significand ≠ 0 ∧ ¬down then none
        else some (.float (Double.ofRatio negative 0 1), rest)
    else (ofParts negative significand power).map fun j => (j, cs)
  | [] => (ofParts negative significand power).map fun j => (j, [])

/-- Reads a fraction from just after its point, and finishes the number. -/
def fraction (negative : Bool) (significand : Nat) (power : Int) (cs : List Char) :
    Option (Json × List Char) :=
  let (extended, rest) := takeDigits significand cs
  let count := cs.length - rest.length
  if digitAhead rest then
    finish negative extended (power - count) (rest.dropWhile Char.isDigit)
  else if count = 0 then none
  else finish negative extended (power - count) rest

/-- Finishes a number after its whole part, all of whose digits were taken. -/
def afterWhole (negative : Bool) (whole : Nat) (cs : List Char) : Option (Json × List Char) :=
  match cs with
  | '.' :: rest => fraction negative whole 0 rest
  | 'e' :: _ | 'E' :: _ => finish negative whole 0 cs
  | _ =>
    if negative then
      if 0 < whole ∧ whole ≤ 2 ^ 63 then some (.int (-(whole : Int)), cs)
      else some (.float (Double.ofRatio true whole 1), cs)
    else some (.int whole, cs)

/-- Finishes a number after its whole part, some of whose digits did not fit. -/
def afterLongWhole (negative : Bool) (whole : Nat) (cs : List Char) :
    Option (Json × List Char) :=
  let (dropped, rest) := cs.span Char.isDigit
  match rest with
  | '.' :: rest => fraction negative whole dropped.length rest
  | _ => finish negative whole dropped.length rest

/-- Reads a number without its sign. A leading zero stands alone. -/
def unsigned? (negative : Bool) (cs : List Char) : Option (Json × List Char) :=
  match cs with
  | '0' :: rest => if digitAhead rest then none else afterWhole negative 0 rest
  | _ =>
    if digitAhead cs then
      let (whole, rest) := takeDigits 0 cs
      if digitAhead rest then afterLongWhole negative whole rest
      else afterWhole negative whole rest
    else none

/-- Reads a number. -/
def read? : List Char → Option (Json × List Char)
  | '-' :: cs => unsigned? true cs
  | cs => unsigned? false cs

end Number

end Json

end PolyScript
