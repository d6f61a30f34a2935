import PolyScript.Powers

/-!
# Double Precision Numbers

Numbers in the 64-bit binary interchange format. A number is its bit pattern,
and everything about it is read off that pattern in exact integer arithmetic:
nothing here is rounded except where `ofRatio` says so, and every statement about
a number is a statement about natural numbers.

A finite number is `± m · 2 ^ q`. The pattern stores the sign, eleven bits of a
biased exponent and fifty-two bits of `m`; the topmost bit of `m` is implied
unless the biased exponent is zero.

## Main definitions

* `Double`: A bit pattern.
* `Double.significand`, `Double.exponent`: The `m` and `q` of a finite number.
* `Double.ofRatio`: The number nearest to a fraction, ties to even.
* `Double.ofInt`: The number nearest to an integer.
* `Double.toInt?`: The integer that a number equals.
* `Double.eq`: Equality of numbers, under which the two zeros agree and a
  not-a-number agrees with nothing.
-/

namespace PolyScript

/-- A number in the 64-bit binary interchange format. -/
structure Double where
  bits : UInt64
  deriving DecidableEq, Repr, Inhabited

namespace Double

/-- The pattern given as a natural number below `2 ^ 64`. -/
def ofBits (n : Nat) : Double := ⟨n.toUInt64⟩

/-- Whether the sign bit is set. -/
def isNegative (d : Double) : Bool := 2 ^ 63 ≤ d.bits.toNat

/-- The exponent field. -/
def biased (d : Double) : Nat := d.bits.toNat / 2 ^ 52 % 2 ^ 11

/-- The fraction field. -/
def fraction (d : Double) : Nat := d.bits.toNat % 2 ^ 52

/-- Whether the pattern denotes a number at all, as opposed to an infinity or
    not-a-number. -/
def isFinite (d : Double) : Bool := d.biased ≠ 2047

/-- Whether the pattern is one of those that denote no number. -/
def isNaN (d : Double) : Bool := d.biased = 2047 && d.fraction ≠ 0

/-- Whether the pattern is one of the two zeros. -/
def isZero (d : Double) : Bool := d.biased = 0 && d.fraction = 0

/-- The integer `m` of a finite number `± m · 2 ^ q`. -/
def significand (d : Double) : Nat :=
  if d.biased = 0 then d.fraction else d.fraction + 2 ^ 52

/-- The integer `q` of a finite number `± m · 2 ^ q`. -/
def exponent (d : Double) : Int :=
  if d.biased = 0 then -1074 else (d.biased : Int) - 1075

/-- The number with the other sign. -/
def neg (d : Double) : Double := ⟨d.bits ^^^ 0x8000000000000000⟩

/-- The infinity of a sign. -/
def infinity (negative : Bool) : Double :=
  ofBits ((if negative then 2 ^ 63 else 0) + 2047 * 2 ^ 52)

/-- One of the patterns that denote no number. -/
def nan : Double := ofBits (2047 * 2 ^ 52 + 2 ^ 51)

/-- A quotient rounded to the nearest integer, a tie to the even neighbour. -/
def roundDiv (num den : Nat) : Nat :=
  let quotient := num / den
  let twice := 2 * (num % den)
  if twice < den then quotient
  else if den < twice then quotient + 1
  else if quotient % 2 = 0 then quotient else quotient + 1

/-- The fraction `num / den` divided by `2 ^ q`, as a fraction. -/
def unscale (num den : Nat) (q : Int) : Nat × Nat :=
  if 0 ≤ q then (num, den * 2 ^ q.toNat) else (num * 2 ^ (-q).toNat, den)

/-- The exponent `q` at which a positive fraction is rounded: the one that gives
    it fifty-three significant bits, but none below the least exponent. -/
def roundingExponent (num den : Nat) : Int :=
  let estimate := (num.log2 : Int) - den.log2 - 52
  let scaled := unscale num den estimate
  let q := if scaled.1 < 2 ^ 52 * scaled.2 then estimate - 1 else estimate
  max q (-1074)

/-- The number nearest to `± num / den`, a tie to the one with the even
    significand. A fraction too large for the format becomes an infinity, and
    one too small a zero. -/
def ofRatio (negative : Bool) (num den : Nat) : Double :=
  let sign := if negative then 2 ^ 63 else 0
  if num = 0 then ofBits sign
  else
    let q := roundingExponent num den
    let scaled := unscale num den q
    let m := roundDiv scaled.1 scaled.2
    let magnitude := (q + 1074).toNat * 2 ^ 52 + m
    if 2047 * 2 ^ 52 ≤ magnitude then infinity negative else ofBits (sign + magnitude)

/-- The number nearest to `± m · 2 ^ q`. -/
def ofScaled (negative : Bool) (m : Nat) (q : Int) : Double :=
  if 0 ≤ q then ofRatio negative (m * 2 ^ q.toNat) 1
  else ofRatio negative m (2 ^ (-q).toNat)

/-- The number nearest to an integer. -/
def ofInt (n : Int) : Double := ofRatio (n < 0) n.natAbs 1

/-- The number nearest to `± digits · 10 ^ power`. Powers far outside the range
    of the format are not computed: whatever the digits, the result is then an
    infinity or a zero. -/
def ofDecimal (negative : Bool) (digits : Nat) (power : Int) : Double :=
  let size : Int := (Nat.toDigits 10 digits).length
  if digits = 0 ∨ size + power < -400 then ofRatio negative 0 1
  else if 400 < size + power then infinity negative
  else if 0 ≤ power then ofRatio negative (digits * 10 ^ power.toNat) 1
  else ofRatio negative digits (10 ^ (-power).toNat)

/-- The integer that a number equals, if it is one. -/
def toInt? (d : Double) : Option Int :=
  if !d.isFinite then none
  else
    let sign (n : Nat) : Int := if d.isNegative then -(n : Int) else n
    if 0 ≤ d.exponent then some (sign (d.significand * 2 ^ d.exponent.toNat))
    else
      let unit : Nat := 2 ^ (-d.exponent).toNat
      if d.significand % unit = 0 then some (sign (d.significand / unit)) else none

/-- Equality of numbers: the two zeros agree, and what is no number agrees with
    nothing. -/
def eq (a b : Double) : Bool :=
  !a.isNaN && !b.isNaN && (a = b || (a.isZero && b.isZero))

/-- The number that a pattern of the 32-bit interchange format denotes. Every
    such number is exact in 64 bits. -/
def ofSingle (n : Nat) : Double :=
  let negative : Bool := 2 ^ 31 ≤ n
  let biased : Nat := n / 2 ^ 23 % 2 ^ 8
  let fraction : Nat := n % 2 ^ 23
  if biased = 255 then if fraction = 0 then infinity negative else nan
  else if biased = 0 then ofScaled negative fraction (-149)
  else ofScaled negative (fraction + 2 ^ 23) ((biased : Int) - 150)

/-- The product of two finite numbers, rounded. -/
def mul (a b : Double) : Double :=
  ofScaled (a.isNegative != b.isNegative) (a.significand * b.significand)
    (a.exponent + b.exponent)

/-- The quotient of two finite numbers, rounded. The divisor is not zero. -/
def div (a b : Double) : Double :=
  let shift := a.exponent - b.exponent
  let negative := a.isNegative != b.isNegative
  if 0 ≤ shift then ofRatio negative (a.significand * 2 ^ shift.toNat) b.significand
  else ofRatio negative a.significand (b.significand * 2 ^ (-shift).toNat)

end Double

end PolyScript
