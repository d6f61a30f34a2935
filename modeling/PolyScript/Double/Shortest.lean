import PolyScript.Double.Basic

/-!
# Shortest Decimals

The decimal with the fewest digits that reads back as a given number, and of
those the nearest to it. If two are equally near, the one with the even last
digit is taken.

A finite number is the nearest one for every real in a small interval around it.
For each count of digits the decimals form a grid, and if any point of the grid
lies in the interval then so does one of the number's two neighbours on the grid.
Trying one digit, then two, and so on therefore finds the shortest decimal, and
seventeen digits are always enough. Everything is compared in exact integer
arithmetic.

## Main definitions

* `Decimal`: Digits and a power of ten.
* `Double.shortest`: The shortest decimal of a finite non-zero number.
-/

namespace PolyScript

/-- The decimal `digits · 10 ^ power`. -/
structure Decimal where
  digits : Nat
  power : Int
  deriving DecidableEq, Repr, Inhabited

namespace Double

/-- Whether `m · 2 ^ q ≤ digits · 10 ^ power`, strictly if asked for. -/
def belowDecimal (strict : Bool) (m : Nat) (q : Int) (d : Decimal) : Bool :=
  let left := m * 2 ^ q.toNat * 10 ^ (-d.power).toNat
  let right := d.digits * 10 ^ d.power.toNat * 2 ^ (-q).toNat
  if strict then left < right else left ≤ right

/-- Whether `digits · 10 ^ power ≤ m · 2 ^ q`, strictly if asked for. -/
def aboveDecimal (strict : Bool) (m : Nat) (q : Int) (d : Decimal) : Bool :=
  let left := d.digits * 10 ^ d.power.toNat * 2 ^ (-q).toNat
  let right := m * 2 ^ q.toNat * 10 ^ (-d.power).toNat
  if strict then left < right else left ≤ right

/-- Whether the decimal lies in the interval of reals that round to
    `m · 2 ^ q`. The interval reaches half way to each neighbour, and includes
    its ends if `m` is even. Below a power of two the neighbour is only half as
    far. -/
def roundsTo (m : Nat) (q : Int) (d : Decimal) : Bool :=
  let strict := m % 2 ≠ 0
  let lower := if m = 2 ^ 52 && -1074 < q then 4 * m - 1 else 4 * m - 2
  belowDecimal strict lower (q - 2) d && aboveDecimal strict (4 * m + 2) (q - 2) d

/-- The whole number of times that `10 ^ power` goes into `m · 2 ^ q`. -/
def gridBelow (m : Nat) (q : Int) (power : Int) : Nat :=
  m * 2 ^ q.toNat * 10 ^ (-power).toNat / (10 ^ power.toNat * 2 ^ (-q).toNat)

/-- Whether `m · 2 ^ q` is nearer to the upper of the two grid points around it,
    or equally near to both while the lower one is odd. -/
def nearerAbove (m : Nat) (q : Int) (power : Int) : Bool :=
  let den := 10 ^ power.toNat * 2 ^ (-q).toNat
  let twice := 2 * (m * 2 ^ q.toNat * 10 ^ (-power).toNat % den)
  den < twice || (den = twice && gridBelow m q power % 2 = 1)

/-- The power of ten of the leading digit of `m · 2 ^ q`, searched downwards. -/
def leadingPower (m : Nat) (q : Int) : Nat → Int → Int
  | 0, power => power
  | n + 1, power =>
    if 0 < gridBelow m q power then power else leadingPower m q n (power - 1)

/-- Tries grids with more and more digits. -/
def shortestFrom (m : Nat) (q : Int) : Nat → Int → Decimal
  | 0, power => ⟨gridBelow m q power, power⟩
  | n + 1, power =>
    let below : Decimal := ⟨gridBelow m q power, power⟩
    let above : Decimal := ⟨below.digits + 1, power⟩
    let first := if nearerAbove m q power then above else below
    let second := if nearerAbove m q power then below else above
    if roundsTo m q first then first
    else if roundsTo m q second then second
    else shortestFrom m q n (power - 1)

/-- The shortest decimal that reads back as a finite number other than zero, up
    to its sign. -/
def shortest (d : Double) : Decimal :=
  let m := d.significand
  let q := d.exponent
  shortestFrom m q 17 (leadingPower m q 640 309)

end Double

end PolyScript
