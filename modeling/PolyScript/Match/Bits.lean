import PolyScript.Powers

/-!
# Bits

A bit string is a list of bits, the most significant first. Bytes and numbers
are read off it.

## Main definitions

* `Bits.ofBytes`: The bits of a byte string.
* `Bits.toNat`: The number that bits denote.
* `Bits.toBytes`: The bytes of a bit string, filled up with zeros in front.
* `Bits.toInt`: The number that bits denote as a two's complement.

## Theorems

* `Bits.length_ofBytes`: Eight bits make a byte.
-/

namespace PolyScript

namespace Bits

/-- The bits of a byte. -/
def ofByte (b : UInt8) : List Bool :=
  [7, 6, 5, 4, 3, 2, 1, 0].map fun i => b.toNat.testBit i

/-- The bits of a byte string. -/
def ofBytes (bytes : List UInt8) : List Bool := bytes.flatMap ofByte

/-- The number that bits denote. -/
def toNat (bits : List Bool) : Nat := bits.foldl (fun n b => 2 * n + b.toNat) 0

/-- The bytes of a list whose length is a multiple of eight, for at most the given
    number of bytes. -/
def chunks : Nat → List Bool → List UInt8
  | 0, _ => []
  | n + 1, bits => (toNat (bits.take 8)).toUInt8 :: chunks n (bits.drop 8)

/-- The bytes of a bit string. If its length is no multiple of eight, zeros fill
    up the first byte. -/
def toBytes (bits : List Bool) : List UInt8 :=
  let count := (bits.length + 7) / 8
  chunks count (List.replicate (count * 8 - bits.length) false ++ bits)

/-- The number that bits denote as a two's complement. -/
def toInt (bits : List Bool) : Int :=
  match bits with
  | true :: _ => (toNat bits : Int) - 2 ^ bits.length
  | _ => toNat bits

@[simp] theorem length_ofByte (b : UInt8) : (ofByte b).length = 8 := rfl

theorem length_ofBytes (bytes : List UInt8) : (ofBytes bytes).length = 8 * bytes.length := by
  induction bytes with
  | nil => rfl
  | cons b bytes ih =>
      rw [ofBytes, List.flatMap_cons, List.length_append, length_ofByte, ← ofBytes, ih,
        List.length_cons]
      omega

end Bits

end PolyScript
