import Mathlib.Data.List.Induction
import Mathlib.Tactic.Ring
import PolyScript.Match.Bits

/-!
# Bits, Numbers and Bytes

Bits of a given count and the numbers below the power of two with that exponent are the same
thing, and so are bytes and bits in eights. Bits in other counts become bytes by filling up
with zeros in front, which leaves the number as it is.

Everything is read off one equation: the number that two bit strings denote together is that
of the first, moved up by the length of the second, and that of the second.

## Main definitions

* `Bits.ofNat`: The lowest bits of a number, the most significant first.

## Theorems

* `Bits.toNat_append`: The number of two bit strings together.
* `Bits.ofNat_toNat`, `Bits.toNat_ofNat`: Bits and numbers.
* `Bits.ofBytes_toBytes`, `Bits.toBytes_ofBytes`: Bits and bytes.
* `Bits.toNat_ofBytes`: The number of a byte string, byte by byte.
* `Bits.toInt_eq_ite`: Two's complement by the highest bit.
-/

namespace PolyScript

namespace Bits

/-! ### Numbers -/

/-- The lowest bits of a number, as many as given, the most significant first. -/
def ofNat : Nat → Nat → List Bool
  | 0, _ => []
  | n + 1, v => v.testBit n :: ofNat n v

@[simp] theorem length_ofNat (n v : Nat) : (ofNat n v).length = n := by
  induction n with
  | zero => rfl
  | succ n ih => rw [ofNat, List.length_cons, ih]

@[simp] theorem toNat_nil : toNat [] = 0 := rfl

theorem foldl_eq (b : List Bool) (n : Nat) :
    b.foldl (fun n b => 2 * n + b.toNat) n = n * 2 ^ b.length + toNat b := by
  induction b generalizing n with
  | nil => simp
  | cons c b ih =>
      rw [toNat, List.foldl_cons, List.foldl_cons, ih, ih, List.length_cons, Nat.pow_succ]
      ring

/-- The number of two bit strings together. -/
theorem toNat_append (a b : List Bool) : toNat (a ++ b) = toNat a * 2 ^ b.length + toNat b := by
  rw [← foldl_eq, toNat, List.foldl_append, ← toNat]

theorem toNat_cons (c : Bool) (b : List Bool) :
    toNat (c :: b) = c.toNat * 2 ^ b.length + toNat b := by
  rw [← List.singleton_append, toNat_append]
  cases c <;> rfl

theorem toNat_lt (b : List Bool) : toNat b < 2 ^ b.length := by
  induction b with
  | nil => decide
  | cons c b ih =>
      rw [toNat_cons, List.length_cons, Nat.pow_succ]
      have hbit : c.toNat * 2 ^ b.length ≤ 2 ^ b.length := by cases c <;> simp
      omega

/-- The first bit is the highest one. -/
theorem testBit_toNat_cons (c : Bool) (b : List Bool) : (toNat (c :: b)).testBit b.length = c := by
  rw [toNat_cons, Nat.mul_comm, Nat.testBit_two_pow_mul_add _ (toNat_lt b)]
  cases c <;> simp

theorem ofNat_mul_add (n k m v : Nat) (h : n ≤ k) : ofNat n (2 ^ k * m + v) = ofNat n v := by
  induction n with
  | zero => rfl
  | succ n ih =>
      have hbit : (2 ^ k * m + v).testBit n = v.testBit n := by
        have hlow := congrArg (fun x => Nat.testBit x n) (Nat.mul_add_mod (2 ^ k) m v)
        rwa [Nat.testBit_mod_two_pow, Nat.testBit_mod_two_pow, decide_eq_true (by omega : n < k),
          Bool.true_and, Bool.true_and] at hlow
      rw [ofNat, ofNat, ih (by omega), hbit]

theorem ofNat_toNat (b : List Bool) : ofNat b.length (toNat b) = b := by
  induction b with
  | nil => rfl
  | cons c b ih =>
      rw [List.length_cons, ofNat, testBit_toNat_cons, toNat_cons, Nat.mul_comm,
        ofNat_mul_add _ _ _ _ le_rfl, ih]

theorem toNat_ofNat (n v : Nat) : toNat (ofNat n v) = v % 2 ^ n := by
  induction n with
  | zero => simp [ofNat, Nat.mod_one]
  | succ n ih =>
      have hbit : (v.testBit n).toNat = v / 2 ^ n % 2 := by
        rw [Nat.testBit_eq_decide_div_mod_eq]
        rcases Nat.mod_two_eq_zero_or_one (v / 2 ^ n) with h | h <;> simp [h]
      rw [ofNat, toNat_cons, length_ofNat, ih, Nat.mod_pow_succ, hbit]
      ring

/-- Zeros in front leave the number as it is. -/
theorem toNat_replicate_append (k : Nat) (b : List Bool) :
    toNat (List.replicate k false ++ b) = toNat b := by
  induction k with
  | zero => rfl
  | succ k ih => rw [List.replicate_succ, List.cons_append, toNat_cons, ih]; simp

/-! ### Bytes -/

theorem ofByte_eq (b : UInt8) : ofByte b = ofNat 8 b.toNat := rfl

theorem toNat_ofByte (b : UInt8) : toNat (ofByte b) = b.toNat := by
  rw [ofByte_eq, toNat_ofNat, Nat.mod_eq_of_lt b.toNat_lt]

@[simp] theorem ofBytes_nil : ofBytes [] = [] := rfl

theorem ofBytes_cons (b : UInt8) (bytes : List UInt8) :
    ofBytes (b :: bytes) = ofByte b ++ ofBytes bytes := rfl

theorem ofBytes_append (bytes more : List UInt8) :
    ofBytes (bytes ++ more) = ofBytes bytes ++ ofBytes more := List.flatMap_append

/-- Eight bits are the bits of the byte they make. -/
theorem ofByte_toUInt8 {b : List Bool} (h : b.length = 8) : ofByte (toNat b).toUInt8 = b := by
  have hlt : toNat b < 2 ^ 8 := h ▸ toNat_lt b
  have hbyte : (toNat b).toUInt8.toNat = toNat b := UInt8.toNat_ofNat_of_lt' hlt
  rw [ofByte_eq, hbyte, ← h, ofNat_toNat]

theorem ofBytes_chunks (n : Nat) (bits : List Bool) (h : bits.length = 8 * n) :
    ofBytes (chunks n bits) = bits := by
  induction n generalizing bits with
  | zero => rw [List.length_eq_zero_iff.mp h]; rfl
  | succ n ih =>
      have hfront : (bits.take 8).length = 8 := by rw [List.length_take]; omega
      rw [chunks, ofBytes_cons, ofByte_toUInt8 hfront,
        ih _ (by rw [List.length_drop]; omega), List.take_append_drop]

/-- The bits of the bytes that bits make are the bits themselves, behind zeros. -/
theorem ofBytes_toBytes (bits : List Bool) :
    ofBytes (toBytes bits) =
      List.replicate ((bits.length + 7) / 8 * 8 - bits.length) false ++ bits :=
  ofBytes_chunks _ _ (by rw [List.length_append, List.length_replicate]; omega)

theorem length_toBytes (bits : List Bool) : (toBytes bits).length = (bits.length + 7) / 8 := by
  have h := congrArg List.length (ofBytes_toBytes bits)
  rw [length_ofBytes, List.length_append, List.length_replicate] at h
  omega

/-- Bytes are told apart by their bits. -/
theorem ofBytes_injective : Function.Injective ofBytes := by
  intro a
  induction a with
  | nil =>
      intro b h
      have hlength := congrArg List.length h
      rw [length_ofBytes, length_ofBytes, List.length_nil] at hlength
      exact (List.length_eq_zero_iff.mp (by omega)).symm
  | cons x a ih =>
      rintro (_ | ⟨y, b⟩) h
      · cases h
      · obtain ⟨hfirst, hrest⟩ := List.append_inj h rfl
        have hbyte := congrArg toNat hfirst
        rw [toNat_ofByte, toNat_ofByte] at hbyte
        rw [UInt8.toNat_inj.mp hbyte, ih hrest]

theorem toBytes_ofBytes (bytes : List UInt8) : toBytes (ofBytes bytes) = bytes := by
  apply ofBytes_injective
  have hcount : (8 * bytes.length + 7) / 8 * 8 - 8 * bytes.length = 0 := by omega
  rw [ofBytes_toBytes, length_ofBytes, hcount, List.replicate_zero, List.nil_append]

/-- Whole bytes need no zeros in front. -/
theorem ofBytes_toBytes_of_mod {bits : List Bool} (h : bits.length % 8 = 0) :
    ofBytes (toBytes bits) = bits := by
  have hcount : (bits.length + 7) / 8 * 8 - bits.length = 0 := by omega
  rw [ofBytes_toBytes, hcount, List.replicate_zero, List.nil_append]

theorem toNat_ofBytes_toBytes (bits : List Bool) :
    toNat (ofBytes (toBytes bits)) = toNat bits := by
  rw [ofBytes_toBytes, toNat_replicate_append]

/-- The number of a byte string, byte by byte. -/
theorem toNat_ofBytes (bytes : List UInt8) :
    toNat (ofBytes bytes) = bytes.foldl (fun n b => 256 * n + b.toNat) 0 := by
  induction bytes using List.reverseRecOn with
  | nil => rfl
  | append_singleton bytes b ih =>
      rw [ofBytes_append, toNat_append, List.foldl_append, ← ih, ofBytes_cons, ofBytes_nil,
        List.append_nil, toNat_ofByte, length_ofByte, List.foldl_cons, List.foldl_nil]
      ring

/-! ### Two's complement -/

/-- Bits are negative if the highest one is set. -/
theorem toInt_eq_ite (b : List Bool) : toInt b =
    if 0 < b.length ∧ (toNat b).testBit (b.length - 1) then (toNat b : Int) - 2 ^ b.length
    else toNat b := by
  rcases b with _ | ⟨c, b⟩
  · rfl
  · have hbit := testBit_toNat_cons c b
    cases c <;> simp [toInt, hbit]

end Bits

end PolyScript
