import Mathlib.Tactic.IntervalCases
import PolyScript.Proofs.BitStrings
import PolyScript.Proofs.Tilings

/-!
# Reading Bits from Bytes

A match goes through the bits of its input as a list. A reader goes through the bytes: it keeps
the number of bits it has read, takes single bits out of bytes with shifts, and puts them into
the bytes of its result, at the end of as many bytes as are needed. Its numbers are words. Two
things can go wrong with such a reader that cannot go wrong with a list. An index may be
outside of the bytes, and a sum, difference or product may be no word. Here both are faults,
which are no answers.

No input leads to a fault. The number of bits that have been read never passes the number of
all bits, which is a word for any input that is held in memory, and a product that sizes from
outside take part in is checked beforehand. The reader therefore answers what the list does.

## Main definitions

* `Fault`: What may go wrong.
* `BitReader.read`: The bytes of the next bits.
* `SegmentSpec.decodeBytes?`: The value of bytes that have been read.
* `BitReader.matchSegments`: Matches segments against what is left.

## Theorems

* `BitReader.readBit_eq`, `BitReader.writeBit_eq`: One bit is read, and written.
* `BitReader.read_eq`: Bits are read.
* `SegmentSpec.decodeBytes?_eq`: Bytes that have been read stand for what their bits do.
* `BitReader.take_eq`: One segment.
* `BitReader.matchSegments_eq`: A match of a reader is a match of a list of bits.
-/

namespace PolyScript

/-- What may go wrong on the way, apart from a pattern that does not match. -/
inductive Fault where
  /-- An index is outside. -/
  | outside
  /-- A number is no word. -/
  | overflow
  deriving DecidableEq, Repr

/-- A number as a word. -/
def word (n : Nat) : Except Fault Nat := if n < sizeLimit then .ok n else .error .overflow

/-- A difference of words. -/
def minus (a b : Nat) : Except Fault Nat := if b ≤ a then .ok (a - b) else .error .overflow

/-- Bytes, and how many of their bits have been read. -/
structure BitReader where
  data : List UInt8
  offset : Nat

namespace BitReader

/-- How many bits are left. -/
def remaining (r : BitReader) : Except Fault Nat := do
  minus (← word (r.data.length * 8)) r.offset

/-- Reads a bit, the highest one of a byte first. -/
def readBit (r : BitReader) : Except Fault (UInt8 × BitReader) := do
  match r.data[r.offset / 8]? with
  | none => .error .outside
  | some byte =>
    let shift ← minus 7 (r.offset % 8)
    let offset ← word (r.offset + 1)
    return ((byte >>> shift.toUInt8) &&& 1, ⟨r.data, offset⟩)

/-- Puts a bit to those at a place in bytes. -/
def writeBit (out : List UInt8) (place : Nat) (bit : UInt8) : Except Fault (List UInt8) := do
  match out[place / 8]? with
  | none => .error .outside
  | some byte =>
    let shift ← minus 7 (place % 8)
    return out.set (place / 8) (byte ||| bit <<< shift.toUInt8)

/-- Reads bits and writes them to bytes, from a place on. -/
def copy : Nat → Nat → List UInt8 → BitReader → Except Fault (List UInt8 × BitReader)
  | 0, _, out, r => .ok (out, r)
  | n + 1, place, out, r => do
    let (bit, r) ← r.readBit
    let out ← writeBit out place bit
    copy n (← word (place + 1)) out r

/-- The bytes of the next bits, filled up with zeros in front, if there are as many. -/
def read (r : BitReader) (bits : Nat) : Except Fault (Option (List UInt8 × BitReader)) := do
  if (← r.remaining) < bits then return none
  let count := (bits + 7) / 8
  let pad ← minus (← word (count * 8)) bits
  return some (← copy bits pad (List.replicate count 0) r)

end BitReader

/-- The number of bytes, the first one highest. -/
def numberOfBytes (bytes : List UInt8) : Nat := bytes.foldl (fun n b => 256 * n + b.toNat) 0

/-- The value of bytes that have been read as some number of bits. -/
def SegmentSpec.decodeBytes? (spec : SegmentSpec) (bits : Nat) (raw : List UInt8) :
    Option Value :=
  let ordered := if spec.little then raw.reverse else raw
  match spec.type with
  | .binary | .bits => some (.bytes raw)
  | .integer =>
    if spec.little && bits % 8 ≠ 0 then none
    else
      let magnitude := numberOfBytes ordered
      if spec.signed && 0 < bits && magnitude.testBit (bits - 1) then
        some (.integer (magnitude - 2 ^ bits))
      else some (.integer magnitude)
  | .float =>
    if bits = 32 then
      if raw.length = 4 then some (.float (Double.ofSingle (numberOfBytes ordered))) else none
    else if bits = 64 then
      if raw.length = 8 then some (.float (Double.ofBits (numberOfBytes ordered))) else none
    else none

namespace BitReader

/-- Matches one segment, and gives the reader behind it. -/
def take (segment : BitSegment) (isLast : Bool) (bindings : Bindings) (r : BitReader) :
    Except Fault (Option (Bindings × BitReader)) := do
  match segment.ownText? with
  | some text =>
    let own := utf8Bytes text
    match ← r.read (← word (own.length * 8)) with
    | none => return none
    | some (bytes, r) => return if bytes = own then some (bindings, r) else none
  | none =>
    match SegmentSpec.ofSpecifiers? segment.specifiers with
    | none => return none
    | some spec =>
      match segment.bitCount? spec bindings isLast (← r.remaining) with
      | none => return none
      | some count =>
        if spec.type = .binary && (count % 8 ≠ 0 || r.offset % 8 ≠ 0) then return none
        else
          match ← r.read count with
          | none => return none
          | some (raw, r) =>
            match spec.decodeBytes? count raw with
            | none => return none
            | some value => return (segment.bindValue? bindings value).map fun bound => (bound, r)

/-- Matches segments against all that is left. -/
def matchSegments : List BitSegment → Bindings → BitReader → Except Fault (Option Bindings)
  | [], bindings, r => do return if (← r.remaining) = 0 then some bindings else none
  | segment :: rest, bindings, r => do
    match ← take segment rest.isEmpty bindings r with
    | some (bindings, r) => matchSegments rest bindings r
    | none => return none

end BitReader

variable {data : List UInt8} {offset : Nat}

theorem word_of_lt {n : Nat} (h : n < sizeLimit) : word n = .ok n := if_pos h

theorem minus_of_le {a b : Nat} (h : b ≤ a) : minus a b = .ok (a - b) := if_pos h

/-! ### Single bits -/

namespace Bits

/-- The bit at a place stands in the byte with an eighth of its number. -/
theorem getElem?_ofBytes (bytes : List UInt8) (k : Nat) :
    (ofBytes bytes)[k]? = bytes[k / 8]?.map fun b => b.toNat.testBit (7 - k % 8) := by
  induction bytes generalizing k with
  | nil => simp
  | cons b bytes ih =>
      rw [ofBytes_cons]
      by_cases hk : k < 8
      · rw [List.getElem?_append_left (by rwa [length_ofByte]), Nat.div_eq_of_lt hk,
          Nat.mod_eq_of_lt hk]
        interval_cases k <;> rfl
      · rw [List.getElem?_append_right (by rw [length_ofByte]; omega), length_ofByte, ih]
        have hplace : k / 8 = (k - 8) / 8 + 1 := by omega
        have hbit : (k - 8) % 8 = k % 8 := by omega
        rw [hplace, hbit, List.getElem?_cons_succ]

theorem ofBytes_replicate_zero (n : Nat) :
    ofBytes (List.replicate n 0) = List.replicate (n * 8) false := by
  induction n with
  | zero => rfl
  | succ n ih =>
      rw [List.replicate_succ, ofBytes_cons, ih, Nat.succ_mul, Nat.add_comm,
        ← List.replicate_append_replicate]
      rfl

/-- A bit as a byte. -/
def asByte (b : Bool) : UInt8 := if b then 1 else 0

theorem toNat_asByte (b : Bool) : (asByte b).toNat = b.toNat := by cases b <;> rfl

theorem toNat_toUInt8 {k : Nat} (h : k < 8) : k.toUInt8.toNat = k :=
  UInt8.toNat_ofNat_of_lt' (Nat.lt_of_lt_of_le h (by decide))

/-- A bit that is moved to the end of its byte. -/
theorem shiftRight_and_one (byte : UInt8) {k : Nat} (h : k < 8) :
    (byte >>> k.toUInt8) &&& 1 = asByte (byte.toNat.testBit k) := by
  apply UInt8.toNat_inj.mp
  rw [UInt8.toNat_and, UInt8.toNat_shiftRight, toNat_toUInt8 h, Nat.mod_eq_of_lt h, toNat_asByte,
    Nat.toNat_testBit, Nat.shiftRight_eq_div_pow]
  exact Nat.and_one_is_mod _

/-- A bit that is moved to its place and put to the others. -/
theorem testBit_or_shiftLeft (byte : UInt8) (b : Bool) {k i : Nat} (hk : k < 8) (hi : i < 8) :
    (byte ||| asByte b <<< k.toUInt8).toNat.testBit i =
      (byte.toNat.testBit i || (b && decide (k = i))) := by
  rw [UInt8.toNat_or, UInt8.toNat_shiftLeft, toNat_toUInt8 hk, Nat.mod_eq_of_lt hk, toNat_asByte,
    Nat.testBit_or, Nat.testBit_mod_two_pow, Nat.testBit_shiftLeft]
  congr 1
  cases b with
  | false => simp
  | true =>
      rw [Bool.toNat_true, decide_eq_true hi, Bool.true_and, Bool.true_and, Bool.eq_iff_iff,
        Bool.and_eq_true, decide_eq_true_eq, decide_eq_true_eq,
        Nat.testBit_one_eq_true_iff_self_eq_zero]
      omega

end Bits

namespace BitReader

/-- The reader takes the next bit of the data and moves on by one, as long as the places of all
    bits fit a word. -/
theorem readBit_eq {bit : Bool} (hdata : 8 * data.length < sizeLimit)
    (h : (Bits.ofBytes data)[offset]? = some bit) :
    readBit ⟨data, offset⟩ = .ok (Bits.asByte bit, ⟨data, offset + 1⟩) := by
  obtain ⟨hlt, -⟩ := List.getElem?_eq_some_iff.mp h
  rw [Bits.length_ofBytes] at hlt
  rw [Bits.getElem?_ofBytes, Option.map_eq_some_iff] at h
  obtain ⟨byte, hbyte, rfl⟩ := h
  have hshift : minus 7 (offset % 8) = .ok (7 - offset % 8) := minus_of_le (by omega)
  have hword : word (offset + 1) = .ok (offset + 1) := word_of_lt (by omega)
  simp only [readBit, hbyte, hshift, hword, bind, Except.bind, pure, Except.pure,
    Bits.shiftRight_and_one byte (by omega : 7 - offset % 8 < 8)]

/-- Setting a bit that is still zero by an or of its byte changes this one place in the list of
    bits. The shift stays within a byte, so it does not fault. -/
theorem writeBit_eq {out : List UInt8} {place : Nat} (bit : Bool)
    (h : (Bits.ofBytes out)[place]? = some false) :
    ∃ out', writeBit out place (Bits.asByte bit) = .ok out' ∧
      Bits.ofBytes out' = (Bits.ofBytes out).set place bit := by
  have hzero := h
  rw [Bits.getElem?_ofBytes, Option.map_eq_some_iff] at h
  obtain ⟨byte, hbyte, hclear⟩ := h
  have hshift : minus 7 (place % 8) = .ok (7 - place % 8) := minus_of_le (by omega)
  refine ⟨_, by simp only [writeBit, hbyte, hshift, bind, Except.bind, pure, Except.pure]; rfl, ?_⟩
  apply List.ext_getElem?
  intro k
  obtain ⟨hplace, -⟩ := List.getElem?_eq_some_iff.mp hzero
  obtain ⟨hindex, -⟩ := List.getElem?_eq_some_iff.mp hbyte
  rw [Bits.getElem?_ofBytes, List.getElem?_set, List.getElem?_set]
  -- Only one byte is written, and within it only the bit at the place differs.
  by_cases hk : place / 8 = k / 8
  · rw [if_pos hk, if_pos hindex, Option.map_some,
      Bits.testBit_or_shiftLeft byte bit (by omega) (by omega)]
    by_cases hsame : place = k
    · rw [if_pos hsame, if_pos hplace, ← hsame, hclear]
      simp
    · have hother : ¬ 7 - place % 8 = 7 - k % 8 := by omega
      rw [if_neg hsame, Bits.getElem?_ofBytes, ← hk, hbyte]
      simp [hother]
  · have hsame : place ≠ k := fun h => hk (h ▸ rfl)
    rw [if_neg hk, if_neg hsame, Bits.getElem?_ofBytes]

/-! ### Several bits -/

/-- Zeros at the end of bytes are filled with the next bits. -/
theorem copy_eq {n : Nat} {out : List UInt8} {front : List Bool}
    (hdata : 8 * data.length < sizeLimit) (hleft : offset + n ≤ 8 * data.length)
    (hout : Bits.ofBytes out = front ++ List.replicate n false)
    (hword : front.length + n < sizeLimit) :
    ∃ out', copy n front.length out ⟨data, offset⟩ = .ok (out', ⟨data, offset + n⟩) ∧
      Bits.ofBytes out' = front ++ ((Bits.ofBytes data).drop offset).take n := by
  -- By induction on the bits that are left. Each is written over the first of the zeros.
  induction n generalizing offset out front with
  | zero => exact ⟨out, rfl, by simpa using hout⟩
  | succ n ih =>
      have hbound : offset < (Bits.ofBytes data).length := by rw [Bits.length_ofBytes]; omega
      have hread := readBit_eq hdata (List.getElem?_eq_getElem hbound)
      have hclear : (Bits.ofBytes out)[front.length]? = some false := by simp [hout]
      obtain ⟨written, hwrite, hbits⟩ := writeBit_eq (Bits.ofBytes data)[offset] hclear
      have hfront : Bits.ofBytes written =
          (front ++ [(Bits.ofBytes data)[offset]]) ++ List.replicate n false := by
        simp [hbits, hout, List.replicate_succ]
      obtain ⟨out', hcopy, hall⟩ := ih (by omega : offset + 1 + n ≤ 8 * data.length) hfront
        (by rw [List.length_append, List.length_singleton]; omega)
      refine ⟨out', ?_, ?_⟩
      · rw [List.length_append, List.length_singleton] at hcopy
        have hplace : word (front.length + 1) = .ok (front.length + 1) := word_of_lt (by omega)
        simp only [copy, hread, hwrite, hplace, hcopy, bind, Except.bind]
        rw [Nat.add_assoc, Nat.add_comm 1]
      · rw [hall, List.append_assoc, List.drop_eq_getElem_cons hbound, List.take_succ_cons,
          List.singleton_append]

theorem remaining_eq (hdata : 8 * data.length < sizeLimit) (hoffset : offset ≤ 8 * data.length) :
    remaining ⟨data, offset⟩ = .ok ((Bits.ofBytes data).drop offset).length := by
  have hword : word (data.length * 8) = .ok (data.length * 8) := word_of_lt (by omega)
  have hminus : minus (data.length * 8) offset = .ok (data.length * 8 - offset) :=
    minus_of_le (by omega)
  simp only [remaining, hword, hminus, bind, Except.bind]
  rw [List.length_drop, Bits.length_ofBytes, Nat.mul_comm]

/-- The bytes of the next bits are read, and nothing goes wrong on the way. -/
theorem read_eq {n : Nat} (hdata : 8 * data.length < sizeLimit)
    (hleft : offset + n ≤ 8 * data.length) : read ⟨data, offset⟩ n =
      .ok (some (Bits.toBytes (((Bits.ofBytes data).drop offset).take n), ⟨data, offset + n⟩)) := by
  have htaken : (((Bits.ofBytes data).drop offset).take n).length = n := by
    rw [List.length_take, List.length_drop, Bits.length_ofBytes]
    omega
  have henough : ¬ ((Bits.ofBytes data).drop offset).length < n := by
    rw [List.length_drop, Bits.length_ofBytes]
    omega
  -- The buffer begins as zeros: those that stay as padding, then one for each bit.
  have hzeros : Bits.ofBytes (List.replicate ((n + 7) / 8) 0) =
      List.replicate ((n + 7) / 8 * 8 - n) false ++ List.replicate n false := by
    rw [Bits.ofBytes_replicate_zero, List.replicate_append_replicate]
    congr 1
    omega
  obtain ⟨out, hcopy, hout⟩ := copy_eq hdata hleft hzeros
    (by rw [List.length_replicate]; omega)
  rw [List.length_replicate] at hcopy
  -- Bytes are the same if their bits are.
  have hbytes : out = Bits.toBytes (((Bits.ofBytes data).drop offset).take n) := by
    apply Bits.ofBytes_injective
    rw [hout, Bits.ofBytes_toBytes, htaken]
  have hword : word ((n + 7) / 8 * 8) = .ok ((n + 7) / 8 * 8) := word_of_lt (by omega)
  have hpad : minus ((n + 7) / 8 * 8) n = .ok ((n + 7) / 8 * 8 - n) := minus_of_le (by omega)
  simp only [read, remaining_eq hdata (by omega : offset ≤ 8 * data.length), if_neg henough,
    hword, hpad, hcopy, hbytes, bind, Except.bind, pure, Except.pure]

theorem read_eq_none {n : Nat} (hdata : 8 * data.length < sizeLimit)
    (hoffset : offset ≤ 8 * data.length) (hleft : 8 * data.length < offset + n) :
    read ⟨data, offset⟩ n = .ok none := by
  have hfew : ((Bits.ofBytes data).drop offset).length < n := by
    rw [List.length_drop, Bits.length_ofBytes]
    omega
  simp only [read, remaining_eq hdata hoffset, bind, Except.bind, if_pos hfew]
  rfl

end BitReader

/-! ### Values -/

/-- Bits in the order in which a segment takes them. -/
def SegmentSpec.ordered (spec : SegmentSpec) (bits : List Bool) : List Bool :=
  if spec.little then Bits.ofBytes (Bits.toBytes bits).reverse else bits

/-- Whole bytes are as many in either order. -/
theorem SegmentSpec.length_ordered {spec : SegmentSpec} {bits : List Bool}
    (h : spec.little = true → bits.length % 8 = 0) : (spec.ordered bits).length = bits.length := by
  rw [ordered]
  split
  · rename_i hlittle
    have hbytes := h hlittle
    rw [Bits.length_ofBytes, List.length_reverse, Bits.length_toBytes]
    omega
  · rfl

theorem SegmentSpec.numberOfBytes_ordered (spec : SegmentSpec) (bits : List Bool) :
    numberOfBytes (if spec.little then (Bits.toBytes bits).reverse else Bits.toBytes bits) =
      Bits.toNat (spec.ordered bits) := by
  rw [numberOfBytes, ← Bits.toNat_ofBytes, ordered]
  split
  · rfl
  · exact Bits.toNat_ofBytes_toBytes bits

/-- Bytes that have been read stand for what their bits do. -/
theorem SegmentSpec.decodeBytes?_eq (spec : SegmentSpec) (bits : List Bool) :
    spec.decodeBytes? bits.length (Bits.toBytes bits) = spec.decode? bits := by
  rw [decodeBytes?, decode?, ← ordered]
  dsimp only
  rw [numberOfBytes_ordered]
  cases spec.type with
  | binary => rfl
  | bits => rfl
  | float =>
      dsimp only
      -- The two lengths of a float are told apart by their bytes, too.
      by_cases hsingle : bits.length = 32
      · simp [hsingle, Bits.length_toBytes]
      · by_cases hdouble : bits.length = 64
        · simp [hdouble, Bits.length_toBytes]
        · simp [hsingle, hdouble]
  | integer =>
      dsimp only
      -- In little order only whole bytes are decoded.
      by_cases hodd : (spec.little && decide (bits.length % 8 ≠ 0)) = true
      · rw [if_pos hodd, if_pos hodd]
      · rw [if_neg hodd, if_neg hodd]
        have hwhole : spec.little = true → bits.length % 8 = 0 := by
          intro hlittle
          simpa [hlittle] using hodd
        rw [Bits.toInt_eq_ite, length_ordered hwhole]
        cases spec.signed with
        | false => rfl
        | true => simp [apply_ite some, apply_ite Value.integer]

/-! ### Segments -/

/-- A text that takes its own bytes has bits that can be counted. -/
def BitSegment.IsCounted (segment : BitSegment) : Prop :=
  ∀ text, segment.ownText? = some text → 8 * (utf8Bytes text).length < sizeLimit

namespace BitReader

/-- The reader that has some bits left. -/
def before (data : List UInt8) (rest : List Bool) : BitReader :=
  ⟨data, 8 * data.length - rest.length⟩

theorem before_drop {n : Nat} (hleft : offset + n ≤ 8 * data.length) :
    before data (((Bits.ofBytes data).drop offset).drop n) = ⟨data, offset + n⟩ := by
  rw [before, List.drop_drop, List.length_drop, Bits.length_ofBytes]
  congr 1
  omega

/-- As many bits are left as the reader has not read. -/
theorem length_left : ((Bits.ofBytes data).drop offset).length = 8 * data.length - offset := by
  rw [List.length_drop, Bits.length_ofBytes]

/-- A segment that is a text without a size: the reader compares the bytes of the text with as
    many bytes of the data, and it comes to the same as the function on lists of bits. -/
theorem take_eq_own {segment : BitSegment} {isLast : Bool} {bindings : Bindings} {text : String}
    (hdata : 8 * data.length < sizeLimit) (hoffset : offset ≤ 8 * data.length)
    (hown : segment.ownText? = some text) (hcounted : 8 * (utf8Bytes text).length < sizeLimit) :
    take segment isLast bindings ⟨data, offset⟩ =
      .ok ((segment.take? isLast bindings ((Bits.ofBytes data).drop offset)).map
        fun found => (found.1, before data found.2)) := by
  have hlength : (Bits.ofBytes (utf8Bytes text)).length = (utf8Bytes text).length * 8 := by
    rw [Bits.length_ofBytes, Nat.mul_comm]
  have hword : word ((utf8Bytes text).length * 8) = .ok ((utf8Bytes text).length * 8) :=
    word_of_lt (by omega)
  simp only [take, BitSegment.take?, hown, hword, bind, Except.bind, hlength]
  by_cases hleft : offset + (utf8Bytes text).length * 8 ≤ 8 * data.length
  · have htaken : (((Bits.ofBytes data).drop offset).take
        ((utf8Bytes text).length * 8)).length % 8 = 0 := by
      rw [List.length_take, length_left]
      omega
    -- The bits that are left are whole bytes, so they are equal if the bytes are.
    have hsame : Bits.toBytes (((Bits.ofBytes data).drop offset).take
        ((utf8Bytes text).length * 8)) = utf8Bytes text ↔
        ((Bits.ofBytes data).drop offset).take ((utf8Bytes text).length * 8) =
          Bits.ofBytes (utf8Bytes text) := by
      constructor
      · intro h
        exact (Bits.ofBytes_toBytes_of_mod htaken).symm.trans (congrArg Bits.ofBytes h)
      · intro h
        rw [h, Bits.toBytes_ofBytes]
    rw [read_eq hdata hleft]
    simp only [hsame]
    split
    · rw [Option.map_some, before_drop hleft]
      rfl
    · rfl
  · -- There are fewer bits left than the text has.
    have hfew : ((Bits.ofBytes data).drop offset).take ((utf8Bytes text).length * 8) ≠
        Bits.ofBytes (utf8Bytes text) := by
      intro h
      have hsame := congrArg List.length h
      rw [List.length_take, length_left, hlength] at hsame
      omega
    rw [read_eq_none hdata hoffset (by omega), if_neg hfew]
    rfl

/-- Any other segment: its size is computed, so many bits are read if there are so many, and
    their value is bound. -/
theorem take_eq_decoded {segment : BitSegment} {isLast : Bool} {bindings : Bindings}
    (hdata : 8 * data.length < sizeLimit) (hoffset : offset ≤ 8 * data.length)
    (hown : segment.ownText? = none) :
    take segment isLast bindings ⟨data, offset⟩ =
      .ok ((segment.take? isLast bindings ((Bits.ofBytes data).drop offset)).map
        fun found => (found.1, before data found.2)) := by
  simp only [take, BitSegment.take?, hown, bind, Except.bind]
  cases hspec : SegmentSpec.ofSpecifiers? segment.specifiers with
  | none => rfl
  | some spec =>
      simp only [remaining_eq hdata hoffset]
      cases hcount : segment.bitCount? spec bindings isLast
          ((Bits.ofBytes data).drop offset).length with
      | none => rfl
      | some count =>
          -- What is left is whole bytes if what was read is, the data being whole bytes.
          have hbytes : ((Bits.ofBytes data).drop offset).length % 8 = 0 ↔ offset % 8 = 0 := by
            rw [length_left]
            omega
          simp only [ne_eq, hbytes]
          split
          · rfl
          by_cases hleft : offset + count ≤ 8 * data.length
          · have henough : ¬ ((Bits.ofBytes data).drop offset).length < count := by
              rw [length_left]
              omega
            have htaken : (((Bits.ofBytes data).drop offset).take count).length = count := by
              rw [List.length_take]
              omega
            have hvalue := spec.decodeBytes?_eq (((Bits.ofBytes data).drop offset).take count)
            rw [htaken] at hvalue
            rw [read_eq hdata hleft, if_neg henough]
            simp only [hvalue]
            cases spec.decode? (((Bits.ofBytes data).drop offset).take count) with
            | none => rfl
            | some value =>
                simp only [Option.map_map, Function.comp_def, before_drop hleft]
                rfl
          · have hfew : ((Bits.ofBytes data).drop offset).length < count := by
              rw [length_left]
              omega
            rw [read_eq_none hdata hoffset (by omega), if_pos hfew]
            rfl

/-- A segment is matched by the reader as it is by the list of bits. -/
theorem take_eq {segment : BitSegment} {isLast : Bool} {bindings : Bindings}
    (hdata : 8 * data.length < sizeLimit) (hoffset : offset ≤ 8 * data.length)
    (hcounted : segment.IsCounted) :
    take segment isLast bindings ⟨data, offset⟩ =
      .ok ((segment.take? isLast bindings ((Bits.ofBytes data).drop offset)).map
        fun found => (found.1, before data found.2)) := by
  cases hown : segment.ownText? with
  | none => exact take_eq_decoded hdata hoffset hown
  | some text => exact take_eq_own hdata hoffset hown (hcounted text hown)

/-- A match of a reader is a match of the bits it has not read, and nothing goes wrong on the
    way. -/
theorem matchSegments_eq {segments : List BitSegment} {bindings : Bindings}
    (hdata : 8 * data.length < sizeLimit) (hoffset : offset ≤ 8 * data.length)
    (hcounted : ∀ segment ∈ segments, segment.IsCounted) :
    matchSegments segments bindings ⟨data, offset⟩ =
      .ok (bindSegments? segments bindings ((Bits.ofBytes data).drop offset)) := by
  -- By induction on the segments. Each one leaves the reader where its chunk ends.
  induction segments generalizing offset bindings with
  | nil =>
      simp only [matchSegments, bindSegments?, remaining_eq hdata hoffset, bind, Except.bind,
        List.length_eq_zero_iff, List.isEmpty_iff]
      rfl
  | cons segment segments ih =>
      obtain ⟨hfirst, hothers⟩ := List.forall_mem_cons.mp hcounted
      simp only [matchSegments, bindSegments?, take_eq hdata hoffset hfirst, bind, Except.bind]
      cases htake : segment.take? segments.isEmpty bindings ((Bits.ofBytes data).drop offset) with
      | none => rfl
      | some found =>
          have hbytes : (offset + ((Bits.ofBytes data).drop offset).length) % 8 = 0 := by
            rw [length_left]
            omega
          obtain ⟨chunk, hchunk, -⟩ := BitSegment.takes_of_take? htake hbytes
          have hrest : found.2 = ((Bits.ofBytes data).drop offset).drop chunk.length := by
            rw [← hchunk, List.drop_left]
          have hleft : offset + chunk.length ≤ 8 * data.length := by
            have hsum := congrArg List.length hchunk
            rw [List.length_append, length_left] at hsum
            omega
          simp only [Option.map_some, hrest, before_drop hleft]
          rw [ih hleft hothers, List.drop_drop]

end BitReader

/-- A match of a byte string is a tiling of its bits by the segments, from the first bit to the
    last one, with the same bindings. For an input that is held in memory, reading it bit by bit
    answers the same, without an index outside of the bytes and without a number that is no
    word. -/
theorem bit_matches_are_tilings (segments : List BitSegment) (data : List UInt8)
    (bindings : Bindings) :
    (∀ bound, bindSegments? segments bindings (Bits.ofBytes data) = some bound ↔
      ∃ chunks, chunks.flatten = Bits.ofBytes data ∧ Tiles segments bindings 0 chunks bound) ∧
    (8 * data.length < sizeLimit → (∀ segment ∈ segments, segment.IsCounted) →
      BitReader.matchSegments segments bindings ⟨data, 0⟩ =
        .ok (bindSegments? segments bindings (Bits.ofBytes data))) := by
  refine ⟨fun bound => bindSegments?_eq_some_iff, fun hdata hcounted => ?_⟩
  exact BitReader.matchSegments_eq hdata (Nat.zero_le _) hcounted

/-- A letter between two halves of a byte. -/
theorem bit_matches_are_tilings_halves :
    let half (name : String) : BitSegment :=
      .mk (.identifier name default) (some (.number (.integer 4) "4" default)) false [] default
    let letter : BitSegment := .mk (.string "k" "\"k\"" default) none false [] default
    let segments := [half "high", letter, half "low"]
    let bound : Bindings := [("high", .integer 10), ("low", .integer 5)]
    (∃ chunks, chunks.flatten = Bits.ofBytes [0xA6, 0xB5] ∧ Tiles segments [] 0 chunks bound) ∧
      BitReader.matchSegments segments [] ⟨[0xA6, 0xB5], 0⟩ = .ok (some bound) := by
  intro half letter segments bound
  obtain ⟨htiles, hread⟩ := bit_matches_are_tilings segments [0xA6, 0xB5] []
  have hbytes : utf8Bytes "k" = [0x6B] := by decide +kernel
  -- The segments are taken one by one, with four, eight and four bits.
  have hfirst : (half "high").take? false [] (Bits.ofBytes [0xA6, 0xB5]) =
      some ([("high", .integer 10)], (Bits.ofBytes [0xA6, 0xB5]).drop 4) := by rfl
  have hletter : letter.take? false [("high", .integer 10)] ((Bits.ofBytes [0xA6, 0xB5]).drop 4) =
      some ([("high", .integer 10)], (Bits.ofBytes [0xA6, 0xB5]).drop 12) := by
    simp only [BitSegment.take?, BitSegment.ownText?, letter, BitSegment.value, BitSegment.size,
      hbytes]
    rfl
  have hmatch : bindSegments? segments [] (Bits.ofBytes [0xA6, 0xB5]) = some bound := by
    simp only [segments, bindSegments?, List.isEmpty_cons, hfirst, hletter]
    rfl
  have hhalf (name : String) : (half name).IsCounted := by rintro text ⟨⟩
  have hcounted : letter.IsCounted := by
    rintro text ⟨⟩
    rw [hbytes]
    decide
  refine ⟨(htiles bound).mp hmatch, ?_⟩
  rw [hread (by decide) ?_, hmatch]
  simp only [segments, List.forall_mem_cons]
  exact ⟨hhalf _, hcounted, hhalf _, fun _ hnone => absurd hnone List.not_mem_nil⟩

end PolyScript
