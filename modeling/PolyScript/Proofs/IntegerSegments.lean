import PolyScript.Proofs.BitReader
import PolyScript.Proofs.Satisfaction

/-!
# Integer Segments

Bits that an integer segment takes stand for one integer, and for each integer in the range of
their number there are bits that stand for it. The bits of an integer are those of its
remainder by the power of two, which is two's complement for negative numbers. With the low
byte first, whole bytes stand in the other order.

Since encoding and decoding are inverse to each other, an input that has been cut into
integers of different names can be put together again from what the names are bound to. The
sizes of the chunks may depend on names, but on earlier ones only, and these keep their values
to the end.

## Main definitions

* `Bits.ofInt`: The bits of an integer.
* `SegmentSpec.encode`: The bits of an integer as a segment takes them.
* `SegmentSpec.InRange`: The integers that so many bits stand for.
* `BitSegment.encode?`: The bits of what the name of a segment is bound to.

## Theorems

* `SegmentSpec.encode_decode`: The integer of some bits has these bits.
* `SegmentSpec.decode_encode`: The bits of an integer in range stand for it.
* `encodeSegments?_of_tiles`: Chunks from what names are bound to.
* `integer_segments_exact`: All of it.
-/

namespace PolyScript

namespace Bits

/-- The bits of an integer, as many as given, in two's complement. -/
def ofInt (n : Nat) (k : Int) : List Bool := ofNat n (k % 2 ^ n).toNat

end Bits

namespace SegmentSpec

/-- The bits of an integer in the order in which a segment takes them. -/
def encode (spec : SegmentSpec) (n : Nat) (k : Int) : List Bool := spec.ordered (Bits.ofInt n k)

/-- The integers that so many bits stand for. -/
def InRange (spec : SegmentSpec) (n : Nat) (k : Int) : Prop :=
  if spec.signed ∧ 0 < n then -2 ^ (n - 1) ≤ k ∧ k < 2 ^ (n - 1) else 0 ≤ k ∧ k < 2 ^ n

/-- The integer that bits stand for. -/
def integerOf (spec : SegmentSpec) (bits : List Bool) : Int :=
  if spec.signed then Bits.toInt (spec.ordered bits) else Bits.toNat (spec.ordered bits)

end SegmentSpec

/-! ### Two's complement -/

namespace Bits

theorem length_ofInt (n : Nat) (k : Int) : (ofInt n k).length = n := length_ofNat n _

theorem two_pow_pos (n : Nat) : (0 : Int) < 2 ^ n := by positivity

/-- The bits of an integer denote its remainder. -/
theorem toNat_ofInt (n : Nat) (k : Int) : (toNat (ofInt n k) : Int) = k % 2 ^ n := by
  have hnonneg := Int.emod_nonneg k (two_pow_pos n).ne'
  rw [ofInt, toNat_ofNat]
  push_cast
  rw [Int.toNat_of_nonneg hnonneg, Int.emod_emod_of_dvd _ dvd_rfl]

/-- Bits are those of any integer with the remainder they denote. -/
theorem ofInt_of_mod {b : List Bool} {k : Int} (h : k % 2 ^ b.length = toNat b) :
    ofInt b.length k = b := by
  rw [ofInt, h, Int.toNat_natCast, ofNat_toNat]

theorem toNat_mod (b : List Bool) : (toNat b : Int) % 2 ^ b.length = toNat b :=
  Int.emod_eq_of_lt (by positivity) (by exact_mod_cast toNat_lt b)

/-- The highest bit counts against the others. -/
theorem toInt_cons (c : Bool) (b : List Bool) :
    toInt (c :: b) = toNat b - c.toNat * 2 ^ b.length := by
  cases c with
  | false => simp [toInt, toNat_cons]
  | true =>
      rw [toInt, toNat_cons, List.length_cons, Bool.toNat_true]
      push_cast
      ring

theorem toInt_mod (b : List Bool) : toInt b % 2 ^ b.length = toNat b := by
  rcases b with _ | ⟨c, b⟩
  · rfl
  · have hsum : (toNat (c :: b) : Int) = toInt (c :: b) + 2 ^ (c :: b).length * c.toNat := by
      rw [toInt_cons, toNat_cons, List.length_cons]
      push_cast
      ring
    rw [← toNat_mod (c :: b), hsum, Int.add_mul_emod_self_left]

end Bits

/-! ### One segment -/

namespace SegmentSpec

variable {spec : SegmentSpec} {n : Nat} {bits : List Bool}

/-- The other order of the other order is the order of old. -/
theorem ordered_ordered (h : spec.little = true → bits.length % 8 = 0) :
    spec.ordered (spec.ordered bits) = bits := by
  cases hlittle : spec.little with
  | false => simp [ordered, hlittle]
  | true =>
      simp only [ordered, hlittle, if_true, Bits.toBytes_ofBytes, List.reverse_reverse]
      exact Bits.ofBytes_toBytes_of_mod (h hlittle)

theorem decode?_integer (htype : spec.type = .integer)
    (h : spec.little = true → bits.length % 8 = 0) :
    spec.decode? bits = some (.integer (spec.integerOf bits)) := by
  have hwhole : ¬ (spec.little && decide (bits.length % 8 ≠ 0)) = true := by
    cases hlittle : spec.little with
    | false => simp
    | true => simp [h hlittle]
  simp only [decode?, htype, if_neg hwhole, integerOf, ordered]
  cases spec.signed <;> rfl

theorem whole_of_decode? {value : Value} (htype : spec.type = .integer)
    (h : spec.decode? bits = some value) (hlittle : spec.little = true) :
    bits.length % 8 = 0 := by
  by_contra hodd
  simp [decode?, htype, hlittle, hodd] at h

/-- Integers in range are told apart by their remainders. -/
theorem InRange.eq_of_mod {k k' : Int} (hk : spec.InRange n k) (hk' : spec.InRange n k')
    (h : k % 2 ^ n = k' % 2 ^ n) : k = k' := by
  have hdvd : (2 : Int) ^ n ∣ k - k' :=
    Int.dvd_of_emod_eq_zero (Int.emod_eq_emod_iff_emod_sub_eq_zero.mp h)
  have hnear : |k - k'| < 2 ^ n := by
    rw [abs_lt]
    unfold InRange at hk hk'
    split at hk
    · rename_i hsigned
      rw [if_pos hsigned] at hk'
      have hhalf : (2 : Int) ^ n = 2 * 2 ^ (n - 1) := by
        rw [← pow_succ', Nat.sub_add_cancel hsigned.2]
      omega
    · rename_i hsigned
      rw [if_neg hsigned] at hk'
      omega
  exact sub_eq_zero.mp (Int.eq_zero_of_abs_lt_dvd hdvd hnear)

/-- A row of bits is read as an integer in the range of its width, signed or not. In
    little-endian order it has to consist of whole bytes. -/
theorem inRange_integerOf (h : spec.little = true → bits.length % 8 = 0) :
    spec.InRange bits.length (spec.integerOf bits) := by
  rw [← length_ordered h, InRange, integerOf]
  cases hsigned : spec.signed with
  | false =>
      simp only [Bool.false_eq_true, false_and, if_false]
      exact ⟨by positivity, by exact_mod_cast Bits.toNat_lt _⟩
  | true =>
      simp only [true_and, if_true]
      rcases spec.ordered bits with _ | ⟨c, b⟩
      · decide
      · have hlt : (Bits.toNat b : Int) < 2 ^ b.length := by exact_mod_cast Bits.toNat_lt b
        rw [if_pos (by simp), Bits.toInt_cons, List.length_cons, Nat.add_sub_cancel]
        cases c <;> simp <;> omega

theorem integerOf_mod (h : spec.little = true → bits.length % 8 = 0) :
    spec.integerOf bits % 2 ^ bits.length = Bits.toNat (spec.ordered bits) := by
  rw [← length_ordered h, integerOf]
  split
  · exact Bits.toInt_mod _
  · exact Bits.toNat_mod _

/-- The integer of some bits has these bits. -/
theorem encode_integerOf (h : spec.little = true → bits.length % 8 = 0) :
    spec.encode bits.length (spec.integerOf bits) = bits := by
  have hmod := integerOf_mod h
  rw [← length_ordered h] at hmod
  rw [encode, ← length_ordered h, Bits.ofInt_of_mod hmod, ordered_ordered h]

theorem length_encode (h : spec.little = true → n % 8 = 0) (k : Int) :
    (spec.encode n k).length = n := by
  rw [encode, length_ordered (by rwa [Bits.length_ofInt]), Bits.length_ofInt]

/-- The bits of an integer in range stand for it. -/
theorem integerOf_encode {k : Int} (h : spec.little = true → n % 8 = 0)
    (hk : spec.InRange n k) : spec.integerOf (spec.encode n k) = k := by
  have hencoded : spec.little = true → (spec.encode n k).length % 8 = 0 := by
    rwa [length_encode h]
  have hrange := inRange_integerOf hencoded
  have hmod := integerOf_mod hencoded
  rw [length_encode h] at hrange hmod
  apply hrange.eq_of_mod hk
  rw [hmod, encode, ordered_ordered (by rwa [Bits.length_ofInt]), Bits.toNat_ofInt]

/-- Bits are those of one integer in range, which is the one they stand for. -/
theorem encode_eq_iff {k : Int} (h : spec.little = true → bits.length % 8 = 0)
    (hk : spec.InRange bits.length k) :
    spec.encode bits.length k = bits ↔ k = spec.integerOf bits := by
  constructor
  · intro hbits
    rw [← integerOf_encode h hk, hbits]
  · rintro rfl
    exact encode_integerOf h

theorem eq_of_decode?_eq {bits' : List Bool} (htype : spec.type = .integer)
    (h : spec.little = true → bits.length % 8 = 0) (hlength : bits'.length = bits.length)
    (heq : spec.decode? bits = spec.decode? bits') : bits = bits' := by
  have h' : spec.little = true → bits'.length % 8 = 0 := by rwa [hlength]
  rw [decode?_integer htype h, decode?_integer htype h', Option.some.injEq,
    Value.integer.injEq] at heq
  rw [← encode_integerOf h, ← encode_integerOf h', heq, hlength]

end SegmentSpec

/-! ### Patterns -/

/-- A segment gives a name to an integer. -/
structure BitSegment.NamesInteger (segment : BitSegment) (name : String) (spec : SegmentSpec) :
    Prop where
  name : Pattern.segmentName? segment = some name
  specifiers : SegmentSpec.ofSpecifiers? segment.specifiers = some spec
  type : spec.type = .integer

/-- The bits of what the name of a segment is bound to. -/
def BitSegment.encode? (segment : BitSegment) (bindings : Bindings) : Option (List Bool) := do
  let name ← Pattern.segmentName? segment
  let spec ← SegmentSpec.ofSpecifiers? segment.specifiers
  let count ← segment.bitCount? spec bindings false 0
  match ← bindings.lookup name with
  | .integer k => some (spec.encode count k)
  | _ => none

/-- The bytes of what the names of segments are bound to. -/
def encodeSegments? (segments : List BitSegment) (bindings : Bindings) : Option (List UInt8) :=
  (segments.mapM fun s : BitSegment => s.encode? bindings).map fun chunks =>
    Bits.toBytes chunks.flatten

open Bindings

/-- The value of a size stays what it is when names are bound. -/
theorem evalInteger?_of_extends {b b' : Bindings} (h : Extends b b') {e : Expr} {k : Int}
    (heval : evalInteger? b e = some k) : evalInteger? b' e = some k := by
  fun_induction evalInteger? b e generalizing k with
  | case1 name place =>
      obtain ⟨v, hlookup, hinteger⟩ := Option.bind_eq_some_iff.mp heval
      rw [evalInteger?, h name v hlookup]
      exact hinteger
  | case2 inner place ih =>
      rw [evalInteger?]
      exact ih heval
  | case3 operand place ih =>
      obtain ⟨n, hn, rfl⟩ := Option.map_eq_some_iff.mp heval
      rw [evalInteger?, ih hn]
      rfl
  | case4 left op right place a b hright hleft ihleft ihright =>
      simp only [evalInteger?, ihleft hleft, ihright hright]
      exact heval
  | case5 => cases heval
  | case6 n raw place =>
      rw [evalInteger?]
      exact heval
  | case7 => cases heval

/-- The width of a segment stays what it is when more names are bound. -/
theorem BitSegment.Measures.of_extends {segment : BitSegment} {spec : SegmentSpec}
    {b b' : Bindings} {isLast : Bool} {count : Nat} (h : Extends b b')
    (htype : spec.type = .integer) (hmeasures : segment.Measures spec b isLast count) :
    segment.Measures spec b' false count := by
  rcases hmeasures with ⟨hsize, hn, hword, hfits⟩ | ⟨hsize, htype, hfits⟩ | ⟨-, hother, -⟩ |
    ⟨-, hother, -⟩
  · exact .given hsize (evalInteger?_of_extends h hn) hword hfits
  · exact .integer hsize htype hfits
  · rw [htype] at hother
    cases hother
  · rw [htype] at hother
    rcases hother with hother | hother <;> cases hother

theorem Bindings.extends_append_singleton {b : Bindings} {name : String} {v : Value}
    (h : b.lookup name = none) : Extends b (b ++ [(name, v)]) := by
  intro key w hw
  have hother : key ≠ name := by
    rintro rfl
    rw [h] at hw
    cases hw
  rw [lookup_append_singleton h, if_neg hother, hw]

/-- Taking a segment only adds to the bindings. -/
theorem BitSegment.Takes.extends {segment : BitSegment} {isLast : Bool} {b b' : Bindings}
    {offset : Nat} {chunk : List Bool} (h : segment.Takes isLast b offset chunk b') :
    Extends b b' := by
  rcases h with _ | ⟨-, -, -, -, -, haccepts⟩
  · exact .refl b
  · rcases haccepts with _ | ⟨-, -, hfree⟩ | _ | _
    · exact .refl b
    · exact extends_append_singleton hfree
    · exact .refl b
    · exact .refl b

theorem Tiles.extends {segments : List BitSegment} {b b' : Bindings} {offset : Nat}
    {chunks : List (List Bool)} (h : Tiles segments b offset chunks b') : Extends b b' := by
  induction h with
  | nil => exact .refl _
  | cons htakes _ ih => exact htakes.extends.trans ih

/-- Only a segment whose value is a name, and not the wildcard, binds one. -/
theorem BitSegment.exists_of_segmentName? {segment : BitSegment} {name : String}
    (h : Pattern.segmentName? segment = some name) :
    ∃ place, segment.value = .identifier name place ∧ name ≠ "_" := by
  rw [Pattern.segmentName?] at h
  split at h
  · rename_i place hvalue
    rw [Option.ite_none_left_eq_some, Option.some.injEq] at h
    obtain ⟨hnamed, rfl⟩ := h
    exact ⟨place, hvalue, hnamed⟩
  · cases h

/-- A segment that gives a free name to an integer binds it, and the chunk is that of the
    integer. -/
theorem BitSegment.Takes.of_namesInteger {segment : BitSegment} {name : String}
    {spec : SegmentSpec} {isLast : Bool} {b b' : Bindings} {offset : Nat} {chunk : List Bool}
    (hnames : segment.NamesInteger name spec) (hfree : b.lookup name = none)
    (h : segment.Takes isLast b offset chunk b') :
    segment.Measures spec b isLast chunk.length ∧ ∃ k, b' = b ++ [(name, .integer k)] ∧
      spec.encode chunk.length k = chunk := by
  obtain ⟨place, hvalue, hnamed⟩ := exists_of_segmentName? hnames.name
  rcases h with ⟨hown⟩ | ⟨-, hspec, hmeasures, -, hdecode, haccepts⟩
  · simp [ownText?, hvalue] at hown
  -- The segment has no text of its own, so the chunk was decoded by its specifiers.
  · obtain rfl := Option.some.inj (hspec.symm.trans hnames.specifiers)
    have hwhole := SegmentSpec.whole_of_decode? hnames.type hdecode
    rw [SegmentSpec.decode?_integer hnames.type hwhole] at hdecode
    obtain rfl := Option.some.inj hdecode
    refine ⟨hmeasures, _, ?_, SegmentSpec.encode_integerOf hwhole⟩
    -- The name was free, so of the ways to accept a value only binding it is left.
    rcases haccepts with ⟨hother⟩ | ⟨hother, -, -⟩ | ⟨hother, -, hbound, -⟩ | ⟨hliteral, -⟩
    · rw [hvalue] at hother
      cases hother
      exact absurd rfl hnamed
    · rw [hvalue] at hother
      cases hother
      rfl
    · rw [hvalue] at hother
      cases hother
      rw [hfree] at hbound
      cases hbound
    · rw [hvalue] at hliteral
      cases hliteral

/-- Chunks can be had from what the names are bound to in the end. -/
theorem mapM_encode?_of_tiles {segments : List BitSegment} {b final : Bindings} {offset : Nat}
    {chunks : List (List Bool)} (h : Tiles segments b offset chunks final)
    (hsegments : ∀ segment ∈ segments, ∃ name spec, segment.NamesInteger name spec)
    (hnodup : (segments.filterMap Pattern.segmentName?).Nodup)
    (hfree : ∀ name ∈ segments.filterMap Pattern.segmentName?, b.lookup name = none) :
    segments.mapM (fun s : BitSegment => s.encode? final) = some chunks := by
  induction h with
  | nil => rfl
  | @cons segment segments b between final offset chunk chunks htakes htiles ih =>
      obtain ⟨⟨name, spec, hnames⟩, hothers⟩ := List.forall_mem_cons.mp hsegments
      rw [List.filterMap_cons_some hnames.name] at hnodup hfree
      obtain ⟨hfirst, hfrees⟩ := List.forall_mem_cons.mp hfree
      obtain ⟨hnew, hnodup⟩ := List.nodup_cons.mp hnodup
      have hextends := htakes.extends.trans htiles.extends
      obtain ⟨hmeasures, k, rfl, hchunk⟩ := htakes.of_namesInteger hnames hfirst
      -- The name of this segment is none of the others, so that these are still free.
      have hrest := ih hothers hnodup fun other hother => by
        have hne : other ≠ name := fun heq => hnew (heq ▸ hother)
        rw [lookup_append_singleton hfirst, if_neg hne, hfrees other hother]
      have hlookup : final.lookup name = some (.integer k) :=
        htiles.extends _ _ (by rw [lookup_append_singleton hfirst, if_pos rfl])
      have hcount : segment.bitCount? spec final false 0 = some chunk.length :=
        BitSegment.bitCount?_of_measures (hmeasures.of_extends hextends hnames.type) nofun
      have hencode : segment.encode? final = some chunk := by
        simp only [BitSegment.encode?, hnames.name, hnames.specifiers, hcount, hlookup, hchunk,
          Option.bind_eq_bind, Option.bind_some]
      rw [List.mapM_cons, hencode, hrest]
      rfl

/-- The bytes that were matched are those of what the names are bound to. -/
theorem encodeSegments?_of_match {segments : List BitSegment} {b bound : Bindings}
    {data : List UInt8} (h : bindSegments? segments b (Bits.ofBytes data) = some bound)
    (hsegments : ∀ segment ∈ segments, ∃ name spec, segment.NamesInteger name spec)
    (hnodup : (segments.filterMap Pattern.segmentName?).Nodup)
    (hfree : ∀ name ∈ segments.filterMap Pattern.segmentName?, b.lookup name = none) :
    encodeSegments? segments bound = some data := by
  obtain ⟨chunks, hchunks, htiles⟩ := bindSegments?_eq_some_iff.mp h
  rw [encodeSegments?, mapM_encode?_of_tiles htiles hsegments hnodup hfree, Option.map_some,
    hchunks, Bits.toBytes_ofBytes]

/-! ### All of it -/

/-- Bits of any number at any place of a byte string stand for the one integer in their range
    that has these bits, whether they are read as a list or byte by byte. Different bits stand
    for different integers, and every integer in the range has bits. What integers of different
    names are bound to gives back the bytes that were matched. -/
theorem integer_segments_exact :
    (∀ (spec : SegmentSpec) (n : Nat), spec.type = .integer →
      (spec.little = true → n % 8 = 0) →
      (∀ (data : List UInt8) (offset : Nat), offset + n ≤ 8 * data.length →
        ∃ k, spec.decode? (((Bits.ofBytes data).drop offset).take n) = some (.integer k) ∧
          spec.InRange n k ∧
          (∀ other, spec.InRange n other →
            (spec.encode n other = ((Bits.ofBytes data).drop offset).take n ↔ other = k)) ∧
          (8 * data.length < sizeLimit → ∃ raw,
            BitReader.read ⟨data, offset⟩ n = .ok (some (raw, ⟨data, offset + n⟩)) ∧
              spec.decodeBytes? n raw = some (.integer k))) ∧
      (∀ bits bits' : List Bool, bits.length = n → bits'.length = n →
        spec.decode? bits = spec.decode? bits' → bits = bits') ∧
      (∀ k, spec.InRange n k →
        (spec.encode n k).length = n ∧ spec.decode? (spec.encode n k) = some (.integer k))) ∧
    ∀ (segments : List BitSegment) (b bound : Bindings) (data : List UInt8),
      bindSegments? segments b (Bits.ofBytes data) = some bound →
      (∀ segment ∈ segments, ∃ name spec, segment.NamesInteger name spec) →
      (segments.filterMap Pattern.segmentName?).Nodup →
      (∀ name ∈ segments.filterMap Pattern.segmentName?, b.lookup name = none) →
      encodeSegments? segments bound = some data := by
  -- What bits stand for is a fact of the list of bits; the reader adds that it takes the same
  -- bits.
  refine ⟨fun spec n htype hlittle => ⟨fun data offset hleft => ?_, ?_, fun k hk => ?_⟩, ?_⟩
  · have hlength : (((Bits.ofBytes data).drop offset).take n).length = n := by
      rw [List.length_take, BitReader.length_left]
      omega
    have hread (hdata : 8 * data.length < sizeLimit) := BitReader.read_eq hdata hleft
    generalize ((Bits.ofBytes data).drop offset).take n = bits at hlength hread ⊢
    subst hlength
    refine ⟨spec.integerOf bits, SegmentSpec.decode?_integer htype hlittle,
      SegmentSpec.inRange_integerOf hlittle,
      fun other hother => SegmentSpec.encode_eq_iff hlittle hother,
      fun hdata => ⟨_, hread hdata, ?_⟩⟩
    rw [SegmentSpec.decodeBytes?_eq, SegmentSpec.decode?_integer htype hlittle]
  · rintro bits bits' rfl hlength heq
    exact SegmentSpec.eq_of_decode?_eq htype hlittle hlength heq
  · have hlength := SegmentSpec.length_encode hlittle k
    refine ⟨hlength, ?_⟩
    rw [SegmentSpec.decode?_integer htype (by rwa [hlength]),
      SegmentSpec.integerOf_encode hlittle hk]
  · intro segments b bound data hmatch hsegments hnodup hfree
    exact encodeSegments?_of_match hmatch hsegments hnodup hfree

/-- A name for an integer of a fixed size. -/
def integerSegment (name : String) (size : Int) (specifiers : List String) : BitSegment :=
  .mk (.identifier name default) (some (.number (.integer size) "" default)) false specifiers
    default

/-- A number of two bytes between two halves of a byte. -/
def halvesAndNumber : List BitSegment :=
  [integerSegment "high" 4 [], integerSegment "middle" 16 ["little", "signed"],
    integerSegment "low" 4 []]

/-- A negative number that begins in the middle of a byte, its low byte first. -/
theorem integer_segments_exact_unaligned :
    let data : List UInt8 := [0xAF, 0xEF, 0xFB]
    let spec : SegmentSpec := ⟨.integer, true, true, none⟩
    let bound : Bindings :=
      [("high", .integer 10), ("middle", .integer (-2)), ("low", .integer 11)]
    (∃ raw, BitReader.read ⟨data, 4⟩ 16 = .ok (some (raw, ⟨data, 20⟩)) ∧
      spec.decodeBytes? 16 raw = some (.integer (-2))) ∧
      bindSegments? halvesAndNumber [] (Bits.ofBytes data) = some bound ∧
      encodeSegments? halvesAndNumber bound = some data := by
  intro data spec bound
  obtain ⟨hexact, hencode⟩ := integer_segments_exact
  have hvalue : SegmentSpec.decode? ⟨.integer, true, true, none⟩
      (((Bits.ofBytes [0xAF, 0xEF, 0xFB]).drop 4).take 16) = some (.integer (-2)) := by rfl
  have hmatch : bindSegments? halvesAndNumber [] (Bits.ofBytes [0xAF, 0xEF, 0xFB]) =
      some [("high", .integer 10), ("middle", .integer (-2)), ("low", .integer 11)] := by rfl
  have hnames : halvesAndNumber.filterMap Pattern.segmentName? = ["high", "middle", "low"] := by
    rfl
  have hhalf (name : String) (h : Pattern.segmentName? (integerSegment name 4 []) = some name) :
      ∃ other spec, (integerSegment name 4 []).NamesInteger other spec :=
    ⟨name, .plain, h, rfl, rfl⟩
  refine ⟨?_, hmatch, hencode _ [] bound data hmatch ?_ (by rw [hnames]; decide) fun _ _ => rfl⟩
  -- The general theorem gives some integer, and decoding says which.
  · obtain ⟨k, hdecode, -, -, hread⟩ := (hexact spec 16 rfl fun _ => rfl).1 data 4 (by decide)
    obtain rfl : k = -2 := Value.integer.inj (Option.some.inj (hdecode.symm.trans hvalue))
    exact hread (by decide)
  · simp only [halvesAndNumber, List.forall_mem_cons]
    exact ⟨hhalf _ rfl, ⟨"middle", spec, rfl, rfl, rfl⟩, hhalf _ rfl,
      fun _ hnone => absurd hnone List.not_mem_nil⟩

end PolyScript
