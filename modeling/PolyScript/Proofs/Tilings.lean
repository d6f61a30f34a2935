import PolyScript.Match.Basic

/-!
# Tilings by Bit String Patterns

A bit string pattern describes how bits may be cut into chunks, one for each segment. The
description looks at one chunk at a time: where it begins, how long it is and what it stands
for. It takes no notice of how the bits are gone through.

Matching finds the cut from the front. Nothing is lost by that, because a segment has only one
length to choose, apart from a last one that takes what is left. This one is settled by there
being nothing behind it. The place of a chunk is counted from the front in the description and
from the end in the matching, which is the same for the boundaries of bytes, since all bits
together are whole bytes.

## Main definitions

* `BitSegment.Measures`: How many bits a segment may take.
* `BitSegment.Accepts`: A segment takes a value and leaves bindings.
* `BitSegment.Takes`: A segment takes a chunk at a place and leaves bindings.
* `Tiles`: Chunks for segments, one behind the other.

## Theorems

* `BitSegment.bitCount?_of_measures`, `BitSegment.measures_of_bitCount?`: Lengths.
* `BitSegment.bindValue?_of_accepts`, `BitSegment.accepts_of_bindValue?`: Values.
* `BitSegment.take?_of_takes`, `BitSegment.takes_of_take?`: One segment.
* `bindSegments?_eq_some_iff`: A match is a tiling.
-/

namespace PolyScript

namespace BitSegment

/-- How many bits a segment may take, its size being counted in units. Sizes and numbers of
    bits are words. -/
inductive Measures (segment : BitSegment) (spec : SegmentSpec) (bindings : Bindings)
    (isLast : Bool) : Nat → Prop
  | given {e : Expr} {size : Nat} : segment.size = some e →
    evalInteger? bindings e = some (size : Int) → size < sizeLimit →
    size * spec.unit < sizeLimit → Measures segment spec bindings isLast (size * spec.unit)
  | integer : segment.size = none → spec.type = .integer → 8 * spec.unit < sizeLimit →
    Measures segment spec bindings isLast (8 * spec.unit)
  | float : segment.size = none → spec.type = .float → 64 * spec.unit < sizeLimit →
    Measures segment spec bindings isLast (64 * spec.unit)
  /-- What is left, which may be anything. -/
  | remaining {count : Nat} : segment.size = none → spec.type = .binary ∨ spec.type = .bits →
    isLast = true → Measures segment spec bindings isLast count

/-- A segment takes a value: its name is `_`, or is bound to the value, or is bound to an equal
    one already, or it is a literal that the value equals. -/
inductive Accepts (segment : BitSegment) (bindings : Bindings) (value : Value) : Bindings → Prop
  | ignored {place : Position} : segment.value = .identifier "_" place →
    Accepts segment bindings value bindings
  | bound {name : String} {place : Position} : segment.value = .identifier name place →
    name ≠ "_" → bindings.lookup name = none →
    Accepts segment bindings value (bindings ++ [(name, value)])
  | compared {name : String} {place : Position} {existing : Value} :
    segment.value = .identifier name place → name ≠ "_" →
    bindings.lookup name = some existing → existing.looseEq value = true →
    Accepts segment bindings value bindings
  | literal {expected : Value} : Value.ofLiteral? segment.value = some expected →
    expected.looseEq value = true → Accepts segment bindings value bindings

/-- A segment takes a chunk that begins at a place. -/
inductive Takes (segment : BitSegment) (isLast : Bool) (bindings : Bindings) (offset : Nat) :
    List Bool → Bindings → Prop
  /-- A text without a size takes its own bytes. -/
  | own {text : String} : segment.ownText? = some text →
    Takes segment isLast bindings offset (Bits.ofBytes (utf8Bytes text)) bindings
  | decoded {spec : SegmentSpec} {chunk : List Bool} {value : Value} {bound : Bindings} :
    segment.ownText? = none → SegmentSpec.ofSpecifiers? segment.specifiers = some spec →
    segment.Measures spec bindings isLast chunk.length →
    (spec.type = .binary → offset % 8 = 0 ∧ (offset + chunk.length) % 8 = 0) →
    spec.decode? chunk = some value → segment.Accepts bindings value bound →
    Takes segment isLast bindings offset chunk bound

variable {segment : BitSegment} {spec : SegmentSpec} {bindings bound : Bindings}
  {isLast : Bool} {count left offset : Nat} {value : Value} {chunk bits rest : List Bool}

/-! ### Lengths -/

/-- A size is evaluated to a number of units exactly if it is that integer and fits a word. -/
theorem evalSize?_eq_some_iff {e : Expr} {n : Nat} : evalSize? bindings e = some n ↔
    evalInteger? bindings e = some (n : Int) ∧ n < sizeLimit := by
  rw [evalSize?]
  cases evalInteger? bindings e with
  | none => simp
  | some k =>
      constructor
      · intro h
        dsimp only at h
        split at h
        · rename_i hk
          obtain rfl := Option.some.inj h
          exact ⟨by rw [Int.toNat_of_nonneg hk.1], by omega⟩
        · cases h
      · rintro ⟨h, hn⟩
        obtain rfl := Option.some.inj h
        simp [hn]

/-- The number of bits that the reader computes for a segment is one that measures it. -/
theorem measures_of_bitCount? (h : segment.bitCount? spec bindings isLast left = some count) :
    segment.Measures spec bindings isLast count := by
  rw [bitCount?] at h
  cases hsize : segment.size with
  | some e =>
      rw [hsize] at h
      cases heval : evalSize? bindings e with
      | none => simp [heval] at h
      | some n =>
          obtain ⟨hn, hword⟩ := evalSize?_eq_some_iff.mp heval
          simp only [heval, Option.ite_none_right_eq_some, Option.some.injEq] at h
          obtain ⟨hfits, rfl⟩ := h
          exact .given hsize hn hword hfits
  | none =>
      rw [hsize] at h
      -- Without a size it is the type that says how much is taken.
      cases htype : spec.type
      all_goals simp [SegmentSpec.defaultSize?, htype] at h
      · obtain ⟨hfits, rfl⟩ := h
        exact .integer hsize htype hfits
      · obtain ⟨hfits, rfl⟩ := h
        exact .float hsize htype hfits
      · exact .remaining hsize (.inl htype) h.1
      · exact .remaining hsize (.inr htype) h.1

/-- The reader computes the number of bits that measures a segment. For the last one that may be
    all that is left. -/
theorem bitCount?_of_measures (h : segment.Measures spec bindings isLast count)
    (hlast : isLast = true → left = count) :
    segment.bitCount? spec bindings isLast left = some count := by
  rw [bitCount?]
  rcases h with ⟨hsize, hn, hword, hfits⟩ | ⟨hsize, htype, hfits⟩ | ⟨hsize, htype, hfits⟩ |
    ⟨hsize, htype, rfl⟩
  · simp [hsize, evalSize?_eq_some_iff.mpr ⟨hn, hword⟩, hfits]
  · simp [hsize, SegmentSpec.defaultSize?, htype, hfits]
  · simp [hsize, SegmentSpec.defaultSize?, htype, hfits]
  · rcases htype with htype | htype <;>
      simp [hsize, SegmentSpec.defaultSize?, htype, hlast rfl]

/-! ### Values -/

theorem bindValue?_identifier {name : String} {place : Position}
    (h : segment.value = .identifier name place) : segment.bindValue? bindings value =
      if name = "_" then some bindings else bindName? bindings name value := by
  rw [bindValue?, h]

theorem bindValue?_literal {expected : Value}
    (h : Value.ofLiteral? segment.value = some expected) : segment.bindValue? bindings value =
      if expected.looseEq value then some bindings else none := by
  rw [bindValue?]
  split
  · rename_i hname
    rw [hname] at h
    cases h
  · rw [h]

/-- What the reader binds for a segment and a value is accepted by the segment. -/
theorem accepts_of_bindValue? (h : segment.bindValue? bindings value = some bound) :
    segment.Accepts bindings value bound := by
  rw [bindValue?] at h
  split at h
  · rename_i name place hname
    split at h
    · rename_i hignored
      cases h
      exact .ignored (hignored ▸ hname)
    · rename_i hnamed
      rw [bindName?] at h
      split at h
      · rename_i existing hlookup
        rw [Option.ite_none_right_eq_some] at h
        obtain ⟨hequal, rfl⟩ : _ ∧ bindings = bound := by simpa using h
        exact .compared hname hnamed hlookup hequal
      · rename_i hlookup
        cases h
        exact .bound hname hnamed hlookup
  · split at h
    · rename_i expected hexpected
      obtain ⟨hequal, rfl⟩ : _ ∧ bindings = bound := by simpa using h
      exact .literal hexpected hequal
    · cases h

theorem bindValue?_of_accepts (h : segment.Accepts bindings value bound) :
    segment.bindValue? bindings value = some bound := by
  rcases h with ⟨hname⟩ | ⟨hname, hnamed, hlookup⟩ | ⟨hname, hnamed, hlookup, hequal⟩ |
    ⟨hexpected, hequal⟩
  · rw [bindValue?_identifier hname, if_pos rfl]
  · rw [bindValue?_identifier hname, if_neg hnamed, bindName?, hlookup]
  · rw [bindValue?_identifier hname, if_neg hnamed, bindName?, hlookup]
    exact if_pos hequal
  · rw [bindValue?_literal hexpected, if_pos hequal]

/-! ### One segment -/

/-- The boundaries of bytes are the same counted from the front and from the end. -/
theorem mod_eight_iff {offset left : Nat} (h : (offset + left) % 8 = 0) :
    offset % 8 = 0 ↔ left % 8 = 0 := by omega

/-- If a segment takes a chunk at the start of some bits then the reader takes this chunk and
    leaves the rest. How many bits there are says where the reader is, as they end on a whole
    byte. -/
theorem take?_of_takes (h : segment.Takes isLast bindings offset chunk bound)
    (hlast : isLast = true → rest = []) (hbytes : (offset + (chunk ++ rest).length) % 8 = 0) :
    segment.take? isLast bindings (chunk ++ rest) = some (bound, rest) := by
  rcases h with ⟨hown⟩ | ⟨hown, hspec, hmeasures, hbinary, hvalue, haccepts⟩
  · simp [take?, hown]
  · have hall : isLast = true → (chunk ++ rest).length = chunk.length :=
      fun h => by rw [hlast h, List.append_nil]
    have hcount := bitCount?_of_measures hmeasures hall
    rename_i spec value
    -- A binary begins and ends between two bytes, so what is left is whole bytes too.
    have hwhole : ¬ (spec.type = .binary ∧
        (chunk.length % 8 ≠ 0 ∨ (chunk ++ rest).length % 8 ≠ 0)) := by
      rintro ⟨htype, hmod⟩
      obtain ⟨hbegin, hend⟩ := hbinary htype
      have hleft := (mod_eight_iff hbytes).mp hbegin
      omega
    have henough : ¬ (chunk ++ rest).length < chunk.length := by
      rw [List.length_append]
      omega
    simp only [take?, hown, hspec, hcount, List.take_left, List.drop_left, hvalue,
      bindValue?_of_accepts haccepts, Option.map_some, if_neg henough]
    rw [if_neg (by simpa using hwhole)]

/-- If the reader takes bits for a segment then these are a chunk that the segment takes at its
    place. -/
theorem takes_of_take? (h : segment.take? isLast bindings bits = some (bound, rest))
    (hbytes : (offset + bits.length) % 8 = 0) :
    ∃ chunk, chunk ++ rest = bits ∧ segment.Takes isLast bindings offset chunk bound := by
  rw [take?] at h
  split at h
  -- The chunk is the text's own bits, or what is cut off by the specifiers, if all checks go
  -- through.
  · rename_i text hown
    simp only [Option.ite_none_right_eq_some, Option.some.injEq, Prod.mk.injEq] at h
    obtain ⟨hfront, rfl, rfl⟩ := h
    have hcut := List.take_append_drop (Bits.ofBytes (utf8Bytes text)).length bits
    rw [hfront] at hcut
    exact ⟨_, hcut, .own hown⟩
  · rename_i hown
    split at h
    · cases h
    rename_i spec hspec
    split at h
    · cases h
    rename_i count hcount
    split at h
    · cases h
    rename_i hwhole
    split at h
    · cases h
    rename_i henough
    split at h
    · cases h
    rename_i value hvalue
    obtain ⟨after, haccepts, hafter⟩ := Option.map_eq_some_iff.mp h
    obtain ⟨rfl, rfl⟩ := Prod.mk.inj hafter
    have hlength : (bits.take count).length = count := by
      rw [List.length_take]
      omega
    refine ⟨bits.take count, List.take_append_drop _ _, .decoded hown hspec ?_ ?_ hvalue
      (accepts_of_bindValue? haccepts)⟩
    · rw [hlength]
      exact measures_of_bitCount? hcount
    -- Bytes that are taken begin where a byte begins, so what is left decides where the chunk
    -- does.
    · intro htype
      simp only [htype, decide_true, Bool.true_and, Bool.or_eq_true, decide_eq_true_eq, ne_eq,
        not_or, Decidable.not_not] at hwhole
      have hbegin := (mod_eight_iff hbytes).mpr hwhole.2
      omega

end BitSegment

/-- Chunks for segments, one behind the other from a place on. -/
inductive Tiles : List BitSegment → Bindings → Nat → List (List Bool) → Bindings → Prop
  | nil {bindings : Bindings} {offset : Nat} : Tiles [] bindings offset [] bindings
  | cons {segment : BitSegment} {segments : List BitSegment} {bindings between bound : Bindings}
    {offset : Nat} {chunk : List Bool} {chunks : List (List Bool)} :
    segment.Takes segments.isEmpty bindings offset chunk between →
    Tiles segments between (offset + chunk.length) chunks bound →
    Tiles (segment :: segments) bindings offset (chunk :: chunks) bound

/-- A tiling of the bits is what the reader finds, segment by segment. -/
theorem bindSegments?_of_tiles {segments : List BitSegment} {bindings bound : Bindings}
    {offset : Nat} {chunks : List (List Bool)} (h : Tiles segments bindings offset chunks bound)
    (hbytes : (offset + chunks.flatten.length) % 8 = 0) :
    bindSegments? segments bindings chunks.flatten = some bound := by
  induction h with
  | nil => rfl
  | @cons segment segments bindings between bound offset chunk chunks htakes htiles ih =>
      rw [List.flatten_cons] at hbytes ⊢
      have hlast : segments.isEmpty = true → chunks.flatten = [] := by
        intro hempty
        rw [List.isEmpty_iff.mp hempty] at htiles
        cases htiles
        rfl
      rw [bindSegments?, BitSegment.take?_of_takes htakes hlast hbytes]
      exact ih (by rw [Nat.add_assoc, ← List.length_append]; exact hbytes)

/-- What the reader finds is a tiling of the bits. By induction on the segments, each of which
    begins where the one before it ends. -/
theorem tiles_of_bindSegments? {segments : List BitSegment} {bindings bound : Bindings}
    {bits : List Bool} {offset : Nat} (h : bindSegments? segments bindings bits = some bound)
    (hbytes : (offset + bits.length) % 8 = 0) :
    ∃ chunks, chunks.flatten = bits ∧ Tiles segments bindings offset chunks bound := by
  induction segments generalizing bindings bits offset with
  | nil =>
      rw [bindSegments?, Option.ite_none_right_eq_some, List.isEmpty_iff] at h
      obtain ⟨rfl, rfl⟩ : bits = [] ∧ bindings = bound := by simpa using h
      exact ⟨[], rfl, .nil⟩
  | cons segment segments ih =>
      rw [bindSegments?] at h
      split at h
      · rename_i between rest htake
        obtain ⟨chunk, rfl, htakes⟩ := BitSegment.takes_of_take? htake hbytes
        rw [List.length_append, ← Nat.add_assoc] at hbytes
        obtain ⟨chunks, rfl, htiles⟩ := ih h hbytes
        exact ⟨chunk :: chunks, rfl, .cons htakes htiles⟩
      · cases h

/-- A match of a byte string is a tiling of its bits. -/
theorem bindSegments?_eq_some_iff {segments : List BitSegment} {bindings bound : Bindings}
    {data : List UInt8} : bindSegments? segments bindings (Bits.ofBytes data) = some bound ↔
      ∃ chunks, chunks.flatten = Bits.ofBytes data ∧ Tiles segments bindings 0 chunks bound := by
  have hbytes : (0 + (Bits.ofBytes data).length) % 8 = 0 := by
    rw [Bits.length_ofBytes]
    omega
  constructor
  · intro h
    exact tiles_of_bindSegments? h hbytes
  · rintro ⟨chunks, hchunks, htiles⟩
    rw [← hchunks] at hbytes ⊢
    exact bindSegments?_of_tiles htiles hbytes

end PolyScript
