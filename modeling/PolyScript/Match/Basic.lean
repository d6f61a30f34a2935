import PolyScript.Match.Segment
import PolyScript.Tree.Statement

/-!
# Matching

Whether a value fits a pattern, and what the names of the pattern then stand
for. A name that occurs twice has to stand for loosely equal values.

A bit string pattern cuts the bits of its input into chunks, one after the
other, each segment taking as many as it says; the sizes of later segments may
depend on names bound by earlier ones. In the end no bit may be left.

## Main definitions

* `Pattern.bind?`: Matches a pattern and extends bindings.
* `Pattern.match?`: Matches a pattern.
* `selectArm?`: The first arm that matches.
-/

namespace PolyScript

/-- Binds a name, or compares with what it is bound to. -/
def bindName? (bindings : Bindings) (name : String) (value : Value) : Option Bindings :=
  match bindings.lookup name with
  | some existing => if existing.looseEq value then some bindings else none
  | none => some (bindings ++ [(name, value)])

/-- The bytes of a text. -/
def utf8Bytes (s : String) : List UInt8 := s.toUTF8.toList

/-- A text that stands in a bit string pattern without a size, which takes its own
    bytes. -/
def BitSegment.ownText? (segment : BitSegment) : Option String :=
  match segment.value, segment.size with
  | .string s _ _, none => some s
  | _, _ => none

/-- How many bits a segment takes of those that are left. The size is counted in
    units. -/
def BitSegment.bitCount? (segment : BitSegment) (spec : SegmentSpec) (bindings : Bindings)
    (isLast : Bool) (left : Nat) : Option Nat :=
  let size? : Option Nat :=
    match segment.size with
    | some e => evalSize? bindings e
    | none => spec.defaultSize?
  match size?, segment.size with
  | some n, _ => if n * spec.unit < sizeLimit then some (n * spec.unit) else none
  | none, none => if isLast then some left else none
  | none, some _ => none

/-- Matches the value of a segment against what its bits stand for. -/
def BitSegment.bindValue? (segment : BitSegment) (bindings : Bindings) (value : Value) :
    Option Bindings :=
  match segment.value with
  | .identifier name _ => if name = "_" then some bindings else bindName? bindings name value
  | literal =>
    match Value.ofLiteral? literal with
    | some expected => if expected.looseEq value then some bindings else none
    | none => none

/-- Matches one segment against the front of the bits that are left, and gives the
    bits after it. Whole bytes have to begin at a byte. -/
def BitSegment.take? (segment : BitSegment) (isLast : Bool) (bindings : Bindings)
    (bits : List Bool) : Option (Bindings × List Bool) :=
  match segment.ownText? with
  | some s =>
    let own := Bits.ofBytes (utf8Bytes s)
    if bits.take own.length = own then some (bindings, bits.drop own.length) else none
  | none =>
    match SegmentSpec.ofSpecifiers? segment.specifiers with
    | none => none
    | some spec =>
      match segment.bitCount? spec bindings isLast bits.length with
      | none => none
      | some count =>
        if spec.type = .binary && (count % 8 ≠ 0 || bits.length % 8 ≠ 0) then none
        else if bits.length < count then none
        else
          match spec.decode? (bits.take count) with
          | none => none
          | some value =>
            (segment.bindValue? bindings value).map fun bound => (bound, bits.drop count)

/-- Matches segments against bits, all of which have to be taken. -/
def bindSegments? : List BitSegment → Bindings → List Bool → Option Bindings
  | [], bindings, bits => if bits.isEmpty then some bindings else none
  | segment :: rest, bindings, bits =>
    match segment.take? rest.isEmpty bindings bits with
    | some (bindings, bits) => bindSegments? rest bindings bits
    | none => none

/-- The bytes that a bit string pattern can be matched against. -/
def Value.toBytes? : Value → Option (List UInt8)
  | .bytes bs => some bs
  | .string s => some (utf8Bytes s)
  | _ => none

namespace Pattern

mutual

/-- Matches a pattern against a value, given what names are bound to already. -/
def bind? : Pattern → Value → Bindings → Option Bindings
  | .wildcard _, _, bindings => some bindings
  | .capture name _, v, bindings => bindName? bindings name v
  | .literal e _, v, bindings =>
    match Value.ofLiteral? e with
    | some expected => if expected.looseEq v then some bindings else none
    | none => none
  | .array elements rest _, .array items, bindings => bindElements? elements rest items bindings
  | .object fields _, .object members, bindings => bindFields? fields members bindings
  | .bitstring segments _, v, bindings =>
    match v.toBytes? with
    | some bytes => bindSegments? segments bindings (Bits.ofBytes bytes)
    | none => none
  | _, _, _ => none

/-- Matches elements against items, one by one. A rest name takes the items that
    are left; without one, none may be left. -/
def bindElements? :
    List Pattern → Option String → List Value → Bindings → Option Bindings
  | [], some name, items, bindings => bindName? bindings name (.array items)
  | [], none, [], bindings => some bindings
  | [], none, _ :: _, _ => none
  | _ :: _, _, [], _ => none
  | p :: ps, rest, v :: vs, bindings =>
    match bind? p v bindings with
    | some bindings => bindElements? ps rest vs bindings
    | none => none

/-- Matches fields against the members of an object. -/
def bindFields? : List PatternField → List (String × Value) → Bindings → Option Bindings
  | [], _, bindings => some bindings
  | .mk key p :: rest, members, bindings =>
    match members.lookup key with
    | none => none
    | some v =>
      match bind? p v bindings with
      | some bindings => bindFields? rest members bindings
      | none => none

end

/-- Matches a pattern against a value. -/
def match? (p : Pattern) (v : Value) : Option Bindings := p.bind? v []

end Pattern

/-- An arm that matches: its index, the arm itself and what its names stand for. -/
structure Selection where
  index : Nat
  arm : MatchArm
  bindings : Bindings

/-- The first arm that matches, the given one having the given index. -/
def selectFrom? (v : Value) : Nat → List MatchArm → Option Selection
  | _, [] => none
  | i, arm :: rest =>
    match arm.pattern.match? v with
    | some bindings => some ⟨i, arm, bindings⟩
    | none => selectFrom? v (i + 1) rest

/-- The first of several arms that matches a value. -/
def selectArm? (arms : List MatchArm) (v : Value) : Option Selection := selectFrom? v 0 arms

end PolyScript
