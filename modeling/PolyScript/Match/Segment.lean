import PolyScript.Match.Bits
import PolyScript.Text.Word
import PolyScript.Value.Basic

/-!
# Segments

What one segment of a bit string pattern says about the bits it takes: their
type, byte order, signedness and number, and the value they stand for.

## Main definitions

* `Bindings`: Names with their values.
* `SegmentSpec`: The specifiers of a segment, understood.
* `SegmentSpec.decode?`: The value of some bits.
* `evalInteger?`: The value of a size expression.
-/

namespace PolyScript

/-- Names with their values; each name stands once. -/
abbrev Bindings := List (String × Value)

/-- What the bits of a segment stand for. -/
inductive SegmentType where
  | integer
  | float
  /-- Whole bytes. -/
  | binary
  /-- Any number of bits. -/
  | bits
  deriving DecidableEq, Repr, Inhabited

/-- The specifiers of a segment, understood. -/
structure SegmentSpec where
  type : SegmentType
  little : Bool
  signed : Bool
  /-- How many bits one unit of size is, if that is said. -/
  unit? : Option Nat
  deriving DecidableEq, Repr

namespace SegmentSpec

/-- A segment without specifiers: an unsigned integer, the first byte highest. -/
def plain : SegmentSpec := ⟨.integer, false, false, none⟩

/-- Adds one specifier to those before it. -/
def add? (spec : SegmentSpec) (specifier : String) : Option SegmentSpec :=
  match BitSegment.splitSpecifier specifier with
  | some (name, param) =>
    if name = "unit" then
      match Text.word? param with
      | some n => some { spec with unit? := some n }
      | none => none
    else none
  | none =>
    match specifier with
    | "integer" => some { spec with type := .integer }
    | "float" => some { spec with type := .float }
    | "binary" | "bytes" => some { spec with type := .binary }
    | "bits" | "bitstring" => some { spec with type := .bits }
    | "big" => some { spec with little := false }
    | "little" => some { spec with little := true }
    | "signed" => some { spec with signed := true }
    | "unsigned" => some { spec with signed := false }
    | _ => none

/-- The specification that specifiers make up, if all of them are understood. -/
def ofSpecifiers? (specifiers : List String) : Option SegmentSpec :=
  specifiers.foldlM add? plain

/-- How many bits one unit of size is. -/
def unit (spec : SegmentSpec) : Nat := spec.unit?.getD (if spec.type = .binary then 8 else 1)

/-- The size of a segment that gives none. Bytes and bits then take all that is
    left. -/
def defaultSize? (spec : SegmentSpec) : Option Nat :=
  match spec.type with
  | .integer => some 8
  | .float => some 64
  | .binary | .bits => none

/-- The value that some bits stand for. -/
def decode? (spec : SegmentSpec) (bits : List Bool) : Option Value :=
  let ordered := if spec.little then Bits.ofBytes (Bits.toBytes bits).reverse else bits
  match spec.type with
  | .binary | .bits => some (.bytes (Bits.toBytes bits))
  | .integer =>
    if spec.little && bits.length % 8 ≠ 0 then none
    else if spec.signed then some (.integer (Bits.toInt ordered))
    else some (.integer (Bits.toNat ordered))
  | .float =>
    if bits.length = 32 then some (.float (Double.ofSingle (Bits.toNat ordered)))
    else if bits.length = 64 then some (.float (Double.ofBits (Bits.toNat ordered)))
    else none

end SegmentSpec

/-- The result of an operator in a size expression. Division goes toward zero. -/
def applyOperator? (op : BinaryOp) (a b : Int) : Option Int :=
  match op with
  | .add => some (a + b)
  | .subtract => some (a - b)
  | .multiply => some (a * b)
  | .divide => if b = 0 then none else some (a.tdiv b)
  | .modulo => if b = 0 then none else some (a.tmod b)
  | _ => none

/-- The value of a size expression, in which names stand for what they are bound
    to. -/
def evalInteger? (bindings : Bindings) : Expr → Option Int
  | .identifier name _ => (bindings.lookup name).bind Value.asInteger?
  | .grouped inner _ => evalInteger? bindings inner
  | .unary .negate operand _ => (evalInteger? bindings operand).map (- ·)
  | .binary left op right _ =>
    match evalInteger? bindings left, evalInteger? bindings right with
    | some a, some b => applyOperator? op a b
    | _, _ => none
  | .number (.integer n) _ _ => some n
  | _ => none

/-- The value of a size expression as a size. -/
def evalSize? (bindings : Bindings) (e : Expr) : Option Nat :=
  match evalInteger? bindings e with
  | some n => if 0 ≤ n ∧ n < sizeLimit then some n.toNat else none
  | none => none

end PolyScript
