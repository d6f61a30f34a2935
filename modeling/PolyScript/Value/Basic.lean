import PolyScript.Double.Words
import PolyScript.Tree.Expr

/-!
# Values

The runtime values that patterns are matched against, and two notions of
equality on them. Strict equality tells integers from floating point numbers;
loose equality compares the two by what they denote, at any depth.

An object lists its members; each key stands once, and the order of the members
does not matter.

## Main definitions

* `Value`: A runtime value.
* `Value.looseEq`, `Value.strictEq`: Equality.
* `Value.ofLiteral?`: The value of a literal expression.
-/

namespace PolyScript

/-- A runtime value. -/
inductive Value where
  | nil
  | boolean (value : Bool)
  | integer (value : Int)
  | float (value : Double)
  | string (value : String)
  | bytes (value : List UInt8)
  | array (items : List Value)
  | object (members : List (String × Value))
  deriving Inhabited

namespace Value

/-- The name of the type of a value. -/
def typeName : Value → String
  | nil => "nil"
  | boolean _ => "boolean"
  | integer _ => "integer"
  | float _ => "float"
  | string _ => "string"
  | bytes _ => "bytes"
  | array _ => "array"
  | object _ => "object"

/-- Whether a value counts as true. Only nil and false do not. -/
def isTruthy : Value → Bool
  | nil | boolean false => false
  | _ => true

/-- A number as a floating point number. -/
def asFloat? : Value → Option Double
  | integer n => some (Double.ofWords n)
  | float d => some d
  | _ => none

/-- An integer. -/
def asInteger? : Value → Option Int
  | integer n => some n
  | _ => none

mutual

/-- Equality of values. If it is loose, an integer equals a floating point number
    that denotes it. -/
def eqWith (loose : Bool) : Value → Value → Bool
  | nil, nil => true
  | boolean a, boolean b => a = b
  | integer a, integer b => a = b
  | float a, float b => a.eq b
  | integer a, float b => loose && b.toInt? = some a
  | float a, integer b => loose && a.toInt? = some b
  | string a, string b => a = b
  | bytes a, bytes b => a = b
  | array a, array b => itemsEqWith loose a b
  | object a, object b => a.length = b.length && membersIn loose b a
  | _, _ => false

/-- Equality of lists of values. -/
def itemsEqWith (loose : Bool) : List Value → List Value → Bool
  | [], [] => true
  | a :: as, b :: bs => eqWith loose a b && itemsEqWith loose as bs
  | _, _ => false

/-- Whether each member has an equal one under the same key in `b`. -/
def membersIn (loose : Bool) (b : List (String × Value)) : List (String × Value) → Bool
  | [] => true
  | (key, v) :: rest =>
    (match b.lookup key with
      | some w => eqWith loose v w
      | none => false) && membersIn loose b rest

end

/-- Equality that compares numbers by what they denote. -/
def looseEq (a b : Value) : Bool := eqWith true a b

/-- Equality that tells integers from floating point numbers. -/
def strictEq (a b : Value) : Bool := eqWith false a b

/-- The value of a number literal. -/
def ofNumber : Number → Value
  | .integer n => integer n
  | .float d => float d

/-- The value of a literal. A sign and parentheses may stand around a number. -/
def ofLiteral? : Expr → Option Value
  | .number n _ _ => some (ofNumber n)
  | .string s _ _ => some (string s)
  | .boolean b _ => some (boolean b)
  | .nil _ => some nil
  | .unary .negate operand _ =>
    match ofLiteral? operand with
    | some (integer n) => some (integer (-n))
    | some (float d) => some (float d.neg)
    | _ => none
  | .grouped inner _ => ofLiteral? inner
  | _ => none

end Value

end PolyScript
