import PolyScript.Json.Basic
import PolyScript.Value.Basic

/-!
# Values and Documents

## Main definitions

* `Value.ofJson`: The value of a document.
* `Value.toJson`: The document of a value.
-/

namespace PolyScript

namespace Value

mutual

/-- The value of a document. -/
def ofJson : Json → Value
  | .null => nil
  | .bool b => boolean b
  | .int n => integer n
  | .float d => float d
  | .string s => string s
  | .array items => array (itemsOfJson items)
  | .object members => object (membersOfJson members)

/-- The values of several documents. -/
def itemsOfJson : List Json → List Value
  | [] => []
  | j :: rest => ofJson j :: itemsOfJson rest

/-- The values of the members of an object. -/
def membersOfJson : List (String × Json) → List (String × Value)
  | [] => []
  | (key, j) :: rest => (key, ofJson j) :: membersOfJson rest

end

mutual

/-- The document of a value. An integer beyond sixty-four signed bits is given by
    its digits, a number that is not finite by null, and bytes one by one. -/
def toJson : Value → Json
  | nil => .null
  | boolean b => .bool b
  | integer n => if -(2 ^ 63) ≤ n ∧ n < 2 ^ 63 then .int n else .string (toString n)
  | float d => if d.isFinite then .float d else .null
  | string s => .string s
  | bytes bs => .array (bs.map fun b => .int b.toNat)
  | array items => .array (itemsToJson items)
  | object members => Json.ofMembers (membersToJson members)

/-- The documents of several values. -/
def itemsToJson : List Value → List Json
  | [] => []
  | v :: rest => toJson v :: itemsToJson rest

/-- The documents of the members of an object. -/
def membersToJson : List (String × Value) → List (String × Json)
  | [] => []
  | (key, v) :: rest => (key, toJson v) :: membersToJson rest

end

end Value

end PolyScript
