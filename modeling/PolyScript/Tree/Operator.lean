import PolyScript.Token.Kind

/-!
# Operators

The binary and prefix operators, the symbols that stand for them, and how
tightly the binary ones bind. Every binary operator groups to the left.

## Main definitions

* `BinaryOp`, `UnaryOp`: The operators.
* `BinaryOp.precedence`: Binding strength from one, loosest, to seven.

## Theorems

* `BinaryOp.precedence_pos`, `BinaryOp.precedence_le`: The range of precedences.
-/

namespace PolyScript

/-- The binary operators. -/
inductive BinaryOp where
  | or
  | and
  | equal
  | notEqual
  | lessThan
  | greaterThan
  | lessEqual
  | greaterEqual
  | add
  | subtract
  | multiply
  | divide
  | modulo
  /-- Joining two texts. -/
  | concat
  deriving DecidableEq, Repr, Inhabited

namespace BinaryOp

/-- The operator that a token of the kind stands for. -/
def ofKind? : Kind → Option BinaryOp
  | .orOr => some or
  | .andAnd => some and
  | .eqEq => some equal
  | .notEq => some notEqual
  | .lt => some lessThan
  | .gt => some greaterThan
  | .ltEq => some lessEqual
  | .gtEq => some greaterEqual
  | .plus => some add
  | .minus => some subtract
  | .star => some multiply
  | .slash => some divide
  | .percent => some modulo
  | .concat => some concat
  | _ => none

/-- How tightly the operator binds. -/
def precedence : BinaryOp → Nat
  | or => 1
  | and => 2
  | equal | notEqual => 3
  | lessThan | greaterThan | lessEqual | greaterEqual => 4
  | add | subtract => 5
  | multiply | divide | modulo => 6
  | concat => 7

/-- The spelling of the operator in a source text. -/
def symbol : BinaryOp → String
  | or => "||"
  | and => "&&"
  | equal => "=="
  | notEqual => "!="
  | lessThan => "<"
  | greaterThan => ">"
  | lessEqual => "<="
  | greaterEqual => ">="
  | add => "+"
  | subtract => "-"
  | multiply => "*"
  | divide => "/"
  | modulo => "%"
  | concat => ".."

/-- The name of the operator in a printed tree. -/
def name : BinaryOp → String
  | or => "or"
  | and => "and"
  | equal => "equal"
  | notEqual => "not_equal"
  | lessThan => "less_than"
  | greaterThan => "greater_than"
  | lessEqual => "less_equal"
  | greaterEqual => "greater_equal"
  | add => "add"
  | subtract => "subtract"
  | multiply => "multiply"
  | divide => "divide"
  | modulo => "modulo"
  | concat => "concat"

theorem precedence_pos (op : BinaryOp) : 1 ≤ op.precedence := by
  cases op <;> decide

theorem precedence_le (op : BinaryOp) : op.precedence ≤ 7 := by
  cases op <;> decide

end BinaryOp

/-- The prefix operators. -/
inductive UnaryOp where
  | plus
  | negate
  | not
  | bitNot
  | atSign
  deriving DecidableEq, Repr, Inhabited

namespace UnaryOp

/-- The operator that a token of the kind stands for. -/
def ofKind? : Kind → Option UnaryOp
  | .plus => some plus
  | .minus => some negate
  | .bang => some not
  | .tilde => some bitNot
  | .atSign => some atSign
  | _ => none

/-- The spelling of the operator in a source text. -/
def symbol : UnaryOp → String
  | plus => "+"
  | negate => "-"
  | not => "!"
  | bitNot => "~"
  | atSign => "@"

/-- The name of the operator in a printed tree. -/
def name : UnaryOp → String
  | plus => "plus"
  | negate => "negate"
  | not => "not"
  | bitNot => "bit_not"
  | atSign => "at"

end UnaryOp

end PolyScript
