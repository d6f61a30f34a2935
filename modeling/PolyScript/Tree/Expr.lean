import PolyScript.Double.Basic
import PolyScript.Token.Basic
import PolyScript.Tree.Operator

/-!
# Expressions

The tree of an expression. Every node records the place of its first token.
Parentheses are kept as nodes of their own, so that printing a tree gives back
the grouping of its source.

## Main definitions

* `Number`: The value of a number literal.
* `Expr`: An expression.
* `ObjectEntry`: One entry of an object literal.
* `BitSegment`: One segment of a bit string literal or pattern.
-/

namespace PolyScript

/-- The value of a number literal: an exact integer of any size, or a double
    precision number. -/
inductive Number where
  | integer (value : Int)
  | float (value : Double)
  deriving DecidableEq, Repr, Inhabited

/-- The key of an object literal entry, which remembers whether it was quoted. -/
inductive ObjectKey where
  | identifier (name : String)
  | string (name : String)
  deriving DecidableEq, Repr, Inhabited

/-- The name that a key denotes. -/
def ObjectKey.name : ObjectKey → String
  | identifier s | string s => s

mutual

/-- An expression. -/
inductive Expr where
  | identifier (name : String) (position : Position)
  /-- A name of a guest language: `language.path.name`, the language under its
      canonical name. -/
  | qualified (language : String) (path : List String) (name : String) (position : Position)
  /-- A number with its source spelling. -/
  | number (value : Number) (raw : String) (position : Position)
  /-- The text that a string denotes, and its source spelling with quotes. -/
  | string (value : String) (raw : String) (position : Position)
  | boolean (value : Bool) (position : Position)
  | nil (position : Position)
  | array (elements : List Expr) (position : Position)
  /-- An object literal, its entries in source order. -/
  | object (entries : List ObjectEntry) (position : Position)
  | bitstring (segments : List BitSegment) (position : Position)
  | binary (left : Expr) (op : BinaryOp) (right : Expr) (position : Position)
  | unary (op : UnaryOp) (operand : Expr) (position : Position)
  /-- `condition ? onTrue : onFalse` -/
  | ternary (condition onTrue onFalse : Expr) (position : Position)
  /-- `condition ? : fallback` -/
  | elvis (condition fallback : Expr) (position : Position)
  | grouped (inner : Expr) (position : Position)
  /-- A call into a guest language; the function is the dotted name after the
      tag. -/
  | languageCall (language : String) (function : String) (arguments : List Expr)
      (position : Position)
  | builtinCall (name : String) (arguments : List Expr) (position : Position)
  | index (object : Expr) (index : Expr) (position : Position)
  | fieldAccess (object : Expr) (field : String) (position : Position)
  /-- Stages joined by pipe operators, one operator token between two stages. -/
  | pipe (stages : List Expr) (operators : List Token) (position : Position)

/-- One entry of an object literal. -/
inductive ObjectEntry where
  | mk (key : ObjectKey) (value : Expr)

/-- One segment of a bit string: a value, a size or none, and specifiers in
    source order. The size is dynamic unless it is a bare number. -/
inductive BitSegment where
  | mk (value : Expr) (size : Option Expr) (dynamicSize : Bool) (specifiers : List String)
      (position : Position)

end

instance : Inhabited Expr := ⟨.nil default⟩

namespace ObjectEntry

/-- The key of an entry. -/
def key : ObjectEntry → ObjectKey
  | mk k _ => k

/-- The value of an entry. -/
def value : ObjectEntry → Expr
  | mk _ v => v

end ObjectEntry

namespace BitSegment

/-- The value of a segment. -/
def value : BitSegment → Expr
  | mk v _ _ _ _ => v

/-- The size of a segment, if it has one. -/
def size : BitSegment → Option Expr
  | mk _ s _ _ _ => s

/-- Whether the size is known only when values are at hand. -/
def dynamicSize : BitSegment → Bool
  | mk _ _ d _ _ => d

/-- The specifiers of a segment. -/
def specifiers : BitSegment → List String
  | mk _ _ _ s _ => s

/-- The place of a segment. -/
def position : BitSegment → Position
  | mk _ _ _ _ p => p

/-- Splits a specifier such as `unit:8` at its first colon. -/
def splitSpecifier (s : String) : Option (String × String) :=
  match s.toList.span (· ≠ ':') with
  | (name, _ :: param) => some (String.ofList name, String.ofList param)
  | _ => none

/-- Whether a specifier of exactly this spelling is listed. -/
def hasSpecifier (segment : BitSegment) (name : String) : Bool :=
  segment.specifiers.contains name

/-- The parameter of the first specifier `name:parameter`. -/
def specifierParam? (segment : BitSegment) (name : String) : Option String :=
  segment.specifiers.findSome? fun s =>
    match splitSpecifier s with
    | some (key, param) => if key = name then some param else none
    | none => none

end BitSegment

namespace Expr

/-- The place of the first token of an expression. -/
def position : Expr → Position
  | identifier _ p | qualified _ _ _ p | number _ _ p | string _ _ p | boolean _ p | nil p
  | array _ p | object _ p | bitstring _ p | binary _ _ _ p | unary _ _ p | ternary _ _ _ p
  | elvis _ _ p | grouped _ p | languageCall _ _ _ p | builtinCall _ _ p | index _ _ p
  | fieldAccess _ _ p | pipe _ _ p => p

/-- Whether the expression is a literal number, string, truth value or nil. -/
def isLiteral : Expr → Bool
  | number .. | string .. | boolean .. | nil .. => true
  | _ => false

/-- Whether the expression is a number literal. -/
def isNumber : Expr → Bool
  | number .. => true
  | _ => false

/-- Whether the expression may stand to the left of an assignment. -/
def isAssignable : Expr → Bool
  | identifier .. | qualified .. | fieldAccess .. | index .. => true
  | _ => false

end Expr

end PolyScript
