import PolyScript.Parse.Bitstring

/-!
# Expressions

Binary operators are read by climbing through their precedences. A finished
chain of operands may be followed by a ternary or an elvis tail; both group to
the right.

## Main definitions

* `Parse.primary`: An operand without operators.
* `Parse.operand`: An operand with its prefix operators or suffixes.
* `Parse.binary`: Operands joined by binary operators.
* `Parse.expression`: A whole expression.
-/

namespace PolyScript

namespace Parse

/-- An array literal. -/
def arrayLiteral (g : Grammar) : Parse Expr := do
  let opening ← expect .leftBracket
  let elements ← commaList .rightBracket [] fun acc => return acc ++ [← g.expression]
  let _ ← expectClosing opening .rightBracket
  return .array elements opening.position

/-- The key of an object literal entry. -/
def objectKey (token : Token) : Except ParseError ObjectKey :=
  match token.kind with
  | .identifier | .language => .ok (.identifier token.text)
  | .string => .ok (.string token.text)
  | _ => .error (.unexpectedToken "object key" token)

/-- One entry of an object literal. -/
def objectEntry (g : Grammar) : Parse ObjectEntry := do
  match objectKey (← current) with
  | .error e => throw e
  | .ok key =>
    let _ ← consume
    let _ ← expect .colon
    let _ ← skipNewlines
    let value ← g.expression
    return .mk key value

/-- An object literal. -/
def objectLiteral (g : Grammar) : Parse Expr := do
  let opening ← expect .leftBrace
  let entries ← commaList .rightBrace [] fun acc => return acc ++ [← objectEntry g]
  let _ ← expectClosing opening .rightBrace
  return .object entries opening.position

/-- An operand without operators. -/
def primary (g : Grammar) : Parse Expr := do
  let token ← current
  match token.kind with
  | .number | .string | .kwTrue | .kwFalse | .kwNil => literal
  | .identifier | .language => reference g
  | .leftParen => grouped g
  | .leftBracket => arrayLiteral g
  | .leftBrace => objectLiteral g
  | .bitOpen =>
    let (segments, position) ← bitstring g false
    return .bitstring segments position
  | _ => throw (.unexpectedToken "expression" token)

/-- Index and field suffixes after an operand. -/
def suffixes (g : Grammar) (start : Expr) : Parse Expr :=
  loop start fun expr => do
    match ← peekKind 0 with
    | .leftBracket =>
      let opening ← consume
      let _ ← skipNewlines
      let index ← g.expression
      let _ ← skipNewlines
      let _ ← expectClosing opening .rightBracket
      return .inl (.index expr index expr.position)
    | .dot =>
      let _ ← consume
      let field ← memberName
      if ← check .leftParen then
        throw (.unsupported "method call"
          "only guest-language functions can be called through '.'" field.position)
      else return .inl (.fieldAccess expr field.text expr.position)
    | _ => return .inr expr

/-- An operand: prefix operators before another operand, or a primary with its
    suffixes. -/
def operand (g : Grammar) : Parse Expr := do
  match UnaryOp.ofKind? (← peekKind 0) with
  | some op =>
    let token ← consume
    let inner ← nested g.operand
    return .unary op inner token.position
  | none => suffixes g (← primary g)

/-- Operands joined by binary operators that bind at least as tightly as `least`.
    The right operand of an operator binds strictly tighter. The first argument
    is at least the number of precedences from `least` up to the tightest; once
    none is left, a chain is a single operand. -/
def binary (g : Grammar) : Nat → Nat → Parse Expr
  | 0, _ => operand g
  | levels + 1, least => do
    let first ← operand g
    loop first fun left => do
      match BinaryOp.ofKind? (← peekKind 0) with
      | some op =>
        if op.precedence < least then return .inr left
        else
          let _ ← consume
          let _ ← skipNewlines
          let right ← binary g levels (op.precedence + 1)
          return .inl (.binary left op right left.position)
      | none => return .inr left

/-- A chain of operands and binary operators of any precedence. -/
def operation (g : Grammar) : Parse Expr := binary g 7 1

/-- The ternary or elvis tail after a condition, if there is one. -/
def conditionalTail (g : Grammar) (condition : Expr) : Parse Expr := do
  if ← check .question then
    let _ ← consume
    if ← check .colon then
      let _ ← consume
      let _ ← skipNewlines
      let fallback ← g.expression
      return .elvis condition fallback condition.position
    else
      let _ ← skipNewlines
      let onTrue ← g.expression
      let _ ← skipNewlines
      let _ ← expect .colon
      let _ ← skipNewlines
      let onFalse ← g.expression
      return .ternary condition onTrue onFalse condition.position
  else return condition

/-- A whole expression, one level deeper. -/
def expression (g : Grammar) : Parse Expr :=
  nested do
    let condition ← operation g
    conditionalTail g condition

end Parse

end PolyScript
