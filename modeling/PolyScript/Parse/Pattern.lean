import PolyScript.Parse.Bitstring

/-!
# Patterns

## Main definitions

* `Parse.pattern`: A pattern.
-/

namespace PolyScript

namespace Parse

/-- An integer literal with its decimal spelling, so that a pattern does not
    depend on how its numbers were written. -/
def normalizeLiteral : Expr → Expr
  | .number (.integer n) _ p => .number (.integer n) (toString n) p
  | e => e

/-- The negation of a number literal, at the place of the sign. -/
def negateLiteral (p : Position) : Expr → Expr
  | .number (.integer n) _ _ => .number (.integer (-n)) (toString (-n)) p
  | .number (.float d) raw _ => .number (.float d.neg) ("-" ++ raw) p
  | e => e

/-- What an array pattern has so far: its elements, and the rest name once that
    is reached. -/
structure ArrayPattern where
  elements : List Pattern
  rest : Option String

/-- The rest of an array pattern, from its dots on. Nothing may follow it. -/
def restPattern : Parse String := do
  let dots ← consume
  let name ← expect .identifier
  let _ ← skipNewlines
  if ← check .comma then
    let _ ← consume
    let _ ← skipNewlines
  if ← check .rightBracket then return name.text
  else
    throw (.unsupported "rest pattern"
      "'...' may only bind the last element of an array pattern" dots.position)

/-- An array pattern. -/
def arrayPattern (g : Grammar) : Parse Pattern := do
  let opening ← expect .leftBracket
  let _ ← skipNewlines
  let result : ArrayPattern ← loop [] fun elements => do
    if ← check .rightBracket then return .inr ⟨elements, none⟩
    else if ← check .ellipsis then return .inr ⟨elements, some (← restPattern)⟩
    else
      let element ← g.pattern
      let elements := elements ++ [element]
      let _ ← skipNewlines
      if ← check .comma then
        let _ ← consume
        let _ ← skipNewlines
        return .inl elements
      else return .inr ⟨elements, none⟩
  let _ ← expectClosing opening .rightBracket
  return .array result.elements result.rest opening.position

/-- Whether a token of this kind can be a key of an object pattern. -/
def isPatternKey (kind : Kind) : Bool :=
  kind = .identifier || kind = .string || kind = .underscore || kind = .language

/-- One field of an object pattern, added to those before it. -/
def patternField (g : Grammar) (fields : List PatternField) : Parse (List PatternField) := do
  let key ← current
  if isPatternKey key.kind then
    let _ ← consume
    let _ ← expect .colon
    let _ ← skipNewlines
    let pattern ← g.pattern
    match PatternField.insert? key.text pattern fields with
    | some fields => return fields
    | none =>
      throw (.unsupported "object pattern"
        ("key '" ++ key.text ++ "' appears more than once") key.position)
  else throw (.unexpectedToken "object pattern key" key)

/-- An object pattern. -/
def objectPattern (g : Grammar) : Parse Pattern := do
  let opening ← expect .leftBrace
  let fields ← commaList .rightBrace [] (patternField g)
  let _ ← expectClosing opening .rightBrace
  return .object fields opening.position

/-- A pattern, one level deeper. -/
def pattern (g : Grammar) : Parse Pattern :=
  nested do
    let token ← current
    match token.kind with
    | .number | .string | .kwTrue | .kwFalse | .kwNil =>
      let value ← literal
      return .literal (normalizeLiteral value) token.position
    | .minus =>
      if (← peekKind 1) = .number then
        let _ ← consume
        let value ← literal
        return .literal (negateLiteral token.position (normalizeLiteral value)) token.position
      else throw (.unexpectedToken "pattern" token)
    | .underscore =>
      let _ ← consume
      return .wildcard token.position
    | .identifier =>
      let _ ← consume
      return .capture token.text token.position
    | .leftBracket => arrayPattern g
    | .leftBrace => objectPattern g
    | .bitOpen =>
      let (segments, position) ← bitstring g true
      return .bitstring segments position
    | _ => throw (.unexpectedToken "pattern" token)

end Parse

end PolyScript
