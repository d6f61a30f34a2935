import PolyScript.Parse.Reference

/-!
# Bit Strings

Segments in double angle brackets. A segment is a value, a size after a colon or
none, and any number of specifier lists, each after a slash. Sizes are read in
size mode, where a dash is always an operator.

## Main definitions

* `Parse.grouped`: An expression in parentheses.
* `Parse.bitstring`: The segments of a bit string.
-/

namespace PolyScript

namespace Parse

/-- An expression in parentheses. -/
def grouped (g : Grammar) : Parse Expr := do
  let opening ← expect .leftParen
  let _ ← skipNewlines
  let inner ← g.expression
  let _ ← skipNewlines
  let _ ← expectClosing opening .rightParen
  return .grouped inner opening.position

/-- The value of a segment. In a pattern a name is taken as it stands, and an
    underscore is accepted. -/
def segmentValue (g : Grammar) (inPattern : Bool) : Parse Expr := do
  let token ← current
  match token.kind with
  | .number | .string => literal
  | .minus =>
    if (← peekKind 1) = .number then
      let _ ← consume
      let operand ← literal
      return .unary .negate operand token.position
    else throw (.unexpectedToken "bitstring segment value" token)
  | .identifier =>
    if inPattern then
      if (← peekKind 1) = .dot then reference g else identifier
    else reference g
  | .language => reference g
  | .leftParen => grouped g
  | .underscore =>
    if inPattern then
      let _ ← consume
      return .identifier "_" token.position
    else throw (.unexpectedToken "bitstring segment value" token)
  | _ => throw (.unexpectedToken "bitstring segment value" token)

/-- The size of a segment: a number, a reference, or an expression in
    parentheses. -/
def segmentSize (g : Grammar) : Parse Expr := do
  let token ← current
  match token.kind with
  | .number => literal
  | .identifier | .language => reference g
  | .leftParen => grouped g
  | _ => throw (.unexpectedToken "segment size" token)

/-- Splits a text at every dash. -/
def splitDashes : List Char → List (List Char)
  | [] => [[]]
  | c :: cs =>
    if c = '-' then [] :: splitDashes cs
    else
      match splitDashes cs with
      | piece :: rest => (c :: piece) :: rest
      | [] => [[c]]

/-- Appends a parameter to the last of several specifiers. -/
def withParam (names : List String) (param : String) : List String :=
  match names.getLast? with
  | some last => names.dropLast ++ [last ++ ":" ++ param]
  | none => names

/-- One list of specifiers, joined by dashes. Each may have a parameter after a
    colon. A name with dashes in it is several specifiers. -/
def specifierList (start : List String) : Parse (List String) :=
  loop start fun acc => do
    let atom ← expect .identifier
    let names := (splitDashes atom.text.toList).map String.ofList
    let names ← do
      if ← check .colon then
        let _ ← consume
        let value ← current
        if value.kind = .number || value.kind = .identifier then
          let _ ← consume
          pure (withParam names value.text)
        else throw (.unexpectedToken "specifier value" value)
      else pure names
    if ← check .minus then
      let _ ← consume
      return .inl (acc ++ names)
    else return .inr (acc ++ names)

/-- The size of a segment after its colon, if there is one. -/
def sizeClause (g : Grammar) : Parse (Option Expr) := do
  if ← check .colon then
    let _ ← consume
    return some (← inSizeMode (segmentSize g))
  else return none

/-- All specifiers of a segment. -/
def specifierLists : Parse (List String) :=
  loop [] fun acc => do
    if ← check .slash then
      let _ ← consume
      return .inl (← specifierList acc)
    else return .inr acc

/-- One segment. -/
def segment (g : Grammar) (inPattern : Bool) : Parse BitSegment := do
  let value ← segmentValue g inPattern
  let size ← sizeClause g
  let specifiers ← specifierLists
  return .mk value size (size.any fun e => !e.isNumber) specifiers value.position

/-- Segments with commas between them. No comma follows the last. -/
def segmentList (g : Grammar) (inPattern : Bool) : Parse (List BitSegment) := do
  let _ ← skipNewlines
  if ← check .bitClose then return []
  else
    loop [] fun acc => do
      let next ← segment g inPattern
      let acc := acc ++ [next]
      let _ ← skipNewlines
      if ← check .comma then
        let _ ← consume
        let _ ← skipNewlines
        if ← check .bitClose then unexpected "segment after ','"
        else return .inl acc
      else return .inr acc

/-- The segments of a bit string and its place. -/
def bitstring (g : Grammar) (inPattern : Bool) : Parse (List BitSegment × Position) := do
  let opening ← expect .bitOpen
  nested do
    let segments ← segmentList g inPattern
    let found ← current
    if found.kind = .bitClose || found.kind = .endOfInput then
      let _ ← expectClosing opening .bitClose
      return (segments, opening.position)
    else throw (.unexpectedToken "',' or '>>'" found)

end Parse

end PolyScript
