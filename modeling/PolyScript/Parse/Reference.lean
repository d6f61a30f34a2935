import PolyScript.Parse.Literal

/-!
# References and Calls

Expressions that begin with a name. A dotted chain that begins with a language
tag, or with a name of a known language, is a guest reference: a call if a
parenthesis follows its last segment, otherwise a qualified name. A chain that
begins with any other name is a plain field access, and cannot end in a call.

## Main definitions

* `Parse.chainEndsInCall`: What a dotted chain leads to.
* `Parse.reference`: An expression that begins with a name.
* `Parse.callArguments`: The arguments of a call.
* `Parse.pipeExpression`: Expressions joined by pipe operators.
* `Parse.backgroundMarker`: A trailing ampersand.
-/

namespace PolyScript

namespace Parse

/-- Whether a token of this kind can name a member. -/
def isMemberName (kind : Kind) : Bool := kind = .identifier || kind = .language

/-- Whether a dot and a member name come next. -/
def memberAhead : Parse Bool := do
  if ← check .dot then return isMemberName (← peekKind 1) else return false

/-- Whether the dotted chain that begins here ends in a call. -/
def chainEndsInCall : Parse Bool :=
  lookahead do
    let _ ← consume
    loop () fun _ => do
      if ← memberAhead then
        let _ ← consume
        let _ ← consume
        return .inl ()
      else return .inr (← check .leftParen)

/-- A name after a dot. Language tags are ordinary names there. -/
def memberName : Parse Token := do
  if isMemberName (← peekKind 0) then consume else unexpected "field name"

/-- One argument of a call. A literal or a name that stands alone is taken
    directly; anything else is an expression. -/
def argument (g : Grammar) : Parse Expr := do
  let next ← peekKind 1
  let alone := next = .comma || next = .rightParen || next = .newline
  let kind ← peekKind 0
  if alone && kind.isLiteral then literal
  else if alone && kind = .identifier then
    let token ← consume
    return .identifier token.text token.position
  else g.expression

/-- The arguments of a call, in parentheses. -/
def callArguments (g : Grammar) : Parse (List Expr) := do
  let opening ← expect .leftParen
  let arguments ← commaList .rightParen [] fun acc => return acc ++ [← argument g]
  let _ ← expectClosing opening .rightParen
  return arguments

/-- The segments of a dotted chain, each after its dot. -/
def segments : Parse (List String) :=
  loop [] fun acc => do
    if ← check .dot then
      let _ ← consume
      let name ← memberName
      return .inl (acc ++ [name.text])
    else return .inr acc

/-- A guest call or a qualified name. -/
def guestChain (g : Grammar) : Parse Expr := do
  let head ← consume
  match (← languages).resolveAt head.text head.position with
  | .error e => throw e
  | .ok language =>
    let names ← segments
    if ← check .leftParen then
      let arguments ← callArguments g
      return .languageCall language (String.intercalate "." names) arguments head.position
    else
      match names.getLast? with
      | some name => return .qualified language names.dropLast name head.position
      | none => unexpected "name after '.'"

/-- A plain name. -/
def identifier : Parse Expr := do
  let token ← consume
  return .identifier token.text token.position

/-- An expression that begins with a name or a language tag. -/
def reference (g : Grammar) : Parse Expr := do
  let head ← current
  let tag := head.kind = .language
  let guest := tag || (← languages).isLanguage head.text
  match ← peekKind 1 with
  | .dot =>
    if guest then guestChain g
    else if ← chainEndsInCall then throw (.unknownLanguage head.text head.position)
    else identifier
  | next =>
    if next = .leftParen && head.kind = .identifier then
      let name ← consume
      let arguments ← callArguments g
      return .builtinCall name.text arguments name.position
    else if tag then
      let _ ← consume
      unexpected ("'.' after language tag '" ++ head.text ++ "'")
    else identifier

/-- One expression, or several joined by pipe operators. An operator may begin a
    line of its own. -/
def pipeExpression (g : Grammar) : Parse Expr := do
  let first ← g.expression
  let (stages, operators) ← loop ([first], []) fun (stages, operators) => do
    if ← nextAfterNewlinesIs .pipe then
      let _ ← skipNewlines
      let operator ← consume
      let _ ← skipNewlines
      let stage ← g.expression
      return .inl (stages ++ [stage], operators ++ [operator])
    else return .inr (stages, operators)
  if operators.isEmpty then return first
  else return .pipe stages operators first.position

/-- Whether a token of this kind may follow a trailing ampersand. It ends the
    line; in a statement that is part of a longer one a comma or a closing brace
    may follow too. -/
def endsBackground (isRelaxed : Bool) : Kind → Bool
  | .newline | .endOfInput => true
  | .comma | .rightBrace => isRelaxed
  | _ => false

/-- A trailing ampersand, if there is one. -/
def backgroundMarker : Parse Bool := do
  if ← check .ampersand then
    let _ ← consume
    let next ← current
    if endsBackground (← get).isRelaxed next.kind then return true
    else throw (.unexpectedToken "newline or end of input after '&'" next)
  else return false

end Parse

end PolyScript
