import PolyScript.Handler.Basic
import PolyScript.Parse.Expression

/-!
# Statements

The rules for the constructs that stand on their own. Some begin with a keyword
and are certain; the others look at what comes next and decline if it is not
theirs, without having moved.

## Main definitions

* `Parse.block`, `Parse.body`: Statements in braces, or one after a colon.
* `Parse.conditional`, `Parse.forIn`, `Parse.numericFor`, `Parse.whileLoop`,
  `Parse.loopControl`, `Parse.select`: Control flow.
* `Parse.codeBlock`: Guest code, word for word.
* `Parse.assignment`, `Parse.languageCall`, `Parse.fieldAccess`,
  `Parse.builtinCall`, `Parse.expressionStatement`: The rest.
-/

namespace PolyScript

namespace Parse

/-- A rule that either yields a statement or declines. -/
abbrev Attempt := Parse (Option Statement)

/-- Declines. -/
def decline : Attempt := return none

/-- Statements with separators between them, as long as `more` says so. -/
def statements (g : Grammar) (more : Parse Bool) : Parse (List Statement) := do
  skipSeparators
  loop [] fun acc => do
    if ← more then
      let next ← g.statement
      skipSeparators
      return .inl (acc ++ [next])
    else return .inr acc

/-- Whether neither the given closing bracket nor the end of the text has come. -/
def unlessClosed (closer : Kind) : Parse Bool := do
  let kind ← peekKind 0
  return kind ≠ closer && kind ≠ .endOfInput

/-- Statements in braces. -/
def block (g : Grammar) : Parse Block := do
  let opening ← expect .leftBrace
  strict do
    let body ← statements g (unlessClosed .rightBrace)
    let _ ← expectClosing opening .rightBrace
    return .mk body opening.position

/-- The body of a construct: a block, or a single statement after a colon. -/
def body (g : Grammar) : Parse Block := do
  if ← check .colon then
    let colon ← consume
    let _ ← skipNewlines
    let statement ← relaxed g.statement
    return .mk [statement] colon.position
  else
    let _ ← skipNewlines
    block g

/-- What follows the body of a conditional. -/
def otherwise (g : Grammar) : Parse (Option Block) := do
  if ← nextAfterNewlinesIs .kwElse then
    let _ ← skipNewlines
    let keyword ← consume
    if ← check .kwIf then
      let inner ← nested g.conditional
      return some (.mk [inner] keyword.position)
    else return some (← body g)
  else return none

/-- A conditional, from its keyword on. -/
def conditional (g : Grammar) : Parse Statement := do
  let keyword ← expect .kwIf
  let condition ← g.expression
  let onTrue ← body g
  let onFalse ← otherwise g
  return .conditional condition onTrue onFalse keyword.position

/-- Whether a loop over the items of something begins here: names with commas
    between them, up to the keyword that introduces what they range over. -/
def forInAhead : Parse Bool :=
  lookahead do
    let _ ← consume
    loop () fun _ => do
      let kind ← peekKind 0
      if kind = .identifier || kind = .underscore then
        let _ ← consume
        match ← peekKind 0 with
        | .comma =>
          let _ ← consume
          return .inl ()
        | .kwIn => return .inr true
        | _ => return .inr false
      else return .inr false

/-- The names that a loop binds. -/
def loopNames : Parse (List String) :=
  loop [] fun acc => do
    let name ← consume
    if ← check .comma then
      let _ ← consume
      return .inl (acc ++ [name.text])
    else return .inr (acc ++ [name.text])

/-- A loop over the items of something. An array literal is accepted only if the
    handler is set to. -/
def forIn (g : Grammar) (settings : HandlerSettings) : Attempt := do
  if ← forInAhead then
    let keyword ← consume
    let names ← loopNames
    let _ ← expect .kwIn
    let arrayAhead ← check .leftBracket
    if arrayAhead && settings.boolParam? "allowArrayIterable" ≠ some true then
      throw (.unsupported "array literal"
        "a for-in loop cannot iterate an array literal; assign it to a variable first"
        (← current).position)
    else
      let iterable ← g.expression
      let inner ← inLoop (body g)
      return some (.forIn names iterable inner keyword.position)
  else decline

/-- Whether a loop over numbers begins here. -/
def numericForAhead : Parse Bool := do
  if (← peekKind 1) = .identifier then return (← peekKind 2) = .assign else return false

/-- The step of a loop over numbers, after its comma. -/
def stepClause (g : Grammar) : Parse (Option Expr) := do
  if ← check .comma then
    let _ ← consume
    return some (← g.expression)
  else return none

/-- A loop over numbers. -/
def numericFor (g : Grammar) : Attempt := do
  if ← numericForAhead then
    let keyword ← consume
    let name ← consume
    let _ ← expect .assign
    let first ← g.expression
    let _ ← expect .comma
    let last ← g.expression
    let step ← stepClause g
    let inner ← inLoop (body g)
    return some (.numericFor name.text first last step inner keyword.position)
  else decline

/-- A loop with a condition. -/
def whileLoop (g : Grammar) : Parse Statement := do
  let keyword ← expect .kwWhile
  let condition ← g.expression
  let inner ← inLoop (body g)
  return .whileLoop condition inner keyword.position

/-- Leaving or continuing a loop, which is possible only inside one. -/
def loopControl : Parse Statement := do
  let token ← current
  if (← get).loopDepth = 0 then throw (.outsideLoop token.text token.position)
  else
    let token ← consume
    if token.kind = .kwBreak then return .breakLoop token else return .continueLoop token

/-! ### Matching -/

/-- One arm of a match statement. -/
def matchArm (g : Grammar) : Parse MatchArm := do
  let pattern ← g.pattern
  let _ ← skipNewlines
  let _ ← expect .arrow
  let _ ← skipNewlines
  let body ← do
    if ← check .leftBrace then pure (Statement.block (← block g)) else relaxed g.statement
  return .mk pattern body pattern.position

/-- The arms of a match statement, with commas or newlines between them. -/
def matchArms (g : Grammar) : Parse (List MatchArm) := do
  let _ ← skipNewlines
  loop [] fun acc => do
    if ← unlessClosed .rightBrace then
      let arm ← matchArm g
      let comma ← check .comma
      if comma then
        let _ ← consume
      let newlines ← skipNewlines
      if comma || 0 < newlines then return .inl (acc ++ [arm])
      else if ← check .rightBrace then return .inl (acc ++ [arm])
      else unexpected "',' or newline between match arms"
    else return .inr acc

/-- A match statement. -/
def select (g : Grammar) : Parse Statement := do
  let keyword ← expect .kwMatch
  let scrutinee ← g.expression
  let _ ← skipNewlines
  let opening ← expect .leftBrace
  let arms ← matchArms g
  let _ ← expectClosing opening .rightBrace
  return .select scrutinee arms keyword.position

/-! ### Guest code -/

/-- The text up to the brace that closes a block of guest code. The first argument
    counts the braces that are open besides the block's own. Braces in quoted
    strings do not count; such a string may escape its quote, and unless it is
    quoted by grave accents it ends with its line. -/
def guestCode : Nat → Option Char → Bool → List Char → Option (List Char)
  | _, _, _, [] => none
  | depth, some quote, true, c :: cs => (guestCode depth (some quote) false cs).map (c :: ·)
  | depth, some quote, false, c :: cs =>
    if c = '\\' then (guestCode depth (some quote) true cs).map (c :: ·)
    else if c = quote ∨ (c = '\n' ∧ quote ≠ '\x60') then
      (guestCode depth none false cs).map (c :: ·)
    else (guestCode depth (some quote) false cs).map (c :: ·)
  | depth, none, _, c :: cs =>
    if c = '"' ∨ c = '\'' ∨ c = '\x60' then
      (guestCode depth (some c) false cs).map (c :: ·)
    else if c = '\x7b' then (guestCode (depth + 1) none false cs).map (c :: ·)
    else if c = '\x7d' then
      match depth with
      | 0 => some []
      | depth + 1 => (guestCode depth none false cs).map (c :: ·)
    else (guestCode depth none false cs).map (c :: ·)

/-- The guest code that begins at a byte offset of a text, and the place just past
    its closing brace. -/
def guestCodeAt? (source : String) (start : Nat) : Option (String × Position) :=
  match Text.splitBytes? start source.toList with
  | none => none
  | some (before, rest) =>
    (guestCode 0 none false rest).map fun code =>
      (String.ofList code, Position.after (before ++ code ++ ['\x7d']))

/-- Whether what follows a language name is a brace, or names in parentheses and
    a brace. -/
def capturesThenBrace : Parse Bool :=
  lookahead do
    let _ ← consume
    if ← check .leftParen then
      let _ ← consume
      loop () fun _ => do
        let kind ← peekKind 0
        if kind = .identifier || kind = .comma then
          let _ ← consume
          return .inl ()
        else return .inr ()
      if ← check .rightParen then
        let _ ← consume
        check .leftBrace
      else return false
    else check .leftBrace

/-- The names that a block of guest code captures. -/
def captures : Parse (List String) := do
  if ← check .leftParen then
    let opening ← consume
    let names ← loop [] fun acc => do
      if ← check .identifier then
        let name ← consume
        if ← check .comma then
          let _ ← consume
          return .inl (acc ++ [name.text])
        else return .inr (acc ++ [name.text])
      else return .inr acc
    let _ ← expectClosing opening .rightParen
    return names
  else return []

/-- Whether a block of guest code begins here. A language tag that is not among
    the known languages is an error if it looks like one. -/
def codeBlockAhead : Parse Bool := do
  let head ← current
  let next ← peekKind 1
  let table ← languages
  let isBlock := table.constructFor? head.text next false = some .codeBlock
  match head.kind with
  | .language =>
    if isBlock then return true
    else if table.isLanguage head.text then return false
    else if next = .leftBrace || next = .leftParen then
      throw (.unknownLanguage head.text head.position)
    else return false
  | .identifier => if isBlock then capturesThenBrace else return false
  | _ => return false

/-- A block of guest code. Its body is taken from the source as it stands and is
    never split into tokens. -/
def codeBlock : Attempt := do
  if ← codeBlockAhead then
    let head ← current
    match (← languages).resolveAt head.text head.position with
    | .error e => throw e
    | .ok language =>
      let _ ← consume
      let names ← captures
      let opening ← expect .leftBrace
      let source := (← read).source
      match guestCodeAt? source opening.stop with
      | none =>
        throw (.unclosed .leftBrace opening.position Kind.endOfInput.describe
          (Position.after source.toList))
      | some (code, resume) =>
        resumeAt resume
        return some (.codeBlock language names code head.position)
  else decline

/-! ### Assignments and expressions -/

/-- What one token says about an assignment that may lie ahead. -/
inductive Glance where
  /-- The assignment sign itself. -/
  | found
  /-- The statement ends before one. -/
  | absent
  /-- Go on, this many brackets deep. -/
  | deeper (depth : Nat)

/-- Looks at one token, `depth` brackets deep. -/
def glance (isRelaxed : Bool) (depth : Nat) : Kind → Glance
  | .assign => if depth = 0 then .found else .deeper depth
  | .leftParen | .leftBracket | .leftBrace | .bitOpen => .deeper (depth + 1)
  | .rightParen | .rightBracket | .rightBrace | .bitClose =>
    if depth = 0 then .absent else .deeper (depth - 1)
  | .endOfInput => .absent
  | .newline | .semicolon | .arrow => if depth = 0 then .absent else .deeper depth
  | .comma => if depth = 0 && isRelaxed then .absent else .deeper depth
  | _ => .deeper depth

/-- Whether an assignment sign outside all brackets comes before the statement
    ends. -/
def assignmentAhead : Parse Bool := do
  let isRelaxed := (← get).isRelaxed
  lookahead do
    loop 0 fun depth => do
      match glance isRelaxed depth (← peekKind 0) with
      | .found => return .inr true
      | .absent => return .inr false
      | .deeper depth =>
        let _ ← consume
        return .inl depth

/-- An assignment. Its value may be a pipe. -/
def assignment (g : Grammar) : Attempt := do
  if ← assignmentAhead then
    let target ← operand g
    if target.isAssignable then
      let _ ← expect .assign
      let _ ← skipNewlines
      let value ← pipeExpression g
      return some (.assignment target value target.position)
    else
      throw (.unsupported "assignment target"
        "only variables, qualified variables, fields and indexes can be assigned"
        target.position)
  else decline

/-- Whether a name comes next, and after it a token that passes the test. -/
def nameThen (test : Kind → Bool) : Parse Bool := do
  if isMemberName (← peekKind 0) then return test (← peekKind 1) else return false

/-- A guest call as a statement, perhaps the first stage of a pipe. -/
def languageCall (g : Grammar) : Attempt := do
  if ← nameThen (· = .dot) then
    if ← chainEndsInCall then
      let start ← current
      let call ← pipeExpression g
      let background ← backgroundMarker
      return some (.languageCall call background start.position)
    else decline
  else decline

/-- A field or an index read as a statement. -/
def fieldAccess (g : Grammar) : Attempt := do
  if ← nameThen fun kind => kind = .dot || kind = .leftBracket then
    let expr ← g.expression
    return some (.expression expr expr.position)
  else decline

/-- Whether an expression, used as a statement, calls into guest languages. -/
def isGuestCall : Expr → Bool
  | .pipe .. | .languageCall .. => true
  | _ => false

/-- Any expression as a statement. A pipe or a guest call may be marked to run in
    the background. -/
def expressionStatement (g : Grammar) : Parse Statement := do
  let expr ← pipeExpression g
  if isGuestCall expr then
    let background ← backgroundMarker
    return .languageCall expr background expr.position
  else return .expression expr expr.position

/-- A call of an unqualified function as a statement. -/
def builtinCall (g : Grammar) : Attempt := do
  if ← check .identifier then
    if (← peekKind 1) = .leftParen then return some (← expressionStatement g) else decline
  else decline

end Parse

end PolyScript
