import PolyScript.Language
import PolyScript.Parse.Error
import PolyScript.Stream
import PolyScript.Text.Slice

/-!
# Parsers

A parser reads tokens from a buffer and either yields a value or fails with an
error; either way it leaves a state behind. What stays the same during a parse
is the environment: the source text, the guest languages and the nesting guard.

Besides the buffer and the cursor the state holds three things that the grammar
depends on: how deep constructs are nested, how many loop bodies are open, and
whether statement terminators are enforced. Each is changed only by a wrapper
around another parser, which puts the old value back when that parser is done,
whether or not it succeeded.

A loop runs within a budget that no parse can spend, because every round of a
loop takes at least one token and a token takes at least one byte.

## Main definitions

* `Guard`: The limit on nesting.
* `Parse`: A parser.
* `Parse.nested`, `Parse.inLoop`, `Parse.relaxed`, `Parse.strict`,
  `Parse.inSizeMode`: The wrappers.
* `Parse.iterate`, `Parse.loop`: Repetition within a budget.
* `Parse.finish`: The outcome of a parse in view of a pending lexical error.
-/

namespace PolyScript

/-- The limit on how deep constructs may nest. -/
structure Guard where
  maxDepth : Nat
  enabled : Bool
  deriving DecidableEq, Repr, Inhabited

namespace Guard

/-- The depth after entering one more level. Fails if the limit is reached
    already. -/
def enter (g : Guard) (depth : Nat) (p : Position) : Except ParseError Nat :=
  if g.enabled && g.maxDepth ≤ depth then .error (.tooDeep g.maxDepth p) else .ok (depth + 1)

/-- The depth after leaving a level. -/
def exit (depth : Nat) : Nat := depth - 1

end Guard

namespace Parse

/-- What stays the same during a parse. -/
structure Env where
  source : String
  languages : LanguageTable
  guard : Guard

/-- What changes during a parse. -/
structure State where
  buffer : TokenBuffer
  cursor : Nat
  /-- How many levels are open. -/
  depth : Nat
  /-- How many loop bodies are open. -/
  loopDepth : Nat
  /-- Whether a statement may end without a terminator. -/
  isRelaxed : Bool

/-- The state at the start of a source text. -/
def State.initial (source : String) : State := ⟨TokenBuffer.ofSource source, 0, 0, 0, false⟩

end Parse

/-- A parser. -/
abbrev Parse := ReaderT Parse.Env (EStateM ParseError Parse.State)

namespace Parse

/-! ### Tokens -/

/-- The token a number of places after the cursor. -/
def peek (n : Nat) : Parse Token :=
  modifyGet fun s =>
    let (token, buffer) := s.buffer.peek s.cursor n
    (token, { s with buffer })

/-- The kind of the token a number of places after the cursor. -/
def peekKind (n : Nat) : Parse Kind := return (← peek n).kind

/-- The current token. -/
def current : Parse Token := peek 0

/-- Whether the current token is of a kind. -/
def check (kind : Kind) : Parse Bool := return (← peekKind 0) = kind

/-- Whether any token is left before the end of the text. -/
def hasMore : Parse Bool := return (← peekKind 0) ≠ .endOfInput

/-- Takes the current token. The end of the text stays current. -/
def consume : Parse Token :=
  modifyGet fun s =>
    let (token, cursor, buffer) := s.buffer.consume s.cursor
    (token, { s with buffer, cursor })

/-- Up to the given number of pending tokens. -/
def window (count : Nat) : Parse (List Token) :=
  modifyGet fun s =>
    let (tokens, buffer) := s.buffer.window s.cursor count
    (tokens, { s with buffer })

/-- The index of the current token. -/
def cursor : Parse Nat := return (← get).cursor

/-- Moves to a token. -/
def setCursor (index : Nat) : Parse Unit := modify fun s => { s with cursor := index }

/-- Drops what was read ahead and reads on at another place of the text. -/
def resumeAt (p : Position) : Parse Unit :=
  modify fun s => { s with buffer := s.buffer.restart s.cursor p }

/-- Runs a parser and returns to the current token. -/
def lookahead {α : Type} (p : Parse α) : Parse α := do
  let start ← cursor
  let result ← p
  setCursor start
  return result

/-- The source text between two byte offsets. -/
def slice (start stop : Nat) : Parse String := return Text.slice (← read).source start stop

/-- The known languages. -/
def languages : Parse LanguageTable := return (← read).languages

/-- Fails because the current token is not what the grammar requires. -/
def unexpected {α : Type} (expected : String) : Parse α := do
  throw (.unexpectedToken expected (← current))

/-- Takes a token of a kind. -/
def expect (kind : Kind) : Parse Token := do
  if ← check kind then consume else unexpected kind.describe

/-- Takes the closing bracket for one that was opened. -/
def expectClosing (opening : Token) (closer : Kind) : Parse Token := do
  if ← check closer then consume
  else
    let found ← current
    throw (.unclosed opening.kind opening.position found.describe found.position)

/-! ### Wrappers -/

/-- Runs a parser from a changed state, and changes the state it leaves. -/
def around {α : Type} (before after : State → State) (p : Parse α) : Parse α :=
  fun env s =>
    match p env (before s) with
    | .ok a t => .ok a (after t)
    | .error e t => .error e (after t)

/-- Enters one more level. -/
def enter (p : Position) : Parse Unit := do
  match (← read).guard.enter (← get).depth p with
  | .ok depth => modify fun s => { s with depth }
  | .error e => throw e

/-- Runs a parser one level deeper. -/
def nested {α : Type} (p : Parse α) : Parse α := do
  let token ← current
  enter token.position
  around id (fun s => { s with depth := Guard.exit s.depth }) p

/-- Runs a parser as a loop body. -/
def inLoop {α : Type} (p : Parse α) : Parse α :=
  around (fun s => { s with loopDepth := s.loopDepth + 1 })
    (fun s => { s with loopDepth := s.loopDepth - 1 }) p

/-- Runs a parser with terminators enforced or not, and restores what was
    before. -/
def withTerminators {α : Type} (isRelaxed : Bool) (p : Parse α) : Parse α := do
  let previous := (← get).isRelaxed
  around (fun s => { s with isRelaxed }) (fun s => { s with isRelaxed := previous }) p

/-- Runs a parser as part of a longer statement, whose terminator is not its
    own. -/
def relaxed {α : Type} (p : Parse α) : Parse α := withTerminators true p

/-- Runs a parser with terminators enforced again, as inside braces. -/
def strict {α : Type} (p : Parse α) : Parse α := withTerminators false p

/-- Switches the lexer's size mode, reading again from the current token. -/
def switchSizeMode (enabled : Bool) (s : State) : State :=
  { s with buffer := s.buffer.setSizeMode s.cursor enabled }

/-- Runs a parser in size mode. The mode is off afterwards. -/
def inSizeMode {α : Type} (p : Parse α) : Parse α :=
  around (switchSizeMode true) (switchSizeMode false) p

/-! ### Repetition -/

/-- Fails because a budget is spent, which counts as nesting too deep. -/
def exhausted {α : Type} : Parse α := do
  let token ← current
  throw (.tooDeep (← read).guard.maxDepth token.position)

/-- Repeats a step on a value until it yields a result, for at most the given
    number of rounds. -/
def iterate {α β : Type} (step : α → Parse (α ⊕ β)) : Nat → α → Parse β
  | 0, _ => exhausted
  | n + 1, a => do
    match ← step a with
    | .inl next => iterate step n next
    | .inr result => return result

/-- Repeats a step within a budget that no source text can spend. -/
def loop {α β : Type} (start : α) (step : α → Parse (α ⊕ β)) : Parse β := do
  iterate step ((← read).source.utf8ByteSize + 2) start

/-- Skips newline tokens and counts them. -/
def skipNewlines : Parse Nat :=
  loop 0 fun count => do
    if ← check .newline then
      let _ ← consume
      return .inl (count + 1)
    else return .inr count

/-- Whether a token of this kind separates statements. -/
def isSeparator (kind : Kind) : Bool := kind = .newline || kind = .semicolon

/-- Skips newlines and semicolons. -/
def skipSeparators : Parse Unit :=
  loop () fun _ => do
    if isSeparator (← peekKind 0) then
      let _ ← consume
      return .inl ()
    else return .inr ()

/-- Whether a token of the kind comes next once newlines are passed over. -/
def nextAfterNewlinesIs (kind : Kind) : Parse Bool :=
  loop 0 fun n => do
    let next ← peekKind n
    if next = .newline then return .inl (n + 1) else return .inr (next = kind : Bool)

/-! ### Running -/

/-- The outcome of a parse in view of a pending lexical error: that error, unless
    the parse failed at an earlier place. -/
def settle {α : Type} (pending : Option LexError) (outcome : Except ParseError α) :
    Except ParseError α :=
  match pending, outcome with
  | none, outcome => outcome
  | some lex, .error e =>
    if e.position.offset < lex.position.offset then .error e else .error (.lexical lex)
  | some lex, .ok _ => .error (.lexical lex)

/-- Runs a parser from a state, and says where it ends. -/
def runFrom {α : Type} (p : Parse α) (env : Env) (s : State) : Except ParseError α × State :=
  match p env s with
  | .ok a t => (.ok a, t)
  | .error e t => (.error e, t)

/-- Runs a parser on a whole source text and reports a lexical error that it came
    upon. -/
def run {α : Type} (p : Parse α) (env : Env) : Except ParseError α :=
  let (outcome, s) := runFrom p env (State.initial env.source)
  settle s.buffer.lexError? outcome

end Parse

end PolyScript
