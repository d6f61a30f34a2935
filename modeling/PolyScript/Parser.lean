import PolyScript.Handler.Builtin
import PolyScript.Parse.Pattern
import PolyScript.Registry

/-!
# Parsing Source Texts

Statements are parsed by asking the handlers of a registry one after the other.
This closes the circle of the grammar: `Grammar.level` ties the rules together,
level over level, and a parser uses as many levels as its source text could
possibly need.

## Main definitions

* `Parse.dispatch`: A statement, parsed by the first handler that accepts it.
* `Grammar.level`: The grammar at a level.
* `Parser`: A registry, the guest languages and the nesting guard.
* `Parser.parse`, `Parser.parseExpression`, `Parser.parsePattern`: Whole texts.
-/

namespace PolyScript

namespace Parse

/-- Requires that the statement is at its end. -/
def expectTerminator : Parse Unit := do
  let token ← current
  if token.kind.isTerminator then return
  else throw (.unexpectedToken "end of statement" token)

/-- Asks handlers in order. One that declines leaves no trace but what was read
    ahead. -/
def tryHandlers (g : Grammar) (first : Token) (start : Nat) : List Handler → Parse Statement
  | [] => throw (.noHandler first.describe first.position)
  | h :: rest => do
    match ← nested (h.parse g) with
    | some statement =>
      if !(← get).isRelaxed then expectTerminator
      return statement
    | none =>
      setCursor start
      tryHandlers g first start rest

/-- A statement, parsed by the first handler that does not decline. -/
def dispatch (registry : Registry) (g : Grammar) : Parse Statement := do
  let start ← cursor
  let pending ← window registry.windowSize
  match pending with
  | [] => unexpected "statement"
  | first :: _ =>
    tryHandlers g first start (registry.candidates pending ++ registry.fallbacks)

end Parse

namespace Grammar

/-- The grammar whose parts are parsed by the given one. -/
def above (registry : Registry) (g : Grammar) : Grammar where
  expression := Parse.expression g
  operand := Parse.operand g
  pattern := Parse.pattern g
  statement := Parse.dispatch registry g
  conditional := Parse.conditional g

/-- The grammar at a level. -/
def level (registry : Registry) : Nat → Grammar
  | 0 => bottom
  | n + 1 => above registry (delay fun _ => level registry n)

/-- The grammar for a source text. At most two levels lie between one token and
    the next, so there are levels to spare. -/
def forSource (registry : Registry) (source : String) : Grammar :=
  level registry (4 * source.utf8ByteSize + 8)

end Grammar

/-- A configured parser. -/
structure Parser where
  registry : Registry
  languages : LanguageTable
  guard : Guard

namespace Parse

/-- All statements of a text. -/
def program (g : Grammar) : Parse Program := return ⟨← statements g hasMore⟩

/-- Something that makes up the whole text, separators around it apart. -/
def wholeText {α : Type} (p : Parse α) : Parse α := do
  skipSeparators
  let value ← p
  skipSeparators
  if ← check .endOfInput then return value else unexpected "end of input"

end Parse

namespace Parser

/-- The environment of a parse. -/
def env (parser : Parser) (source : String) : Parse.Env :=
  ⟨source, parser.languages, parser.guard⟩

/-- The grammar for a source text. -/
def grammar (parser : Parser) (source : String) : Grammar :=
  Grammar.forSource parser.registry source

/-- Parses a whole program. -/
def parse (parser : Parser) (source : String) : Except ParseError Program :=
  Parse.run (Parse.program (parser.grammar source)) (parser.env source)

/-- Parses a text that is one expression. -/
def parseExpression (parser : Parser) (source : String) : Except ParseError Expr :=
  Parse.run (Parse.wholeText (parser.grammar source).expression) (parser.env source)

/-- Parses a text that is one pattern. -/
def parsePattern (parser : Parser) (source : String) : Except ParseError Pattern :=
  Parse.run (Parse.wholeText (parser.grammar source).pattern) (parser.env source)

end Parser

end PolyScript
