import PolyScript.Handler.Settings
import PolyScript.Parse.Grammar

/-!
# Handlers

A handler parses one construct, or declines. The statement dispatcher asks
handlers one after the other; an error of a handler is final, while declining
passes the question on.

## Main definitions

* `Handler`: Settings, a filter on the leading token, and a parser.
-/

namespace PolyScript

/-- A handler. -/
structure Handler where
  settings : HandlerSettings
  /-- Whether the handler may be asked at all for a leading token. -/
  canHandle : Token → Bool
  /-- Parses the construct, or declines with nothing. -/
  parse : Grammar → Parse (Option Statement)

namespace Handler

/-- The usual filter: a token passes if a pattern for the leading token accepts
    it, or if a pattern for a later token might still accept its own. -/
def leadingFilter (settings : HandlerSettings) (token : Token) : Bool :=
  settings.patterns.any fun p => 0 < p.offset || p.accepts token

/-- Whether the first handler is tried no later than the second. -/
def triedBefore (a b : Handler) : Bool := a.settings.triedBefore b.settings

end Handler

end PolyScript
