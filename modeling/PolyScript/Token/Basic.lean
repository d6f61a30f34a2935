import PolyScript.Position
import PolyScript.Text.Quoted
import PolyScript.Token.Kind

/-!
# Tokens

A token is a kind, a text and a span of the source. The text of a string token
is the text it denotes, with escapes resolved; any other token carries its own
spelling.

## Main definitions

* `Token`: A token with its span.
* `Token.describe`: The wording used in messages.
-/

namespace PolyScript

/-- A token: its kind, its text, where it begins and the byte offset just past
    it. -/
structure Token where
  kind : Kind
  text : String
  position : Position
  stop : Nat
  deriving DecidableEq, Repr, Inhabited

namespace Token

/-- How messages name a token. Kinds with a varying spelling show it. -/
def describe (t : Token) : String :=
  match t.kind with
  | .number | .identifier | .language => t.kind.describe ++ " '" ++ t.text ++ "'"
  | .string => "string " ++ Text.quoted t.text
  | k => k.describe

/-- The token that stands for the end of the text. -/
def endAt (p : Position) : Token := ⟨.endOfInput, "", p, p.offset⟩

/-- Whether this is the token at the end of the text. -/
def isEnd (t : Token) : Bool := t.kind = .endOfInput

end Token

end PolyScript
