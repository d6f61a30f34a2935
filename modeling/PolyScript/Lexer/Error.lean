import PolyScript.Position

/-!
# Lexical Errors

The four ways in which a text can fail to be a sequence of tokens.

## Main definitions

* `LexError`: A cause together with its place.
* `LexError.message`: Its wording.
-/

namespace PolyScript

/-- Why the next token cannot be read. -/
inductive LexError where
  /-- A character that begins no token. -/
  | unexpectedCharacter (char : Char) (position : Position)
  /-- A string that the line or the text ends before its closing quote. The
      place is that of the opening quote. -/
  | unterminatedString (position : Position)
  /-- A backslash that begins no escape. The sequence is what follows it. -/
  | invalidEscape (sequence : String) (position : Position)
  /-- A number without digits, or one that runs into a name. The text is what
      was read of it. -/
  | invalidNumber (text : String) (position : Position)
  deriving DecidableEq, Repr, Inhabited

namespace LexError

/-- The place of the error. -/
def position : LexError → Position
  | unexpectedCharacter _ p | unterminatedString p | invalidEscape _ p | invalidNumber _ p => p

/-- What the error is about: the character, the escape or the number. -/
def detail : LexError → String
  | unexpectedCharacter c _ => c.toString
  | unterminatedString _ => ""
  | invalidEscape s _ => s
  | invalidNumber s _ => s

/-- The wording of the error. -/
def message : LexError → String
  | unexpectedCharacter c p => "unexpected character '" ++ c.toString ++ "' at " ++ p.describe
  | unterminatedString p => "unterminated string starting at " ++ p.describe
  | invalidEscape s p => "invalid escape sequence '\\" ++ s ++ "' at " ++ p.describe
  | invalidNumber s p => "malformed number '" ++ s ++ "' at " ++ p.describe

end LexError

end PolyScript
