import PolyScript.Text.Visible

/-!
# Quoted Text

How a message shows a piece of text: in double quotes, on one line, with every
character either standing for itself or spelled by an escape. A single quote is
never escaped, because it cannot end the text.

## Main definitions

* `quoted`: The text in double quotes.
-/

namespace PolyScript

namespace Text

/-- The spelling of one character inside double quotes. -/
def quotedChar (c : Char) : List Char :=
  if c = '\x00' then ['\\', '0']
  else if c = '\t' then ['\\', 't']
  else if c = '\r' then ['\\', 'r']
  else if c = '\n' then ['\\', 'n']
  else if c = '"' then ['\\', '"']
  else if c = '\\' then ['\\', '\\']
  else if isVisible c then [c]
  else ['\\', 'u', '\x7b'] ++ Nat.toDigits 16 c.toNat ++ ['\x7d']

/-- The text in double quotes. -/
def quoted (s : String) : String :=
  String.ofList ('"' :: s.toList.flatMap quotedChar ++ ['"'])

end Text

end PolyScript
