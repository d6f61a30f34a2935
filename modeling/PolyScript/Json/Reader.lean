import PolyScript.Json.Number
import PolyScript.Text.Radix

/-!
# Reading Documents

The text of one document, with white space around it and nothing else. Objects
come out with their members sorted by name, the last of each name kept. Arrays
and objects may nest `Json.maxNesting` deep.

The nesting that is still allowed is the argument of the recursion, so reading
ends on every text without appeal to its length; the length bounds the number of
items of one array or object.

## Main definitions

* `Json.parse?`: The document that a text denotes.
-/

namespace PolyScript

namespace Json

/-- How deep arrays and objects may nest. -/
def maxNesting : Nat := 127

/-- Whether a character may stand between the parts of a document. -/
def isSpace (c : Char) : Bool := c = ' ' || c = '\n' || c = '\t' || c = '\r'

/-- Drops white space. -/
def skipSpace (cs : List Char) : List Char := cs.dropWhile isSpace

/-- The code unit that four hexadecimal digits denote. -/
def codeUnit? (a b c d : Char) : Option Nat := Text.natInRadix? 16 [a, b, c, d]

/-- The character that a one-letter escape denotes. -/
def unescape? (c : Char) : Option Char :=
  if c = '"' ∨ c = '\\' ∨ c = '/' then some c
  else if c = 'b' then some '\x08'
  else if c = 'f' then some '\x0c'
  else if c = 'n' then some '\n'
  else if c = 'r' then some '\r'
  else if c = 't' then some '\t'
  else none

/-- Reads a string from just after its opening quote. The text so far is kept in
    reverse, and `high` holds a leading surrogate that waits for its trailing
    one. Control characters have to be escaped, and a surrogate has to be one of
    a pair. -/
def readString : Option Nat → List Char → List Char → Option (String × List Char)
  | none, text, '\\' :: 'u' :: a :: b :: c :: d :: cs =>
    match codeUnit? a b c d with
    | some unit =>
      if 0xd800 ≤ unit ∧ unit < 0xdc00 then readString (some unit) text cs
      else if 0xdc00 ≤ unit ∧ unit < 0xe000 then none
      else readString none (Char.ofNat unit :: text) cs
    | none => none
  | some high, text, '\\' :: 'u' :: a :: b :: c :: d :: cs =>
    match codeUnit? a b c d with
    | some unit =>
      if 0xdc00 ≤ unit ∧ unit < 0xe000 then
        let scalar := 0x10000 + (high - 0xd800) * 0x400 + (unit - 0xdc00)
        readString none (Char.ofNat scalar :: text) cs
      else none
    | none => none
  | some _, _, _ => none
  | none, text, '\\' :: e :: cs =>
    match unescape? e with
    | some c => readString none (c :: text) cs
    | none => none
  | none, text, c :: cs =>
    if c = '"' then some (String.ofList text.reverse, cs)
    else if c = '\\' ∨ c.toNat < 0x20 then none
    else readString none (c :: text) cs
  | none, _, [] => none

/-- Reads one item and all that follow it, up to the closing bracket. -/
def readItems (item : List Char → Option (Json × List Char)) :
    Nat → List Char → Option (List Json × List Char)
  | 0, _ => none
  | n + 1, cs =>
    match item cs with
    | none => none
    | some (j, rest) =>
      match skipSpace rest with
      | ',' :: rest =>
        match readItems item n rest with
        | some (items, rest) => some (j :: items, rest)
        | none => none
      | ']' :: rest => some ([j], rest)
      | _ => none

/-- Reads one member and all that follow it, up to the closing brace. -/
def readMembers (item : List Char → Option (Json × List Char)) :
    Nat → List Char → Option (List (String × Json) × List Char)
  | 0, _ => none
  | n + 1, cs =>
    match skipSpace cs with
    | '"' :: cs =>
      match readString none [] cs with
      | none => none
      | some (name, rest) =>
        match skipSpace rest with
        | ':' :: rest =>
          match item rest with
          | none => none
          | some (j, rest) =>
            match skipSpace rest with
            | ',' :: rest =>
              match readMembers item n rest with
              | some (members, rest) => some ((name, j) :: members, rest)
              | none => none
            | '\x7d' :: rest => some ([(name, j)], rest)
            | _ => none
        | _ => none
    | _ => none

/-- Reads a document that is neither an array nor an object. -/
def readScalar : List Char → Option (Json × List Char)
  | 'n' :: 'u' :: 'l' :: 'l' :: cs => some (null, cs)
  | 't' :: 'r' :: 'u' :: 'e' :: cs => some (bool true, cs)
  | 'f' :: 'a' :: 'l' :: 's' :: 'e' :: cs => some (bool false, cs)
  | '"' :: cs => (readString none [] cs).map fun r => (string r.1, r.2)
  | cs => Number.read? cs

/-- Reads a document in which arrays and objects may nest to the given depth. -/
def readValue : Nat → List Char → Option (Json × List Char)
  | 0, cs =>
    match skipSpace cs with
    | '[' :: _ | '\x7b' :: _ => none
    | cs => readScalar cs
  | depth + 1, cs =>
    match skipSpace cs with
    | '[' :: cs =>
      match skipSpace cs with
      | ']' :: rest => some (array [], rest)
      | cs => (readItems (readValue depth) cs.length cs).map fun r => (array r.1, r.2)
    | '\x7b' :: cs =>
      match skipSpace cs with
      | '\x7d' :: rest => some (object [], rest)
      | cs => (readMembers (readValue depth) cs.length cs).map fun r => (ofMembers r.1, r.2)
    | cs => readScalar cs

/-- The document that a text denotes. -/
def parse? (text : String) : Option Json :=
  match readValue maxNesting text.toList with
  | some (j, rest) => if (skipSpace rest).isEmpty then some j else none
  | none => none

end Json

end PolyScript
