import PolyScript.Lexer.Scan
import PolyScript.Token.Basic

/-!
# The Lexer

Reads one token at a time. Line feeds, blank lines and lines that hold only a
comment collapse into a single newline token, which spans the first line feed.

The lexer has two modes. In size mode a dash never continues a name; the mode is
switched on while the size of a bit string segment is read. Since a token
depends only on the mode and on the unread characters, the lexer can be set back
to any place and read on from there in the other mode.

After an error the lexer stands where the scan stopped.

## Main definitions

* `Lexer`: A source text, a place in it and the mode.
* `Lexer.next`: The next token.
* `Lexer.resetTo`: The lexer set to another place.
* `Lexer.tokenize`: All tokens up to the end of the text.
-/

namespace PolyScript

/-- A lexer in the middle of a source text. -/
structure Lexer where
  source : String
  cursor : Cursor
  /-- While set, a dash never continues a name. -/
  sizeMode : Bool

namespace Lexer

/-- A lexer at the start of a text. -/
def ofSource (source : String) : Lexer :=
  ⟨source, ⟨source.toList, Position.start⟩, false⟩

/-- The place of the next unread character. -/
def location (lx : Lexer) : Position := lx.cursor.here

/-- What is left of a text after the given number of bytes. A cut inside a
    character moves to its end. -/
def dropBytes : Nat → List Char → List Char
  | _, [] => []
  | 0, cs => cs
  | n, c :: cs => dropBytes (n - c.utf8Size) cs

/-- Sets the lexer to another place of its text. -/
def resetTo (lx : Lexer) (p : Position) : Lexer :=
  { lx with cursor := ⟨dropBytes p.offset lx.source.toList, p⟩ }

/-- The first symbol of the table that the text begins with, and with it the
    longest one. -/
def symbol? (cs : List Char) : Option (List Char × Kind) :=
  Kind.symbols.find? fun s => s.1.isPrefixOf cs

/-- Reads a token that begins right at the cursor. -/
def scanToken (sizeMode : Bool) (cs : List Char) (start : Position) :
    Except LexError Token × Cursor :=
  match cs with
  | [] => (.ok (Token.endAt start), ⟨[], start⟩)
  | c :: tail =>
    if c = '\n' then
      (.ok ⟨.newline, "\n", start, start.offset + 1⟩, skipBlank true false cs start)
    else if c = '"' ∨ c = '\'' then
      match scanString c start none [] tail (start.advance c) with
      | (.ok text, after) => (.ok ⟨.string, text, start, after.here.offset⟩, after)
      | (.error e, after) => (.error e, after)
    else if c.isDigit then
      let number := splitNumber cs
      let after : Cursor := ⟨number.rest, start.advanceAll number.text⟩
      if number.wellFormed then
        (.ok ⟨.number, String.ofList number.text, start, after.here.offset⟩, after)
      else (.error (.invalidNumber (String.ofList number.text) start), after)
    else if isNameStart c then
      let (word, rest) := splitWord sizeMode cs
      let after : Cursor := ⟨rest, start.advanceAll word⟩
      let name := String.ofList word
      (.ok ⟨Kind.ofWord name, name, start, after.here.offset⟩, after)
    else
      match symbol? cs with
      | some (text, kind) =>
        let after : Cursor := ⟨cs.drop text.length, start.advanceAll text⟩
        (.ok ⟨kind, String.ofList text, start, after.here.offset⟩, after)
      | none => (.error (.unexpectedCharacter c start), ⟨cs, start⟩)

/-- Reads the next token. -/
def next (lx : Lexer) : Except LexError Token × Lexer :=
  let start := skipBlank false false lx.cursor.rest lx.cursor.here
  let (result, after) := scanToken lx.sizeMode start.rest start.here
  (result, { lx with cursor := after })

/-- The next token, without moving on. -/
def peek (lx : Lexer) : Except LexError Token := lx.next.1

/-- Reads at most the given number of tokens, and none past the end of the
    text. -/
def tokenizeWithin : Nat → Lexer → Except LexError (List Token)
  | 0, _ => .ok []
  | n + 1, lx =>
    match lx.next with
    | (.ok token, after) =>
      if token.isEnd then .ok [token]
      else
        match tokenizeWithin n after with
        | .ok tokens => .ok (token :: tokens)
        | .error e => .error e
    | (.error e, _) => .error e

/-- Reads all tokens. The last one, and no other, marks the end of the text.
    Every other token takes a character at least, so the unread characters bound
    their number. -/
def tokenize (lx : Lexer) : Except LexError (List Token) :=
  tokenizeWithin (lx.cursor.rest.length + 1) lx

end Lexer

end PolyScript
