import PolyScript.Text.Radix

/-!
# Blanks and Strings in TOML

## Main definitions

* `Toml.skipBlank`, `Toml.skipLines`: Past blanks, comments and line ends.
* `Toml.endOfLine?`: What has to follow a header or a key with its value.
* `Toml.string?`: A string in any of the four notations.
-/

namespace PolyScript

namespace Toml

/-- Drops blanks and tabs. -/
def skipBlank (cs : List Char) : List Char := cs.dropWhile fun c => c = ' ' || c = '\t'

/-- Takes a line end: a line feed, or a carriage return before one. -/
def newline? : List Char → Option (List Char)
  | '\n' :: cs => some cs
  | '\r' :: '\n' :: cs => some cs
  | _ => none

/-- Whether a character may stand in a comment. -/
def isCommentChar (c : Char) : Bool := c = '\t' || (0x20 ≤ c.toNat && c ≠ '\x7f')

/-- Drops a comment, if one begins here. -/
def skipComment : List Char → List Char
  | '#' :: cs => cs.dropWhile isCommentChar
  | cs => cs

/-- Requires that nothing but blanks and a comment is left of the line, and takes
    its end. -/
def endOfLine? (cs : List Char) : Option (List Char) :=
  match skipComment (skipBlank cs) with
  | [] => some []
  | rest => newline? rest

/-- Drops blanks, comments and line ends, for at most the given number of lines.
    A comment has to end with its line. -/
def skipLinesWithin : Nat → List Char → Option (List Char)
  | 0, cs => some cs
  | n + 1, cs =>
    match skipBlank cs with
    | '#' :: rest =>
      match newline? (rest.dropWhile isCommentChar) with
      | some rest => skipLinesWithin n rest
      | none => none
    | rest =>
      match newline? rest with
      | some rest => skipLinesWithin n rest
      | none => some rest

/-- Drops blanks, comments and line ends. -/
def skipLines (cs : List Char) : Option (List Char) := skipLinesWithin (cs.length + 1) cs

/-- Whether a character may stand in a string as it is, quotes and backslashes
    apart. -/
def isPlain (c : Char) : Bool := c = '\t' || (0x20 ≤ c.toNat && c ≠ '\x7f')

/-- The character of an escape, and what follows it. -/
def escape? : List Char → Option (Char × List Char)
  | 'b' :: cs => some ('\x08', cs)
  | 't' :: cs => some ('\t', cs)
  | 'n' :: cs => some ('\n', cs)
  | 'f' :: cs => some ('\x0c', cs)
  | 'r' :: cs => some ('\r', cs)
  | '"' :: cs => some ('"', cs)
  | '\\' :: cs => some ('\\', cs)
  | 'u' :: cs => scalarOf 4 cs
  | 'U' :: cs => scalarOf 8 cs
  | _ => none
where
  /-- The character whose code point the given number of digits denote. -/
  scalarOf (count : Nat) (cs : List Char) : Option (Char × List Char) :=
    let digits := cs.take count
    if digits.length = count && digits.all (Text.isDigitIn 16) then
      (Text.scalar? digits).map fun c => (c, cs.drop count)
    else none

/-- Reads a basic string from just after its quote. The text so far is kept in
    reverse. -/
def basic : Nat → List Char → List Char → Option (String × List Char)
  | 0, _, _ => none
  | _, _, [] => none
  | n + 1, text, c :: cs =>
    if c = '"' then some (String.ofList text.reverse, cs)
    else if c = '\\' then
      match escape? cs with
      | some (e, rest) => basic n (e :: text) rest
      | none => none
    else if isPlain c then basic n (c :: text) cs
    else none

/-- Reads a literal string from just after its quote. -/
def literal (cs : List Char) : Option (String × List Char) :=
  let (text, rest) := cs.span fun c => isPlain c && c ≠ '\''
  match rest with
  | '\'' :: rest => some (String.ofList text, rest)
  | _ => none

/-- Drops blanks and line ends. -/
def skipEmptyLines : Nat → List Char → List Char
  | 0, cs => cs
  | n + 1, cs =>
    match newline? (skipBlank cs) with
    | some rest => skipEmptyLines n rest
    | none => skipBlank cs

/-- Reads a string over several lines from just after its opening quotes. A
    closing run of quotes is three long; one or two quotes before it belong to
    the text, and so do shorter runs. With escapes, a backslash before a line end
    joins the lines. -/
def multiline (quote : Char) (escapes : Bool) :
    Nat → List Char → List Char → Option (String × List Char)
  | 0, _, _ => none
  | _, _, [] => none
  | n + 1, text, c :: cs =>
    if c = quote then
      let run := ((c :: cs).takeWhile (· = quote)).length
      if run < 3 then multiline quote escapes n (c :: text) cs
      else if run ≤ 5 then
        some (String.ofList (List.replicate (run - 3) quote ++ text).reverse, (c :: cs).drop run)
      else none
    else if escapes && c = '\\' then
      match escape? cs with
      | some (e, rest) => multiline quote escapes n (e :: text) rest
      | none =>
        match newline? (skipBlank cs) with
        | some rest => multiline quote escapes n text (skipEmptyLines rest.length rest)
        | none => none
    else
      match newline? (c :: cs) with
      | some rest => multiline quote escapes n ('\n' :: text) rest
      | none => if isPlain c then multiline quote escapes n (c :: text) cs else none

/-- Drops the line end right after the opening quotes. -/
def trimFirst (cs : List Char) : List Char := (newline? cs).getD cs

/-- Reads a string. -/
def string? : List Char → Option (String × List Char)
  | '"' :: '"' :: '"' :: cs =>
    let cs := trimFirst cs
    multiline '"' true (cs.length + 1) [] cs
  | '\'' :: '\'' :: '\'' :: cs =>
    let cs := trimFirst cs
    multiline '\'' false (cs.length + 1) [] cs
  | '"' :: cs => basic (cs.length + 1) [] cs
  | '\'' :: cs => literal cs
  | _ => none

end Toml

end PolyScript
