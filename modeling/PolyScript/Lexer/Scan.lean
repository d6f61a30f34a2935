import PolyScript.Lexer.Error
import PolyScript.Text.Blank
import PolyScript.Text.Numeric
import PolyScript.Text.Radix

/-!
# Scanning Lexemes

The leaves of the lexer: what separates tokens, and how far a word, a number or
a string literal reaches. Each function takes the unread characters and splits
them; none of them can lose a character. Words and numbers are split without
regard to where they stand. Strings need positions, because an error inside one
is reported at its own place.

## Main definitions

* `Cursor`: The unread characters together with the place they begin.
* `skipBlank`: Past white space and comments.
* `splitWord`: A name and what follows it.
* `splitNumber`: A number and what follows it.
* `scanString`: The text that a string literal denotes.
-/

namespace PolyScript

/-- A place in a text: what is still unread, and where that begins. -/
structure Cursor where
  rest : List Char
  here : Position
  deriving DecidableEq, Repr, Inhabited

namespace Lexer

/-- Whether a comment begins here: a number sign or two slashes. -/
def startsComment : List Char → Bool
  | '#' :: _ => true
  | '/' :: '/' :: _ => true
  | _ => false

/-- Skips white space and comments. A line feed stops the skipping unless
    `acrossLines` is set; it always ends a comment. The flag says whether the
    characters at hand belong to a comment. -/
def skipBlank (acrossLines : Bool) : Bool → List Char → Position → Cursor
  | _, [], p => ⟨[], p⟩
  | true, c :: cs, p =>
    if c = '\n' then
      if acrossLines then skipBlank acrossLines false cs (p.advance c) else ⟨c :: cs, p⟩
    else skipBlank acrossLines true cs (p.advance c)
  | false, c :: cs, p =>
    if Text.isBlank c && (acrossLines || c ≠ '\n') then
      skipBlank acrossLines false cs (p.advance c)
    else if startsComment (c :: cs) then skipBlank acrossLines true cs (p.advance c)
    else ⟨c :: cs, p⟩

/-- Whether a character may begin a name. -/
def isNameStart (c : Char) : Bool := Text.isAlphabetic c || c = '_'

/-- Whether a character continues a name wherever it stands. -/
def isNamePart (c : Char) : Bool := Text.isAlphanumeric c || c = '_'

/-- Splits off a name. A dash continues it if a letter follows; in size mode a
    dash never does, so that `n-1` and `len-m` are subtractions. -/
def splitWord (sizeMode : Bool) : List Char → List Char × List Char
  | [] => ([], [])
  | c :: cs =>
    if isNamePart c || (c = '-' && !sizeMode && cs.head?.any Text.isAlphabetic) then
      let (word, rest) := splitWord sizeMode cs
      (c :: word, rest)
    else ([], c :: cs)

/-- The radix that the letter after a leading zero announces. -/
def radix? (c : Char) : Option Nat :=
  if c = 'x' ∨ c = 'X' then some 16
  else if c = 'b' ∨ c = 'B' then some 2
  else if c = 'o' ∨ c = 'O' then some 8
  else none

/-- A number split off the text. It is well formed if it has digits and does not
    run into a name. -/
structure NumberSplit where
  text : List Char
  rest : List Char
  wellFormed : Bool
  deriving DecidableEq, Repr

/-- Splits off the digits of a number in a radix other than ten, after the
    `mark` that announces it. Underscores may stand anywhere among them. -/
def splitRadix (radix : Nat) (mark : List Char) (cs : List Char) : NumberSplit :=
  let (digits, rest) := cs.span fun c => Text.isDigitIn radix c || c = '_'
  ⟨mark ++ digits, rest,
    digits.any (Text.isDigitIn radix) && !rest.head?.any Text.isAlphanumeric⟩

/-- Whether a character belongs to a run of decimal digits. -/
def isDecimalPart (c : Char) : Bool := c.isDigit || c = '_'

/-- Splits off a fraction: a point that a digit follows, and its digits. -/
def splitFraction : List Char → List Char × List Char
  | '.' :: d :: cs =>
    if d.isDigit then
      let (digits, rest) := (d :: cs).span isDecimalPart
      ('.' :: digits, rest)
    else ([], '.' :: d :: cs)
  | cs => ([], cs)

/-- Splits off the sign of an exponent. -/
def splitSign : List Char → List Char × List Char
  | c :: cs => if c = '+' ∨ c = '-' then ([c], cs) else ([], c :: cs)
  | [] => ([], [])

/-- Splits off an exponent: its mark, a sign or none, and at least one digit. -/
def splitExponent : List Char → List Char × List Char
  | e :: cs =>
    if e = 'e' ∨ e = 'E' then
      let (sign, unsigned) := splitSign cs
      let (digits, rest) := unsigned.span Char.isDigit
      if digits.isEmpty then ([], e :: cs) else (e :: sign ++ digits, rest)
    else ([], e :: cs)
  | [] => ([], [])

/-- Splits off a decimal number: digits, a fraction or none, an exponent or
    none. -/
def splitDecimal (cs : List Char) : NumberSplit :=
  let (whole, afterWhole) := cs.span isDecimalPart
  let (fraction, afterFraction) := splitFraction afterWhole
  let (exponent, rest) := splitExponent afterFraction
  ⟨whole ++ fraction ++ exponent, rest, !rest.head?.any isNameStart⟩

/-- Splits off a number. -/
def splitNumber : List Char → NumberSplit
  | '0' :: c :: cs =>
    match radix? c with
    | some radix => splitRadix radix ['0', c] cs
    | none => splitDecimal ('0' :: c :: cs)
  | cs => splitDecimal cs

/-- The character that a one-letter escape denotes. -/
def escaped? (c : Char) : Option Char :=
  if c = 'n' then some '\n'
  else if c = 't' then some '\t'
  else if c = 'r' then some '\r'
  else if c = '0' then some '\x00'
  else if c = '"' ∨ c = '\'' ∨ c = '\\' then some c
  else none

/-- Reads a string literal from just after its opening quote, which stands at
    `start`. The text read so far is kept in reverse. Inside a code point escape
    `escape` holds the place of its backslash and the digits so far, in reverse;
    such an escape runs to the next closing brace, over line ends too. The
    cursor of a failure is where the scan stopped. -/
def scanString (quote : Char) (start : Position) :
    Option (Position × List Char) → List Char → List Char → Position →
      Except LexError String × Cursor
  | none, _, [], p => (.error (.unterminatedString start), ⟨[], p⟩)
  | some (escape, digits), _, [], p =>
    (.error (.invalidEscape (String.ofList ('u' :: digits.reverse)) escape), ⟨[], p⟩)
  | some (escape, digits), text, c :: cs, p =>
    if c = '\x7d' then
      match Text.scalar? digits.reverse with
      | some scalar => scanString quote start none (scalar :: text) cs (p.advance c)
      | none =>
        (.error (.invalidEscape (String.ofList ('u' :: digits.reverse)) escape),
          ⟨cs, p.advance c⟩)
    else scanString quote start (some (escape, c :: digits)) text cs (p.advance c)
  | none, text, c :: cs, p =>
    if c = quote then (.ok (String.ofList text.reverse), ⟨cs, p.advance c⟩)
    else if c = '\n' then (.error (.unterminatedString start), ⟨c :: cs, p⟩)
    else if c = '\\' then
      match cs with
      | [] => (.error (.unterminatedString start), ⟨[], p.advance c⟩)
      | e :: cs' =>
        match escaped? e with
        | some char =>
          scanString quote start none (char :: text) cs' ((p.advance c).advance e)
        | none =>
          if e = 'u' then
            match cs' with
            | b :: cs'' =>
              if b = '\x7b' then
                scanString quote start (some (p, [])) text cs''
                  (((p.advance c).advance e).advance b)
              else (.error (.invalidEscape "u" p), ⟨cs', (p.advance c).advance e⟩)
            | [] => (.error (.invalidEscape "u" p), ⟨[], (p.advance c).advance e⟩)
          else (.error (.invalidEscape e.toString p), ⟨e :: cs', p.advance c⟩)
    else scanString quote start none (c :: text) cs (p.advance c)

end Lexer

end PolyScript
