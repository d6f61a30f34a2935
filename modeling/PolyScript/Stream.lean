import PolyScript.Lexer.Basic

/-!
# Token Streams

A parser looks ahead by an amount that depends on what it sees, and sometimes
asks for the text to be read again in another mode. A `TokenBuffer` therefore
reads tokens on demand and keeps them; a cursor into it is a plain index, so a
throwaway copy of a cursor costs nothing and disturbs nothing.

A lexical error does not interrupt the reader of a buffer. The token that cannot
be read counts as the end of the text, and the error is kept to be reported
later. It is known only once some reader has come that far, and it is forgotten
when the tokens from there on are dropped.

## Main definitions

* `TokenBuffer`: The tokens read so far and the lexer that yields more.
* `TokenBuffer.fill`: Reads far enough for an index.
* `TokenBuffer.restart`: Drops tokens and reads on from another place.
* `TokenBuffer.setSizeMode`: Switches the mode at a cursor.
* `TokenBuffer.peek`, `TokenBuffer.window`, `TokenBuffer.consume`: Reading at a
  cursor.
-/

namespace PolyScript

/-- The tokens read so far, and the lexer that yields more. -/
structure TokenBuffer where
  lexer : Lexer
  tokens : Array Token
  /-- Whether the last token read marks the end of the text. -/
  finished : Bool
  /-- The index at which reading failed, and why. -/
  failure : Option (Nat × LexError)

namespace TokenBuffer

/-- A buffer that has read nothing yet. -/
def ofLexer (lexer : Lexer) : TokenBuffer := ⟨lexer, #[], false, none⟩

/-- A buffer over a source text. -/
def ofSource (source : String) : TokenBuffer := ofLexer (Lexer.ofSource source)

/-- Reads one more token. One that cannot be read counts as the end of the
    text. -/
def readOne (b : TokenBuffer) : TokenBuffer :=
  match b.lexer.next with
  | (.ok token, lexer) =>
    { b with lexer, tokens := b.tokens.push token, finished := token.isEnd }
  | (.error e, lexer) =>
    { lexer
      tokens := b.tokens.push (Token.endAt e.position)
      finished := true
      failure := some (b.tokens.size, e) }

/-- Reads up to the given number of further tokens, and none past the end. -/
def readMore : Nat → TokenBuffer → TokenBuffer
  | 0, b => b
  | n + 1, b => if b.finished then b else readMore n b.readOne

/-- Reads until the buffer holds a token at the index, or the text ends. -/
def fill (b : TokenBuffer) (index : Nat) : TokenBuffer :=
  readMore (index + 1 - b.tokens.size) b

/-- Drops the tokens from the index on and reads on at another place. -/
def restart (b : TokenBuffer) (index : Nat) (resume : Position) : TokenBuffer :=
  { lexer := b.lexer.resetTo resume
    tokens := b.tokens.take index
    finished := false
    failure := b.failure.filter fun f => f.1 < index }

/-- Switches the mode of the lexer. Tokens from the cursor on were read in the
    other mode; they are dropped and read again. -/
def setSizeMode (b : TokenBuffer) (cursor : Nat) (enabled : Bool) : TokenBuffer :=
  if b.lexer.sizeMode = enabled then b
  else
    let resume :=
      match b.tokens[cursor]? with
      | some token => token.position
      | none => b.lexer.location
    let restarted := b.restart cursor resume
    { restarted with lexer := { restarted.lexer with sizeMode := enabled } }

/-- The token at an index of a filled buffer. Past the end this is the last
    token. -/
def get (b : TokenBuffer) (index : Nat) : Token :=
  match b.tokens[index]? with
  | some token => token
  | none => b.tokens.back?.getD (Token.endAt b.lexer.location)

/-- The token a number of places after the cursor. -/
def peek (b : TokenBuffer) (cursor : Nat) (n : Nat) : Token × TokenBuffer :=
  let filled := b.fill (cursor + n)
  (filled.get (cursor + n), filled)

/-- Up to `count` tokens from the `n`-th after the cursor on; the end of the
    text is the last of them. -/
def windowFrom (cursor : Nat) : Nat → Nat → TokenBuffer → List Token × TokenBuffer
  | 0, _, b => ([], b)
  | count + 1, n, b =>
    let (token, b) := b.peek cursor n
    if token.isEnd then ([token], b)
    else
      let (tokens, b) := windowFrom cursor count (n + 1) b
      (token :: tokens, b)

/-- Up to `count` pending tokens. -/
def window (b : TokenBuffer) (cursor : Nat) (count : Nat) : List Token × TokenBuffer :=
  windowFrom cursor count 0 b

/-- The current token and the cursor after it. A cursor never moves past the end
    of the text. -/
def consume (b : TokenBuffer) (cursor : Nat) : Token × Nat × TokenBuffer :=
  let (token, b) := b.peek cursor 0
  (token, if token.isEnd then cursor else cursor + 1, b)

/-- The error that some reader has come to. -/
def lexError? (b : TokenBuffer) : Option LexError := b.failure.map Prod.snd

end TokenBuffer

end PolyScript
