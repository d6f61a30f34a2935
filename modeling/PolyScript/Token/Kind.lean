/-!
# Kinds of Tokens

The kinds a token can have, the name each goes by in documents, and the wording
each has in messages.

Symbols are one table, `Kind.symbols`, in which a longer symbol stands before
every shorter one that begins it. Reading the table from the front therefore
finds the longest symbol at hand. Reserved words are a second table,
`Kind.reserved`.

## Main definitions

* `Kind`: The kinds of tokens.
* `Kind.name`: The name used in documents.
* `Kind.describe`: The wording used in messages.
* `Kind.symbols`: The symbols with their kinds.
* `Kind.keyword?`: The kind of a reserved word.

## Theorems

* `Kind.mem_all`: The list of all kinds is complete.
-/

namespace PolyScript

/-- The kinds of tokens. -/
inductive Kind where
  | number
  | string
  | identifier
  /-- The tag of a guest language. -/
  | language
  /-- A lone underscore. -/
  | underscore
  | kwTrue
  | kwFalse
  | kwNil
  | kwIf
  | kwElse
  | kwFor
  | kwIn
  | kwWhile
  | kwBreak
  | kwContinue
  | kwMatch
  | plus
  | minus
  | star
  | slash
  | percent
  | concat
  | eqEq
  | notEq
  | lt
  | gt
  | ltEq
  | gtEq
  | andAnd
  | orOr
  | bang
  | tilde
  | atSign
  | question
  | colon
  | assign
  | arrow
  | ellipsis
  | bitOpen
  | bitClose
  | pipe
  | ampersand
  | dot
  | comma
  | semicolon
  | leftParen
  | rightParen
  | leftBracket
  | rightBracket
  | leftBrace
  | rightBrace
  | newline
  | endOfInput
  deriving DecidableEq, Repr, Inhabited

namespace Kind

/-- Every kind once, in the order of the declaration. -/
def all : List Kind :=
  [number, string, identifier, language, underscore, kwTrue, kwFalse, kwNil, kwIf, kwElse,
   kwFor, kwIn, kwWhile, kwBreak, kwContinue, kwMatch, plus, minus, star, slash, percent,
   concat, eqEq, notEq, lt, gt, ltEq, gtEq, andAnd, orOr, bang, tilde, atSign, question, colon,
   assign, arrow, ellipsis, bitOpen, bitClose, pipe, ampersand, dot, comma, semicolon,
   leftParen, rightParen, leftBracket, rightBracket, leftBrace, rightBrace, newline, endOfInput]

/-- The name of a kind in configuration documents and printed trees. -/
def name : Kind → String
  | number => "number"
  | string => "string"
  | identifier => "identifier"
  | language => "language"
  | underscore => "underscore"
  | kwTrue => "true"
  | kwFalse => "false"
  | kwNil => "nil"
  | kwIf => "if"
  | kwElse => "else"
  | kwFor => "for"
  | kwIn => "in"
  | kwWhile => "while"
  | kwBreak => "break"
  | kwContinue => "continue"
  | kwMatch => "match"
  | plus => "plus"
  | minus => "minus"
  | star => "star"
  | slash => "slash"
  | percent => "percent"
  | concat => "concat"
  | eqEq => "eq_eq"
  | notEq => "not_eq"
  | lt => "lt"
  | gt => "gt"
  | ltEq => "lt_eq"
  | gtEq => "gt_eq"
  | andAnd => "and_and"
  | orOr => "or_or"
  | bang => "bang"
  | tilde => "tilde"
  | atSign => "at"
  | question => "question"
  | colon => "colon"
  | assign => "assign"
  | arrow => "arrow"
  | ellipsis => "ellipsis"
  | bitOpen => "bit_open"
  | bitClose => "bit_close"
  | pipe => "pipe_op"
  | ampersand => "ampersand"
  | dot => "dot"
  | comma => "comma"
  | semicolon => "semicolon"
  | leftParen => "l_paren"
  | rightParen => "r_paren"
  | leftBracket => "l_bracket"
  | rightBracket => "r_bracket"
  | leftBrace => "l_brace"
  | rightBrace => "r_brace"
  | newline => "newline"
  | endOfInput => "eof"

/-- The kind that goes by a name. -/
def ofName? (s : String) : Option Kind := all.find? fun k => k.name = s

/-- The wording of a kind in messages. -/
def describe : Kind → String
  | number => "number"
  | string => "string"
  | identifier => "identifier"
  | language => "language tag"
  | underscore => "'_'"
  | kwTrue => "'true'"
  | kwFalse => "'false'"
  | kwNil => "'nil'"
  | kwIf => "'if'"
  | kwElse => "'else'"
  | kwFor => "'for'"
  | kwIn => "'in'"
  | kwWhile => "'while'"
  | kwBreak => "'break'"
  | kwContinue => "'continue'"
  | kwMatch => "'match'"
  | plus => "'+'"
  | minus => "'-'"
  | star => "'*'"
  | slash => "'/'"
  | percent => "'%'"
  | concat => "'..'"
  | eqEq => "'=='"
  | notEq => "'!='"
  | lt => "'<'"
  | gt => "'>'"
  | ltEq => "'<='"
  | gtEq => "'>='"
  | andAnd => "'&&'"
  | orOr => "'||'"
  | bang => "'!'"
  | tilde => "'~'"
  | atSign => "'@'"
  | question => "'?'"
  | colon => "':'"
  | assign => "'='"
  | arrow => "'->'"
  | ellipsis => "'...'"
  | bitOpen => "'<<'"
  | bitClose => "'>>'"
  | pipe => "'|>'"
  | ampersand => "'&'"
  | dot => "'.'"
  | comma => "','"
  | semicolon => "';'"
  | leftParen => "'('"
  | rightParen => "')'"
  | leftBracket => "'['"
  | rightBracket => "']'"
  | leftBrace => "'\x7b'"
  | rightBrace => "'\x7d'"
  | newline => "newline"
  | endOfInput => "end of input"

/-- The symbols with their kinds. A symbol stands before every shorter one that
    begins it. -/
def symbols : List (List Char × Kind) :=
  [(['.', '.', '.'], ellipsis), (['.', '.'], concat), (['.'], dot),
   (['<', '<'], bitOpen), (['<', '='], ltEq), (['<'], lt),
   (['>', '>'], bitClose), (['>', '='], gtEq), (['>'], gt),
   (['-', '>'], arrow), (['-'], minus),
   (['=', '='], eqEq), (['='], assign),
   (['!', '='], notEq), (['!'], bang),
   (['&', '&'], andAnd), (['&'], ampersand),
   (['|', '|'], orOr), (['|', '>'], pipe),
   (['+'], plus), (['*'], star), (['/'], slash), (['%'], percent), (['~'], tilde),
   (['@'], atSign), (['?'], question), ([':'], colon), ([','], comma), ([';'], semicolon),
   (['('], leftParen), ([')'], rightParen), (['['], leftBracket), ([']'], rightBracket),
   (['\x7b'], leftBrace), (['\x7d'], rightBrace)]

/-- The words that are no plain identifiers, with their kinds. -/
def reserved : List (String × Kind) :=
  [("if", kwIf), ("else", kwElse), ("for", kwFor), ("in", kwIn), ("while", kwWhile),
   ("break", kwBreak), ("continue", kwContinue), ("match", kwMatch), ("true", kwTrue),
   ("false", kwFalse), ("nil", kwNil), ("lua", language), ("python", language),
   ("py", language), ("go", language), ("node", language), ("js", language),
   ("_", underscore)]

/-- The kind of a reserved word. -/
def keyword? (word : String) : Option Kind := reserved.lookup word

/-- The kind of a word: reserved, or else a plain identifier. -/
def ofWord (word : String) : Kind := (keyword? word).getD identifier

/-- Whether a token of this kind ends a statement. -/
def isTerminator : Kind → Bool
  | newline | semicolon | endOfInput | rightBrace => true
  | _ => false

/-- Whether a token of this kind is a literal of its own. -/
def isLiteral : Kind → Bool
  | number | string | kwTrue | kwFalse | kwNil => true
  | _ => false

theorem mem_all (k : Kind) : k ∈ all := by
  cases k <;> decide

end Kind

end PolyScript
