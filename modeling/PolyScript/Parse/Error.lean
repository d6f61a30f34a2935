import PolyScript.Lexer.Error
import PolyScript.Token.Basic

/-!
# Parse Errors

Why a source text has no tree. A parse ends with at most one error and then
gives no tree at all.

## Main definitions

* `ParseError`: A cause together with its place.
* `ParseError.message`: Its wording.
-/

namespace PolyScript

/-- Why a source text cannot be parsed. -/
inductive ParseError where
  /-- A token other than what the grammar requires. -/
  | unexpected (expected found : String) (position : Position)
  /-- A bracket that was opened and is not closed. -/
  | unclosed (delimiter : Kind) (openedAt : Position) (found : String) (position : Position)
  /-- A construct that is not accepted where it stands. -/
  | unsupported (construct reason : String) (position : Position)
  /-- A loop control word outside a loop. -/
  | outsideLoop (keyword : String) (position : Position)
  /-- Nesting beyond the limit. -/
  | tooDeep (maxDepth : Nat) (position : Position)
  | unknownLanguage (name : String) (position : Position)
  /-- A statement that every handler declines. -/
  | noHandler (token : String) (position : Position)
  | lexical (error : LexError)
  deriving DecidableEq, Repr, Inhabited

namespace ParseError

/-- The place of the error. -/
def position : ParseError → Position
  | unexpected _ _ p | unclosed _ _ _ p | unsupported _ _ p | outsideLoop _ p | tooDeep _ p
  | unknownLanguage _ p | noHandler _ p => p
  | lexical e => e.position

/-- The wording of the error. -/
def message : ParseError → String
  | unexpected expected found p => p.describe ++ ": expected " ++ expected ++ ", found " ++ found
  | unclosed delimiter openedAt found p =>
    p.describe ++ ": " ++ delimiter.describe ++ " opened at " ++ openedAt.describe ++
      " is not closed, found " ++ found
  | unsupported construct reason p =>
    p.describe ++ ": " ++ construct ++ " is not supported here: " ++ reason
  | outsideLoop keyword p =>
    p.describe ++ ": '" ++ keyword ++ "' can only be used inside a loop"
  | tooDeep maxDepth p =>
    p.describe ++ ": nesting exceeds the maximum depth of " ++ toString maxDepth
  | unknownLanguage name p => p.describe ++ ": unknown language '" ++ name ++ "'"
  | noHandler token p =>
    p.describe ++ ": no handler accepts a statement starting with " ++ token
  | lexical e => e.message

/-- The error of finding a token where the grammar requires something else. -/
def unexpectedToken (expected : String) (found : Token) : ParseError :=
  unexpected expected found.describe found.position

end ParseError

end PolyScript
