import PolyScript.Tree.Pattern

/-!
# Statements

The tree of a statement and of a whole program.

## Main definitions

* `Statement`: A statement.
* `Block`: Statements in braces.
* `MatchArm`: A pattern and what to do if it matches.
* `Program`: The statements of a source text.
-/

namespace PolyScript

mutual

/-- A statement. -/
inductive Statement where
  | assignment (target value : Expr) (position : Position)
  | expression (expr : Expr) (position : Position)
  /-- A conditional. One that follows an else directly is the only statement of
      the else block. -/
  | conditional (condition : Expr) (onTrue : Block) (onFalse : Option Block)
      (position : Position)
  | forIn (names : List String) (iterable : Expr) (body : Block) (position : Position)
  /-- A loop over the numbers from `first` to `last`. -/
  | numericFor (name : String) (first last : Expr) (step : Option Expr) (body : Block)
      (position : Position)
  | whileLoop (condition : Expr) (body : Block) (position : Position)
  | breakLoop (token : Token)
  | continueLoop (token : Token)
  | block (body : Block)
  /-- Guest code taken word for word. -/
  | codeBlock (language : String) (captures : List String) (code : String)
      (position : Position)
  /-- A guest call or a pipe as a statement; in the background if a trailing
      ampersand says so. -/
  | languageCall (call : Expr) (background : Bool) (position : Position)
  | select (scrutinee : Expr) (arms : List MatchArm) (position : Position)

/-- Statements in braces, or the single statement after a colon. -/
inductive Block where
  | mk (statements : List Statement) (position : Position)

/-- One arm of a match statement. -/
inductive MatchArm where
  | mk (pattern : Pattern) (body : Statement) (position : Position)

end

namespace Block

/-- The statements of a block. -/
def statements : Block → List Statement
  | mk s _ => s

/-- The place of a block. -/
def position : Block → Position
  | mk _ p => p

end Block

namespace MatchArm

/-- The pattern of an arm. -/
def pattern : MatchArm → Pattern
  | mk p _ _ => p

/-- What to do if the pattern matches. -/
def body : MatchArm → Statement
  | mk _ b _ => b

/-- The place of an arm. -/
def position : MatchArm → Position
  | mk _ _ p => p

end MatchArm

/-- The place of the first token of a statement. -/
def Statement.position : Statement → Position
  | assignment _ _ p | expression _ p | conditional _ _ _ p | forIn _ _ _ p
  | numericFor _ _ _ _ _ p | whileLoop _ _ p | codeBlock _ _ _ p | languageCall _ _ p
  | select _ _ p => p
  | breakLoop t | continueLoop t => t.position
  | block b => b.position

instance : Inhabited Statement := ⟨.block (.mk [] default)⟩

/-- The statements of a source text. -/
structure Program where
  statements : List Statement
  deriving Inhabited

end PolyScript
