import PolyScript.Parse.Statement

/-!
# Handlers of the Language

The handler that settings describe: the construct selects the rule, and the rest
of the settings say when it is tried. A construct that begins with a keyword is
declined without it.

## Main definitions

* `Handler.builtin`: The handler of some settings.
-/

namespace PolyScript

/-- The kind of token that has to begin a construct, if there is one. -/
def Construct.keyword? : Construct → Option Kind
  | conditional => some .kwIf
  | select => some .kwMatch
  | forIn | numericFor => some .kwFor
  | whileLoop => some .kwWhile
  | breakLoop => some .kwBreak
  | continueLoop => some .kwContinue
  | block => some .leftBrace
  | _ => none

namespace Handler

/-- A rule that never declines. -/
def certainly (p : Parse Statement) : Parse.Attempt := return some (← p)

/-- The rule for the construct of some settings. -/
def rule (settings : HandlerSettings) (g : Grammar) : Parse.Attempt :=
  match settings.construct with
  | .conditional => certainly (Parse.conditional g)
  | .select => certainly (Parse.select g)
  | .forIn => Parse.forIn g settings
  | .numericFor => Parse.numericFor g
  | .whileLoop => certainly (Parse.whileLoop g)
  | .breakLoop | .continueLoop => certainly Parse.loopControl
  | .block => certainly (return .block (← Parse.block g))
  | .codeBlock => Parse.codeBlock
  | .assignment => Parse.assignment g
  | .languageCall => Parse.languageCall g
  | .fieldAccess => Parse.fieldAccess g
  | .builtinCall => Parse.builtinCall g
  | .expression => certainly (Parse.expressionStatement g)

/-- The handler of some settings. -/
def builtin (settings : HandlerSettings) : Handler where
  settings
  canHandle := leadingFilter settings
  parse g :=
    match settings.construct.keyword? with
    | some kind => do if ← Parse.check kind then rule settings g else Parse.decline
    | none => rule settings g

end Handler

end PolyScript
