import PolyScript.Json.Basic
import PolyScript.Token.Basic

/-!
# Handler Settings

What a handler is for and when it is asked. A handler parses one construct; its
settings say which construct, which tokens may begin it, and in which order it is
tried among others.

## Main definitions

* `Construct`: What a handler parses.
* `TokenPattern`: A condition on one pending token.
* `HandlerSettings`: The settings of a handler.
* `HandlerSettings.defaults`: The handlers of the language as it stands.
-/

namespace PolyScript

/-- What a handler parses. -/
inductive Construct where
  | conditional
  | select
  | forIn
  | numericFor
  | whileLoop
  | breakLoop
  | continueLoop
  | block
  | codeBlock
  | assignment
  | languageCall
  | fieldAccess
  | builtinCall
  | expression
  deriving DecidableEq, Repr, Inhabited

namespace Construct

/-- Every construct once. -/
def all : List Construct :=
  [conditional, select, forIn, numericFor, whileLoop, breakLoop, continueLoop, block, codeBlock,
   assignment, languageCall, fieldAccess, builtinCall, expression]

/-- The name of a construct in documents and tables. -/
def name : Construct → String
  | conditional => "if"
  | select => "match"
  | forIn => "for_in"
  | numericFor => "numeric_for"
  | whileLoop => "while"
  | breakLoop => "break"
  | continueLoop => "continue"
  | block => "block"
  | codeBlock => "code_block"
  | assignment => "assignment"
  | languageCall => "language_call"
  | fieldAccess => "field_access"
  | builtinCall => "builtin_call"
  | expression => "expression"

/-- The construct that goes by a name. -/
def ofName? (s : String) : Option Construct := all.find? fun c => c.name = s

theorem mem_all (c : Construct) : c ∈ all := by
  cases c <;> decide

end Construct

/-- A condition on the pending token at an offset: its kind, and its text if one
    is given. -/
structure TokenPattern where
  kind : Kind
  value : Option String
  offset : Nat
  deriving DecidableEq, Repr, Inhabited

/-- Whether a token satisfies the condition, wherever it stands. -/
def TokenPattern.accepts (p : TokenPattern) (t : Token) : Bool :=
  t.kind = p.kind && p.value.all fun v => v = t.text

/-- The settings of a handler. -/
structure HandlerSettings where
  construct : Construct
  name : String
  /-- Higher is tried earlier. -/
  priority : Int
  /-- Among equal priorities, lower is tried earlier. -/
  order : Int
  enabled : Bool
  /-- Whether the handler is tried only after all others have declined. -/
  fallback : Bool
  /-- The priority among fallbacks, if it is not the common one. -/
  fallbackPriority : Option Int
  patterns : List TokenPattern
  /-- Parameters of the construct, sorted by name. -/
  params : List (String × Json)

namespace HandlerSettings

/-- Whether the pending tokens satisfy one of the patterns. -/
def matchesWindow (h : HandlerSettings) (window : List Token) : Bool :=
  h.patterns.any fun p => (window[p.offset]?).any p.accepts

/-- A parameter that is a truth value. -/
def boolParam? (h : HandlerSettings) (name : String) : Option Bool :=
  (h.params.lookup name).bind Json.bool?

/-- The settings of an enabled handler that is no fallback. -/
def primary (construct : Construct) (name : String) (priority order : Int)
    (patterns : List (Kind × Nat)) : HandlerSettings :=
  { construct, name, priority, order, enabled := true, fallback := false
    fallbackPriority := none, patterns := patterns.map fun p => ⟨p.1, none, p.2⟩, params := [] }

/-- The handlers of the language unless a configuration says otherwise. -/
def defaults : List HandlerSettings :=
  [primary .conditional "if" 100 0 [(.kwIf, 0)],
   primary .select "match" 100 1 [(.kwMatch, 0)],
   primary .forIn "for-in" 100 2 [(.kwFor, 0)],
   primary .numericFor "numeric-for" 100 3 [(.kwFor, 0)],
   primary .whileLoop "while" 100 4 [(.kwWhile, 0)],
   primary .breakLoop "break" 100 5 [(.kwBreak, 0)],
   primary .continueLoop "continue" 100 6 [(.kwContinue, 0)],
   primary .block "block" 100 7 [(.leftBrace, 0)],
   primary .codeBlock "code-block" 95 0 [(.language, 0), (.identifier, 0)],
   primary .assignment "assignment" 90 0 [(.identifier, 0), (.language, 0)],
   primary .languageCall "language-call" 85 0 [(.language, 0), (.dot, 1)],
   primary .fieldAccess "field-access" 80 0 [(.identifier, 0), (.language, 0)],
   primary .builtinCall "builtin-call" 75 0 [(.identifier, 0)],
   { primary .expression "expression" 0 0 [] with fallback := true, fallbackPriority := some 0 }]

/-- Whether the first handler is tried no later than the second: by priority,
    then by order, then by name. -/
def triedBefore (a b : HandlerSettings) : Bool :=
  if a.priority ≠ b.priority then b.priority < a.priority
  else if a.order ≠ b.order then a.order < b.order
  else !(b.name < a.name)

end HandlerSettings

end PolyScript
