import PolyScript.Proofs.Runs

/-!
# Derivations

A grammar in the declarative sense: which trees stand for which parts of a text. A part of
a text is given by two tapes, the one that begins with it and the one that begins behind
it, and `Derives env τ phrase υ` says that the tokens between them are a phrase. The rules
of a parser compute such derivations, so whatever is proved of all derivations holds of
everything that is parsed.

A derivation remembers the tokens that determine the tree, and which languages names
stand for. It forgets separators and most brackets: of two phrases that follow each other
it says that the second does not begin before the end of the first, and that is enough to
know that every phrase takes up some of the text. If the first tape is unbroken then the
second is, too, so the text between the two is all there.

There are two ways to a guest call as a statement. One of them looks at the expression that
was parsed, the other at the dotted chain at the beginning, ahead of all else. The
proposition `ahead` says that the second way is open.

Binary operators are derived in chains. A chain has a least precedence, and it goes on for
as long as there are operators that bind at least as tightly.

## Main definitions

* `Tape.Calls`: The rest of a dotted chain that ends in a call.
* `Phrase`, `Derives`: Expressions and their parts.
* `PatternPhrase`, `DerivesPattern`: Patterns and their parts.
* `StatementPhrase`, `DerivesStatement`: Statements and their parts.

## Theorems

* `Derives.advances`, `DerivesPattern.advances`, `DerivesStatement.advances`: Phrases take
  up text.
-/

namespace PolyScript

open Parse

namespace Tape

variable {source : String} {τ : Tape source}

/-- Dots and member names lead to an opening parenthesis. -/
inductive Calls : Tape source → Prop
  | here {τ : Tape source} : τ.head.kind = .leftParen → Calls τ
  | member {τ : Tape source} : τ.head.kind = .dot → isMemberName τ.tail.head.kind = true →
    Calls τ.tail.tail → Calls τ

theorem Calls.head (h : τ.Calls) : τ.head.kind = .leftParen ∨ τ.head.kind = .dot := by
  cases h with
  | here hparen => exact .inl hparen
  | member hdot => exact .inr hdot

theorem calls_member (hdot : τ.head.kind = .dot)
    (hmember : isMemberName τ.tail.head.kind = true) : τ.Calls ↔ τ.tail.tail.Calls := by
  refine ⟨fun h => ?_, .member hdot hmember⟩
  cases h with
  | here hparen => rw [hdot] at hparen; cases hparen
  | member _ _ h => exact h

theorem calls_other (h : ¬(τ.head.kind = .dot ∧ isMemberName τ.tail.head.kind = true)) :
    τ.Calls ↔ τ.head.kind = .leftParen := by
  refine ⟨fun hcalls => ?_, .here⟩
  cases hcalls with
  | here hparen => exact hparen
  | member hdot hmember => exact absurd ⟨hdot, hmember⟩ h

end Tape

/-! ### Expressions -/

/-- A part of a text that belongs to an expression. -/
inductive Phrase where
  /-- An operand without prefix operators. -/
  | suffixed (expr : Expr)
  | operand (expr : Expr)
  /-- Operands with operators between them that bind at least so tightly. -/
  | chain (least : Nat) (expr : Expr)
  | expression (expr : Expr)
  /-- Expressions with commas between them. -/
  | expressions (exprs : List Expr)
  /-- The entries of an object literal. -/
  | entries (entries : List ObjectEntry)
  /-- The value of a segment, in a pattern or not. -/
  | value (inPattern : Bool) (expr : Expr)
  /-- The size of a segment, if it has one. -/
  | size (size : Option Expr)
  /-- The segments of a bit string, in a pattern or not. -/
  | segments (inPattern : Bool) (segments : List BitSegment)

/-- The tokens between two tapes are a part of an expression. -/
inductive Derives (env : Env) : Tape env.source → Phrase → Tape env.source → Prop
  | literal {τ : Tape env.source} {e : Expr} : literalOf env.source τ.head = .ok e →
    Derives env τ (.suffixed e) τ.tail
  /-- A name that does not lead to a call. -/
  | name {τ : Tape env.source} : τ.head.kind = .identifier → ¬τ.tail.Calls →
    Derives env τ (.suffixed (.identifier τ.head.text τ.head.position)) τ.tail
  | qualified {τ υ : Tape env.source} {language name : String} {path : List String} :
    isMemberName τ.head.kind = true →
    env.languages.resolveAt τ.head.text τ.head.position = .ok language → ¬τ.tail.Calls →
    τ.Before υ → Derives env τ (.suffixed (.qualified language path name τ.head.position)) υ
  | languageCall {τ υ χ ω : Tape env.source} {language function : String} {args : List Expr} :
    isMemberName τ.head.kind = true →
    env.languages.resolveAt τ.head.text τ.head.position = .ok language → τ.Before υ →
    Derives env υ (.expressions args) χ → χ.UpTo ω →
    Derives env τ (.suffixed (.languageCall language function args τ.head.position)) ω
  | builtinCall {τ υ χ ω : Tape env.source} {args : List Expr} : τ.head.kind = .identifier →
    τ.tail.head.kind = .leftParen → τ.Before υ → Derives env υ (.expressions args) χ →
    χ.UpTo ω → Derives env τ (.suffixed (.builtinCall τ.head.text args τ.head.position)) ω
  | grouped {τ υ χ ω : Tape env.source} {e : Expr} : τ.head.kind = .leftParen → τ.Before υ →
    Derives env υ (.expression e) χ → χ.UpTo ω →
    Derives env τ (.suffixed (.grouped e τ.head.position)) ω
  | array {τ υ χ ω : Tape env.source} {es : List Expr} : τ.head.kind = .leftBracket →
    τ.Before υ → Derives env υ (.expressions es) χ → χ.UpTo ω →
    Derives env τ (.suffixed (.array es τ.head.position)) ω
  | object {τ υ χ ω : Tape env.source} {es : List ObjectEntry} : τ.head.kind = .leftBrace →
    τ.Before υ → Derives env υ (.entries es) χ → χ.UpTo ω →
    Derives env τ (.suffixed (.object es τ.head.position)) ω
  | bitstring {τ υ χ ω : Tape env.source} {ss : List BitSegment} : τ.head.kind = .bitOpen →
    τ.Before υ → Derives env υ (.segments false ss) χ → χ.UpTo ω →
    Derives env τ (.suffixed (.bitstring ss τ.head.position)) ω
  | index {τ υ χ ψ ω : Tape env.source} {object index : Expr} :
    Derives env τ (.suffixed object) υ → υ.Before χ → Derives env χ (.expression index) ψ →
    ψ.UpTo ω → Derives env τ (.suffixed (.index object index object.position)) ω
  | fieldAccess {τ υ χ : Tape env.source} {object : Expr} {field : String} :
    Derives env τ (.suffixed object) υ → υ.Before χ →
    Derives env τ (.suffixed (.fieldAccess object field object.position)) χ
  | suffixed {τ υ : Tape env.source} {e : Expr} : Derives env τ (.suffixed e) υ →
    Derives env τ (.operand e) υ
  | unary {τ υ : Tape env.source} {op : UnaryOp} {e : Expr} :
    UnaryOp.ofKind? τ.head.kind = some op → Derives env τ.tail (.operand e) υ →
    Derives env τ (.operand (.unary op e τ.head.position)) υ
  | operand {τ υ : Tape env.source} {least : Nat} {e : Expr} : Derives env τ (.operand e) υ →
    Derives env τ (.chain least e) υ
  /-- The right operand goes on for as long as operators bind more tightly. -/
  | binary {τ υ χ ω : Tape env.source} {least : Nat} {op : BinaryOp} {left right : Expr} :
    Derives env τ (.chain least left) υ → BinaryOp.ofKind? υ.head.kind = some op →
    least ≤ op.precedence → υ.Before χ → Derives env χ (.chain (op.precedence + 1) right) ω →
    (∀ next, BinaryOp.ofKind? ω.head.kind = some next → next.precedence ≤ op.precedence) →
    Derives env τ (.chain least (.binary left op right left.position)) ω
  | chain {τ υ : Tape env.source} {e : Expr} : Derives env τ (.chain 1 e) υ →
    BinaryOp.ofKind? υ.head.kind = none → Derives env τ (.expression e) υ
  | elvis {τ υ χ ω : Tape env.source} {condition fallback : Expr} :
    Derives env τ (.chain 1 condition) υ → υ.Before χ → Derives env χ (.expression fallback) ω →
    Derives env τ (.expression (.elvis condition fallback condition.position)) ω
  | ternary {τ υ χ ψ φ ω : Tape env.source} {condition onTrue onFalse : Expr} :
    Derives env τ (.chain 1 condition) υ → υ.Before χ → Derives env χ (.expression onTrue) ψ →
    ψ.Before φ → Derives env φ (.expression onFalse) ω →
    Derives env τ (.expression (.ternary condition onTrue onFalse condition.position)) ω
  | noExpressions {τ υ : Tape env.source} : τ.UpTo υ → Derives env τ (.expressions []) υ
  | expressions {τ υ χ ω : Tape env.source} {es : List Expr} {e : Expr} :
    Derives env τ (.expressions es) υ → Derives env υ (.expression e) χ → χ.UpTo ω →
    Derives env τ (.expressions (es ++ [e])) ω
  | noEntries {τ υ : Tape env.source} : τ.UpTo υ → Derives env τ (.entries []) υ
  | entries {τ υ χ ψ ω : Tape env.source} {es : List ObjectEntry} {key : ObjectKey} {e : Expr} :
    Derives env τ (.entries es) υ → υ.Before χ → Derives env χ (.expression e) ψ → ψ.UpTo ω →
    Derives env τ (.entries (es ++ [.mk key e])) ω
  | value {τ υ : Tape env.source} {inPattern : Bool} {e : Expr} : Derives env τ (.suffixed e) υ →
    Derives env τ (.value inPattern e) υ
  | negative {τ : Tape env.source} {inPattern : Bool} {e : Expr} : τ.head.kind = .minus →
    literalOf env.source τ.tail.head = .ok e →
    Derives env τ (.value inPattern (.unary .negate e τ.head.position)) τ.tail.tail
  | segmentName {τ : Tape env.source} : τ.head.kind = .identifier →
    Derives env τ (.value true (.identifier τ.head.text τ.head.position)) τ.tail
  | underscore {τ : Tape env.source} : τ.head.kind = .underscore →
    Derives env τ (.value true (.identifier "_" τ.head.position)) τ.tail
  | noSize {τ : Tape env.source} : Derives env τ (.size none) τ
  | size {τ υ χ ω : Tape env.source} {e : Expr} : τ.Before υ → Derives env υ (.suffixed e) χ →
    χ.UpTo ω → Derives env τ (.size (some e)) ω
  | noSegments {τ υ : Tape env.source} {inPattern : Bool} : τ.UpTo υ →
    Derives env τ (.segments inPattern []) υ
  | segments {τ υ χ ψ ω : Tape env.source} {inPattern : Bool} {ss : List BitSegment} {e : Expr}
    {size : Option Expr} {specifiers : List String} :
    Derives env τ (.segments inPattern ss) υ → Derives env υ (.value inPattern e) χ →
    Derives env χ (.size size) ψ → ψ.UpTo ω →
    Derives env τ (.segments inPattern
      (ss ++ [.mk e size (size.any fun e => !e.isNumber) specifiers e.position])) ω

/-- How far a phrase leads. Lists may be empty, and a size may be missing. -/
def Phrase.Advances {source : String} (τ υ : Tape source) : Phrase → Prop
  | .expressions _ | .entries _ | .size _ | .segments .. => τ.UpTo υ
  | .suffixed _ | .operand _ | .chain .. | .expression _ | .value .. => τ.Before υ

theorem Parse.before_of_literalOf {source : String} {τ : Tape source} {e : Expr}
    (h : literalOf source τ.head = .ok e) : τ.Before τ.tail := by
  refine Tape.before_tail_of_ne fun hend => ?_
  rw [literalOf, hend] at h
  cases h

theorem Parse.ne_end_of_isMemberName {kind : Kind} (h : isMemberName kind = true) :
    kind ≠ .endOfInput := by
  rintro rfl
  cases h

/-- Phrases take up text, except for those that may be empty, which stay where they are at worst.
    This is what makes parsers get ahead. -/
theorem Derives.advances {env : Env} {τ υ : Tape env.source} {phrase : Phrase}
    (h : Derives env τ phrase υ) : phrase.Advances τ υ := by
  -- By rule induction: a phrase goes as far as its parts and the tokens between them, one behind
  -- the other.
  induction h with
  | literal h => exact before_of_literalOf h
  | name hkind => exact Tape.before_tail hkind (by decide)
  | qualified _ _ _ h => exact h
  | languageCall _ _ hstart _ hend ih => exact (hstart.trans ih).trans hend
  | builtinCall _ _ hstart _ hend ih => exact (hstart.trans ih).trans hend
  | grouped _ hstart _ hend ih => exact (hstart.trans ih.upTo).trans hend
  | array _ hstart _ hend ih => exact (hstart.trans ih).trans hend
  | object _ hstart _ hend ih => exact (hstart.trans ih).trans hend
  | bitstring _ hstart _ hend ih => exact (hstart.trans ih).trans hend
  | index _ hmid _ hend ihobject ihindex =>
      exact ((ihobject.trans hmid.upTo).trans ihindex.upTo).trans hend
  | fieldAccess _ hend ih => exact ih.trans hend.upTo
  | suffixed _ ih => exact ih
  | unary _ _ ih => exact (Tape.upTo_tail _).before ih
  | operand _ ih => exact ih
  | binary _ _ _ hmid _ _ ihleft ihright => exact (ihleft.trans hmid.upTo).trans ihright.upTo
  | chain _ _ ih => exact ih
  | elvis _ hmid _ ihcondition ihfallback =>
      exact (ihcondition.trans hmid.upTo).trans ihfallback.upTo
  | ternary _ hmid _ hcolon _ ihcondition ihtrue ihfalse =>
      exact (((ihcondition.trans hmid.upTo).trans ihtrue.upTo).trans hcolon.upTo).trans
        ihfalse.upTo
  | noExpressions h => exact h
  | expressions _ _ hend ihlist ihitem => exact (ihlist.trans ihitem.upTo).trans hend
  | noEntries h => exact h
  | entries _ hmid _ hend ihlist ihitem =>
      exact ((ihlist.trans hmid.upTo).trans ihitem.upTo).trans hend
  | value _ ih => exact ih
  | negative hkind h =>
      exact (Tape.before_tail hkind (by decide)).trans (before_of_literalOf h).upTo
  | segmentName hkind => exact Tape.before_tail hkind (by decide)
  | underscore hkind => exact Tape.before_tail hkind (by decide)
  | noSize => exact .refl _
  | size hstart _ hend ih => exact (hstart.upTo.trans ih.upTo).trans hend
  | noSegments h => exact h
  | segments _ _ _ hend ihlist ihvalue ihsize =>
      exact ((ihlist.trans ihvalue.upTo).trans ihsize).trans hend

/-- A whole expression takes up some text. -/
theorem Derives.before {env : Env} {τ υ : Tape env.source} {e : Expr}
    (h : Derives env τ (.expression e) υ) : τ.Before υ := h.advances

/-! ### Patterns -/

/-- A part of a text that belongs to a pattern. -/
inductive PatternPhrase where
  | pattern (pattern : Pattern)
  /-- The elements of an array pattern. -/
  | elements (patterns : List Pattern)
  /-- The fields of an object pattern. -/
  | fields (fields : List PatternField)

/-- The tokens between two tapes are a part of a pattern. -/
inductive DerivesPattern (env : Env) : Tape env.source → PatternPhrase → Tape env.source → Prop
  | literal {τ : Tape env.source} {e : Expr} : literalOf env.source τ.head = .ok e →
    DerivesPattern env τ (.pattern (.literal (normalizeLiteral e) τ.head.position)) τ.tail
  | negative {τ : Tape env.source} {e : Expr} : τ.head.kind = .minus →
    τ.tail.head.kind = .number → literalOf env.source τ.tail.head = .ok e →
    DerivesPattern env τ (.pattern
      (.literal (negateLiteral τ.head.position (normalizeLiteral e)) τ.head.position)) τ.tail.tail
  | wildcard {τ : Tape env.source} : τ.head.kind = .underscore →
    DerivesPattern env τ (.pattern (.wildcard τ.head.position)) τ.tail
  | capture {τ : Tape env.source} : τ.head.kind = .identifier →
    DerivesPattern env τ (.pattern (.capture τ.head.text τ.head.position)) τ.tail
  | array {τ υ χ ω : Tape env.source} {ps : List Pattern} {rest : Option String} :
    τ.head.kind = .leftBracket → τ.Before υ → DerivesPattern env υ (.elements ps) χ → χ.UpTo ω →
    DerivesPattern env τ (.pattern (.array ps rest τ.head.position)) ω
  | object {τ υ χ ω : Tape env.source} {fs : List PatternField} : τ.head.kind = .leftBrace →
    τ.Before υ → DerivesPattern env υ (.fields fs) χ → χ.UpTo ω →
    DerivesPattern env τ (.pattern (.object fs τ.head.position)) ω
  | bitstring {τ υ χ ω : Tape env.source} {ss : List BitSegment} : τ.head.kind = .bitOpen →
    τ.Before υ → Derives env υ (.segments true ss) χ → χ.UpTo ω →
    DerivesPattern env τ (.pattern (.bitstring ss τ.head.position)) ω
  | noElements {τ υ : Tape env.source} : τ.UpTo υ → DerivesPattern env τ (.elements []) υ
  | elements {τ υ χ ω : Tape env.source} {ps : List Pattern} {p : Pattern} :
    DerivesPattern env τ (.elements ps) υ → DerivesPattern env υ (.pattern p) χ → χ.UpTo ω →
    DerivesPattern env τ (.elements (ps ++ [p])) ω
  | noFields {τ υ : Tape env.source} : τ.UpTo υ → DerivesPattern env τ (.fields []) υ
  /-- A field goes to its place in the order of the keys. -/
  | fields {τ υ χ ψ ω : Tape env.source} {fs fs' : List PatternField} {key : String}
    {p : Pattern} : DerivesPattern env τ (.fields fs) υ → υ.Before χ →
    DerivesPattern env χ (.pattern p) ψ → PatternField.insert? key p fs = some fs' → ψ.UpTo ω →
    DerivesPattern env τ (.fields fs') ω

/-- How far a phrase leads. -/
def PatternPhrase.Advances {source : String} (τ υ : Tape source) : PatternPhrase → Prop
  | .pattern _ => τ.Before υ
  | .elements _ | .fields _ => τ.UpTo υ

/-- Patterns take at least one token, and lists of parts of them take none backwards, by
    induction on the derivation. -/
theorem DerivesPattern.advances {env : Env} {τ υ : Tape env.source} {phrase : PatternPhrase}
    (h : DerivesPattern env τ phrase υ) : phrase.Advances τ υ := by
  induction h with
  | literal h => exact before_of_literalOf h
  | negative hkind _ h =>
      exact (Tape.before_tail hkind (by decide)).trans (before_of_literalOf h).upTo
  | wildcard hkind => exact Tape.before_tail hkind (by decide)
  | capture hkind => exact Tape.before_tail hkind (by decide)
  | array _ hstart _ hend ih => exact (hstart.trans ih).trans hend
  | object _ hstart _ hend ih => exact (hstart.trans ih).trans hend
  | bitstring _ hstart hsegments hend => exact (hstart.trans hsegments.advances).trans hend
  | noElements h => exact h
  | elements _ _ hend ihlist ihitem => exact (ihlist.trans ihitem.upTo).trans hend
  | noFields h => exact h
  | fields _ hmid _ _ hend ihlist ihitem =>
      exact ((ihlist.trans hmid.upTo).trans ihitem.upTo).trans hend

/-- A whole pattern takes up some text. -/
theorem DerivesPattern.before {env : Env} {τ υ : Tape env.source} {p : Pattern}
    (h : DerivesPattern env τ (.pattern p) υ) : τ.Before υ := h.advances

/-! ### Statements -/

/-- A part of a text that belongs to a statement. -/
inductive StatementPhrase where
  /-- Expressions with pipe operators between them. -/
  | stages (stages : List Expr) (operators : List Token)
  /-- An expression, or several that are joined by pipe operators. -/
  | pipe (expr : Expr)
  | statement (statement : Statement)
  /-- A conditional, from its keyword on. -/
  | conditional (statement : Statement)
  /-- What follows the body of a conditional. -/
  | otherwise (block : Option Block)
  /-- A block, or a single statement after a colon. -/
  | body (block : Block)
  | block (block : Block)
  | statements (statements : List Statement)
  | arms (arms : List MatchArm)

/-- The tokens between two tapes are a part of a statement. -/
inductive DerivesStatement (env : Env) (ahead : Prop) :
    Tape env.source → StatementPhrase → Tape env.source → Prop
  | stage {τ υ : Tape env.source} {e : Expr} : Derives env τ (.expression e) υ →
    DerivesStatement env ahead τ (.stages [e] []) υ
  | stages {τ υ χ ψ ω : Tape env.source} {es : List Expr} {operators : List Token} {e : Expr} :
    DerivesStatement env ahead τ (.stages es operators) υ → υ.UpTo χ → χ.head.kind = .pipe →
    χ.Before ψ → Derives env ψ (.expression e) ω →
    DerivesStatement env ahead τ (.stages (es ++ [e]) (operators ++ [χ.head])) ω
  | unpiped {τ υ : Tape env.source} {e : Expr} : Derives env τ (.expression e) υ →
    DerivesStatement env ahead τ (.pipe e) υ
  | pipe {τ υ : Tape env.source} {e : Expr} {es : List Expr} {operators : List Token} :
    DerivesStatement env ahead τ (.stages (e :: es) operators) υ → operators ≠ [] →
    DerivesStatement env ahead τ (.pipe (.pipe (e :: es) operators e.position)) υ
  | assignment {τ υ χ ω : Tape env.source} {target value : Expr} :
    Derives env τ (.operand target) υ → target.isAssignable = true → υ.Before χ →
    DerivesStatement env ahead χ (.pipe value) ω →
    DerivesStatement env ahead τ (.statement (.assignment target value target.position)) ω
  /-- Something that begins with a guest call. -/
  | chainCall {τ υ ω : Tape env.source} {call : Expr} {background : Bool} :
    ahead → isMemberName τ.head.kind = true → τ.tail.head.kind = .dot → τ.tail.Calls →
    DerivesStatement env ahead τ (.pipe call) υ → υ.UpTo ω →
    DerivesStatement env ahead τ (.statement (.languageCall call background τ.head.position)) ω
  /-- Something that turns out to be a guest call or a pipe. -/
  | guestCall {τ υ ω : Tape env.source} {call : Expr} {background : Bool} :
    isGuestCall call = true → DerivesStatement env ahead τ (.pipe call) υ → υ.UpTo ω →
    DerivesStatement env ahead τ (.statement (.languageCall call background call.position)) ω
  | expression {τ υ : Tape env.source} {e : Expr} : Derives env τ (.expression e) υ →
    DerivesStatement env ahead τ (.statement (.expression e e.position)) υ
  | conditional {τ υ χ ω : Tape env.source} {condition : Expr} {onTrue : Block}
    {onFalse : Option Block} : τ.head.kind = .kwIf →
    Derives env τ.tail (.expression condition) υ → DerivesStatement env ahead υ (.body onTrue) χ →
    DerivesStatement env ahead χ (.otherwise onFalse) ω →
    DerivesStatement env ahead τ
      (.conditional (.conditional condition onTrue onFalse τ.head.position)) ω
  | ofConditional {τ υ : Tape env.source} {s : Statement} :
    DerivesStatement env ahead τ (.conditional s) υ → DerivesStatement env ahead τ (.statement s) υ
  | noElse {τ : Tape env.source} : DerivesStatement env ahead τ (.otherwise none) τ
  | elseIf {τ υ ω : Tape env.source} {s : Statement} : τ.UpTo υ → υ.head.kind = .kwElse →
    DerivesStatement env ahead υ.tail (.conditional s) ω →
    DerivesStatement env ahead τ (.otherwise (some (.mk [s] υ.head.position))) ω
  | otherwise {τ υ ω : Tape env.source} {b : Block} : τ.UpTo υ → υ.head.kind = .kwElse →
    DerivesStatement env ahead υ.tail (.body b) ω →
    DerivesStatement env ahead τ (.otherwise (some b)) ω
  | single {τ υ ω : Tape env.source} {s : Statement} : τ.head.kind = .colon → τ.Before υ →
    DerivesStatement env ahead υ (.statement s) ω →
    DerivesStatement env ahead τ (.body (.mk [s] τ.head.position)) ω
  | body {τ ω : Tape env.source} {b : Block} {k : Nat} : τ.Newlines k →
    DerivesStatement env ahead (τ.drop k) (.block b) ω → DerivesStatement env ahead τ (.body b) ω
  | block {τ υ χ ω : Tape env.source} {ss : List Statement} : τ.head.kind = .leftBrace →
    τ.Before υ → DerivesStatement env ahead υ (.statements ss) χ → χ.UpTo ω →
    DerivesStatement env ahead τ (.block (.mk ss τ.head.position)) ω
  | ofBlock {τ υ : Tape env.source} {b : Block} : DerivesStatement env ahead τ (.block b) υ →
    DerivesStatement env ahead τ (.statement (.block b)) υ
  | noStatements {τ υ : Tape env.source} : τ.UpTo υ →
    DerivesStatement env ahead τ (.statements []) υ
  | statements {τ υ χ ω : Tape env.source} {ss : List Statement} {s : Statement} :
    DerivesStatement env ahead τ (.statements ss) υ →
    DerivesStatement env ahead υ (.statement s) χ → χ.UpTo ω →
    DerivesStatement env ahead τ (.statements (ss ++ [s])) ω
  | forIn {τ υ χ ω : Tape env.source} {names : List String} {iterable : Expr} {b : Block} :
    τ.Before υ → names ≠ [] → Derives env υ (.expression iterable) χ →
    DerivesStatement env ahead χ (.body b) ω →
    DerivesStatement env ahead τ (.statement (.forIn names iterable b τ.head.position)) ω
  | numericFor {τ υ χ ψ φ ρ ω : Tape env.source} {name : String} {first last : Expr}
    {step : Option Expr} {b : Block} : τ.Before υ → Derives env υ (.expression first) χ →
    χ.Before ψ → Derives env ψ (.expression last) φ →
    (∀ e ∈ step, ∃ π : Tape env.source, φ.Before π ∧ Derives env π (.expression e) ρ) →
    φ.UpTo ρ → DerivesStatement env ahead ρ (.body b) ω →
    DerivesStatement env ahead τ (.statement (.numericFor name first last step b τ.head.position)) ω
  | whileLoop {τ υ ω : Tape env.source} {condition : Expr} {b : Block} :
    τ.head.kind = .kwWhile → Derives env τ.tail (.expression condition) υ →
    DerivesStatement env ahead υ (.body b) ω →
    DerivesStatement env ahead τ (.statement (.whileLoop condition b τ.head.position)) ω
  | breakLoop {τ : Tape env.source} : τ.head.kind = .kwBreak →
    DerivesStatement env ahead τ (.statement (.breakLoop τ.head)) τ.tail
  | continueLoop {τ : Tape env.source} : τ.head.kind = .kwContinue →
    DerivesStatement env ahead τ (.statement (.continueLoop τ.head)) τ.tail
  | codeBlock {τ υ : Tape env.source} {language code : String} {captures : List String} :
    env.languages.constructFor? τ.head.text τ.tail.head.kind false = some .codeBlock →
    env.languages.resolveAt τ.head.text τ.head.position = .ok language → τ.Before υ →
    DerivesStatement env ahead τ (.statement (.codeBlock language captures code τ.head.position)) υ
  | select {τ υ χ ψ ω : Tape env.source} {scrutinee : Expr} {arms : List MatchArm} :
    τ.head.kind = .kwMatch → Derives env τ.tail (.expression scrutinee) υ → υ.Before χ →
    DerivesStatement env ahead χ (.arms arms) ψ → ψ.UpTo ω →
    DerivesStatement env ahead τ (.statement (.select scrutinee arms τ.head.position)) ω
  | noArms {τ υ : Tape env.source} : τ.UpTo υ → DerivesStatement env ahead τ (.arms []) υ
  | arms {τ υ χ ψ φ ω : Tape env.source} {as : List MatchArm} {p : Pattern} {s : Statement} :
    DerivesStatement env ahead τ (.arms as) υ → DerivesPattern env υ (.pattern p) χ → χ.Before ψ →
    DerivesStatement env ahead ψ (.statement s) φ → φ.UpTo ω →
    DerivesStatement env ahead τ (.arms (as ++ [.mk p s p.position])) ω

/-- How far a phrase leads. -/
def StatementPhrase.Advances {source : String} (τ υ : Tape source) : StatementPhrase → Prop
  | .otherwise _ | .statements _ | .arms _ => τ.UpTo υ
  | .stages .. | .pipe _ | .statement _ | .conditional _ | .body _ | .block _ => τ.Before υ

/-- So do statements. A list of statements may be empty, so it need not advance at all. -/
theorem DerivesStatement.advances {env : Env} {ahead : Prop} {τ υ : Tape env.source}
    {phrase : StatementPhrase} (h : DerivesStatement env ahead τ phrase υ) :
    phrase.Advances τ υ := by
  -- By rule induction, as for expressions.
  induction h with
  | stage h => exact h.before
  | stages _ hmid _ hoperator he ih =>
      exact ((ih.trans hmid).trans hoperator.upTo).trans he.before.upTo
  | unpiped h => exact h.before
  | pipe _ _ ih => exact ih
  | assignment htarget _ hmid _ ih =>
      exact (Tape.Before.trans htarget.advances hmid.upTo).trans ih.upTo
  | chainCall _ _ _ _ _ hend ih => exact ih.trans hend
  | guestCall _ _ hend ih => exact ih.trans hend
  | expression h => exact h.before
  | conditional _ hcondition _ _ ihtrue ihfalse =>
      exact (((Tape.upTo_tail _).before hcondition.before).trans ihtrue.upTo).trans ihfalse
  | ofConditional _ ih => exact ih
  | noElse => exact .refl _
  | elseIf hstart _ _ ih => exact (hstart.trans (Tape.upTo_tail _)).trans ih.upTo
  | otherwise hstart _ _ ih => exact (hstart.trans (Tape.upTo_tail _)).trans ih.upTo
  | single _ hstart _ ih => exact hstart.trans ih.upTo
  | body _ _ ih => exact (Tape.upTo_drop _ _).before ih
  | block _ hstart _ hend ih => exact (hstart.trans ih).trans hend
  | ofBlock _ ih => exact ih
  | noStatements h => exact h
  | statements _ _ hend ihlist ihitem => exact (ihlist.trans ihitem.upTo).trans hend
  | forIn hstart _ hiterable _ ih => exact (hstart.trans hiterable.before.upTo).trans ih.upTo
  | numericFor hstart hfirst hcomma hlast _ hstep _ ih =>
      exact ((((hstart.trans hfirst.before.upTo).trans hcomma.upTo).trans
        hlast.before.upTo).trans hstep).trans ih.upTo
  | whileLoop _ hcondition _ ih =>
      exact ((Tape.upTo_tail _).before hcondition.before).trans ih.upTo
  | breakLoop hkind => exact Tape.before_tail hkind (by decide)
  | continueLoop hkind => exact Tape.before_tail hkind (by decide)
  | codeBlock _ _ h => exact h
  | select _ hscrutinee hmid _ hend ih =>
      exact ((((Tape.upTo_tail _).before hscrutinee.before).trans hmid.upTo).trans ih).trans hend
  | noArms h => exact h
  | arms _ hpattern hmid _ hend ihlist ihbody =>
      exact (((ihlist.trans hpattern.before.upTo).trans hmid.upTo).trans ihbody.upTo).trans hend

/-- A whole statement takes up some text. -/
theorem DerivesStatement.before {env : Env} {ahead : Prop} {τ υ : Tape env.source} {s : Statement}
    (h : DerivesStatement env ahead τ (.statement s) υ) : τ.Before υ := h.advances

end PolyScript
