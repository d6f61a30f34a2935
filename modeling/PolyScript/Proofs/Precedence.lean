import PolyScript.Proofs.Progress
import PolyScript.Proofs.WellFormed

/-!
# Operators in Parsed Trees

How operators are nested in a tree. Binary operators bind by precedence and group to the
left, prefix operators bind more tightly than those, and suffixes more tightly than prefix
operators. A ternary, an elvis and a pipe bind loosest, so none of them is an operand without
parentheses. A printer that leaves parentheses out relies on all of this.

Most of it can be read off the phrase that an expression is derived as. That chains group to
the left cannot: the left operand of an operator may be a chain of any precedence that the
place admits. It is the operator that follows which decides. The right operand of a chain goes
on for as long as operators bind more tightly, so whatever operator follows a chain binds no
more tightly than the last operator in it. The invariant is therefore about the token behind
the phrase, too (`Phrase.Binds`).

## Main definitions

* `Expr.inside`, `Pattern.exprs`, `Statement.exprs`, `Program.exprs`: All expressions in a tree.
* `Expr.IsNested`: The operands of an expression bind as tightly as they have to.

## Theorems

* `Derives.binds`: How tightly a derived phrase binds.
* `Derives.nested`, `DerivesPattern.nested`, `DerivesStatement.nested`: Expressions in derived
  trees are nested.
* `parsed_operators_nested`: So are all expressions in whatever is parsed.
-/

namespace PolyScript

/-! ### Expressions in trees -/

mutual

/-- All expressions inside of an expression. -/
def Expr.inside : Expr → List Expr
  | .identifier .. | .qualified .. | .number .. | .string .. | .boolean .. | .nil _ => []
  | .array es _ | .languageCall _ _ es _ | .builtinCall _ es _ | .pipe es _ _ => exprsWithin es
  | .object entries _ => entriesWithin entries
  | .bitstring segments _ => segmentsWithin segments
  | .unary _ e _ | .grouped e _ | .fieldAccess e _ _ => e :: e.inside
  | .binary e _ e' _ | .elvis e e' _ | .index e e' _ => e :: e.inside ++ e' :: e'.inside
  | .ternary e e' e'' _ => e :: e.inside ++ e' :: e'.inside ++ e'' :: e''.inside

/-- The expressions of a list, and those inside of them. -/
def exprsWithin : List Expr → List Expr
  | [] => []
  | e :: rest => e :: e.inside ++ exprsWithin rest

/-- All expressions in the entries of an object literal. -/
def entriesWithin : List ObjectEntry → List Expr
  | [] => []
  | .mk _ e :: rest => e :: e.inside ++ entriesWithin rest

/-- All expressions in segments. -/
def segmentsWithin : List BitSegment → List Expr
  | [] => []
  | .mk value size _ _ _ :: rest =>
    value :: value.inside ++ sizeWithin size ++ segmentsWithin rest

/-- A size and all expressions inside of it, if there is one. -/
def sizeWithin : Option Expr → List Expr
  | none => []
  | some e => e :: e.inside

end

/-- An expression and all expressions inside of it. -/
def Expr.within (e : Expr) : List Expr := e :: e.inside

mutual

/-- All expressions in a pattern. -/
def Pattern.exprs : Pattern → List Expr
  | .literal value _ => value.within
  | .capture .. | .wildcard _ => []
  | .array elements _ _ => patternExprs elements
  | .object fields _ => fieldExprs fields
  | .bitstring segments _ => segmentsWithin segments

/-- All expressions in some patterns. -/
def patternExprs : List Pattern → List Expr
  | [] => []
  | p :: rest => p.exprs ++ patternExprs rest

/-- All expressions in the fields of an object pattern. -/
def fieldExprs : List PatternField → List Expr
  | [] => []
  | .mk _ p :: rest => p.exprs ++ fieldExprs rest

end

/-- All expressions in a statement, apart from the statements within. -/
def Statement.exprs : Statement → List Expr
  | .assignment target value _ => target.within ++ value.within
  | .expression e _ | .languageCall e _ _ | .conditional e _ _ _ | .forIn _ e _ _
  | .whileLoop e _ _ => e.within
  | .numericFor _ first last step _ _ => first.within ++ last.within ++ sizeWithin step
  | .select scrutinee arms _ => scrutinee.within ++ arms.flatMap fun arm => arm.pattern.exprs
  | .breakLoop _ | .continueLoop _ | .block _ | .codeBlock .. => []

/-- All expressions in a program, at any depth. -/
def Program.exprs (program : Program) : List Expr := program.within.flatMap Statement.exprs

/-! ### Nesting -/

namespace Expr

/-- The operator of an expression with a binary one. -/
def operator? : Expr → Option BinaryOp
  | .binary _ op _ _ => some op
  | _ => none

/-- Whether an expression is a ternary, an elvis or a pipe. -/
def bindsLoosest : Expr → Bool
  | .ternary .. | .elvis .. | .pipe .. => true
  | _ => false

/-- Whether an expression is an operand with a prefix operator. -/
def isUnary : Expr → Bool
  | .unary .. => true
  | _ => false

/-- The operands of an expression bind as tightly as they have to. -/
def IsNested : Expr → Prop
  | .binary left op right _ =>
    (left.bindsLoosest = false ∧ ∀ p ∈ left.operator?, op.precedence ≤ p.precedence) ∧
      right.bindsLoosest = false ∧ ∀ p ∈ right.operator?, op.precedence < p.precedence
  | .ternary condition _ _ _ | .elvis condition _ _ => condition.bindsLoosest = false
  | .unary _ e _ => e.bindsLoosest = false ∧ e.operator? = none
  | .index e _ _ | .fieldAccess e _ _ =>
    e.bindsLoosest = false ∧ e.operator? = none ∧ e.isUnary = false
  | _ => True

theorem bindsTightest_of_isLiteral {e : Expr} (h : e.isLiteral = true) :
    e.bindsLoosest = false ∧ e.operator? = none ∧ e.isUnary = false := by
  cases e <;> first | exact ⟨rfl, rfl, rfl⟩ | cases h

end Expr

/-- How tightly a phrase binds, in front of a token of some kind. -/
def Phrase.Binds (next : Kind) : Phrase → Prop
  | .suffixed e => e.bindsLoosest = false ∧ e.operator? = none ∧ e.isUnary = false
  | .operand e => e.bindsLoosest = false ∧ e.operator? = none
  | .chain least e => e.bindsLoosest = false ∧ ∀ op ∈ e.operator?, least ≤ op.precedence ∧
      ∀ follower, BinaryOp.ofKind? next = some follower → follower.precedence ≤ op.precedence
  | .expression _ | .expressions _ | .entries _ | .value .. | .size _ | .segments .. => True

/-- Derived phrases bind as tightly as their place admits, and a chain has taken every operator
    that binds more tightly than its own. -/
theorem Derives.binds {env : Parse.Env} {τ υ : Tape env.source} {phrase : Phrase}
    (h : Derives env τ phrase υ) : phrase.Binds υ.head.kind := by
  induction h with
  | literal h => exact Expr.bindsTightest_of_isLiteral (Parse.isLiteral_of_literalOf h)
  | name | qualified | languageCall | builtinCall | grouped | array | object | bitstring
  | index | fieldAccess => exact ⟨rfl, rfl, rfl⟩
  | suffixed _ ih => exact ⟨ih.1, ih.2.1⟩
  | unary => exact ⟨rfl, rfl⟩
  | operand _ ih =>
      rcases ih with ⟨hloosest, hoperator⟩
      exact ⟨hloosest, by rw [hoperator]; exact nofun⟩
  | binary _ _ hleast _ _ hnext =>
      refine ⟨rfl, fun op hop => ?_⟩
      cases hop
      exact ⟨hleast, hnext⟩
  | chain | elvis | ternary | noExpressions | expressions | noEntries | entries | value | negative
  | segmentName | underscore | noSize | size | noSegments | segments => exact trivial

/-! ### Derived trees -/

theorem exprsWithin_concat (es : List Expr) (e : Expr) :
    exprsWithin (es ++ [e]) = exprsWithin es ++ e.within := by
  induction es with
  | nil => simp [exprsWithin, Expr.within]
  | cons e' es ih => simp [exprsWithin, ih]

theorem entriesWithin_concat (entries : List ObjectEntry) (key : ObjectKey) (e : Expr) :
    entriesWithin (entries ++ [ObjectEntry.mk key e]) = entriesWithin entries ++ e.within := by
  induction entries with
  | nil => simp [entriesWithin, Expr.within]
  | cons entry entries ih => cases entry; simp [entriesWithin, ih]

theorem segmentsWithin_concat (ss : List BitSegment) (value : Expr) (size : Option Expr)
    (dynamicSize : Bool) (specifiers : List String) (p : Position) :
    segmentsWithin (ss ++ [BitSegment.mk value size dynamicSize specifiers p]) =
      segmentsWithin ss ++ (value.within ++ sizeWithin size) := by
  induction ss with
  | nil => simp [segmentsWithin, Expr.within]
  | cons s ss ih => cases s; simp [segmentsWithin, ih]

theorem patternExprs_concat (ps : List Pattern) (p : Pattern) :
    patternExprs (ps ++ [p]) = patternExprs ps ++ p.exprs := by
  induction ps with
  | nil => simp [patternExprs]
  | cons p' ps ih => simp [patternExprs, ih]

theorem mem_fieldExprs {fs : List PatternField} {e : Expr} :
    e ∈ fieldExprs fs ↔ ∃ f ∈ fs, e ∈ f.pattern.exprs := by
  induction fs with
  | nil => simp [fieldExprs]
  | cons f fs ih => cases f; simp [fieldExprs, PatternField.pattern, ih]

/-- A field brings the expressions of its pattern. -/
theorem mem_fieldExprs_insert {key : String} {p : Pattern} {fs fs' : List PatternField}
    (h : PatternField.insert? key p fs = some fs') {e : Expr} (hmem : e ∈ fieldExprs fs') :
    e ∈ fieldExprs fs ∨ e ∈ p.exprs := by
  rcases mem_fieldExprs.1 hmem with ⟨f, hf, hmem⟩
  rcases PatternField.mem_insert? h f hf with rfl | hf
  · exact .inr hmem
  · exact .inl (mem_fieldExprs.2 ⟨f, hf, hmem⟩)

theorem Expr.nested_of_isLiteral {e : Expr} (h : e.isLiteral = true) :
    ∀ e' ∈ e.within, e'.IsNested := by
  cases e <;> first | exact List.forall_mem_cons.2 ⟨trivial, List.forall_mem_nil _⟩ | cases h

/-- All expressions in a phrase. -/
def Phrase.exprs : Phrase → List Expr
  | .suffixed e | .operand e | .chain _ e | .expression e | .value _ e => e.within
  | .expressions es => exprsWithin es
  | .entries es => entriesWithin es
  | .size e => sizeWithin e
  | .segments _ ss => segmentsWithin ss

/-- Expressions in derived phrases are nested. The rules for operators are the ones that ask for
    something, and a chain says how loosely the operators in it may bind. -/
theorem Derives.nested {env : Parse.Env} {τ υ : Tape env.source} {phrase : Phrase}
    (h : Derives env τ phrase υ) : ∀ e ∈ phrase.exprs, e.IsNested := by
  induction h with
  | literal h => exact Expr.nested_of_isLiteral (Parse.isLiteral_of_literalOf h)
  | name | qualified | segmentName | underscore =>
      exact List.forall_mem_cons.2 ⟨trivial, List.forall_mem_nil _⟩
  | noExpressions | noEntries | noSize | noSegments => exact List.forall_mem_nil _
  -- Brackets and calls ask nothing of what is in them.
  | languageCall _ _ _ _ _ ih => exact List.forall_mem_cons.2 ⟨trivial, ih⟩
  | builtinCall _ _ _ _ _ ih => exact List.forall_mem_cons.2 ⟨trivial, ih⟩
  | grouped _ _ _ _ ih => exact List.forall_mem_cons.2 ⟨trivial, ih⟩
  | array _ _ _ _ ih => exact List.forall_mem_cons.2 ⟨trivial, ih⟩
  | object _ _ _ _ ih => exact List.forall_mem_cons.2 ⟨trivial, ih⟩
  | bitstring _ _ _ _ ih => exact List.forall_mem_cons.2 ⟨trivial, ih⟩
  | index hobject _ _ _ ihobject ihindex =>
      exact List.forall_mem_cons.2 ⟨hobject.binds, List.forall_mem_append.2 ⟨ihobject, ihindex⟩⟩
  | fieldAccess hobject _ ih => exact List.forall_mem_cons.2 ⟨hobject.binds, ih⟩
  | suffixed _ ih => exact ih
  | unary _ hoperand ih => exact List.forall_mem_cons.2 ⟨hoperand.binds, ih⟩
  | operand _ ih => exact ih
  | binary hleft hop _ _ hright _ ihleft ihright =>
      refine List.forall_mem_cons.2 ⟨⟨?_, ?_⟩, List.forall_mem_append.2 ⟨ihleft, ihright⟩⟩
      · rcases hleft.binds with ⟨hloosest, hoperator⟩
        exact ⟨hloosest, fun p hp => (hoperator p hp).2 _ hop⟩
      · rcases hright.binds with ⟨hloosest, hoperator⟩
        exact ⟨hloosest, fun p hp => (hoperator p hp).1⟩
  | chain _ _ ih => exact ih
  | elvis hcondition _ _ ihcondition ihfallback =>
      exact List.forall_mem_cons.2
        ⟨hcondition.binds.1, List.forall_mem_append.2 ⟨ihcondition, ihfallback⟩⟩
  | ternary hcondition _ _ _ _ ihcondition ihtrue ihfalse =>
      exact List.forall_mem_cons.2 ⟨hcondition.binds.1,
        List.forall_mem_append.2 ⟨List.forall_mem_append.2 ⟨ihcondition, ihtrue⟩, ihfalse⟩⟩
  | expressions _ _ _ ihlist ihitem =>
      rw [Phrase.exprs, exprsWithin_concat]
      exact List.forall_mem_append.2 ⟨ihlist, ihitem⟩
  | entries _ _ _ _ ihlist ihitem =>
      rw [Phrase.exprs, entriesWithin_concat]
      exact List.forall_mem_append.2 ⟨ihlist, ihitem⟩
  | value _ ih => exact ih
  | negative _ h =>
      have hliteral := Parse.isLiteral_of_literalOf h
      rcases Expr.bindsTightest_of_isLiteral hliteral with ⟨hloosest, hoperator, -⟩
      exact List.forall_mem_cons.2 ⟨⟨hloosest, hoperator⟩, Expr.nested_of_isLiteral hliteral⟩
  | size _ _ _ ih => exact ih
  | segments _ _ _ _ ihlist ihvalue ihsize =>
      rw [Phrase.exprs, segmentsWithin_concat]
      exact List.forall_mem_append.2 ⟨ihlist, List.forall_mem_append.2 ⟨ihvalue, ihsize⟩⟩

/-- All expressions in a phrase. -/
def PatternPhrase.exprs : PatternPhrase → List Expr
  | .pattern p => p.exprs
  | .elements ps => patternExprs ps
  | .fields fs => fieldExprs fs

/-- Expressions in derived patterns are nested. -/
theorem DerivesPattern.nested {env : Parse.Env} {τ υ : Tape env.source} {phrase : PatternPhrase}
    (h : DerivesPattern env τ phrase υ) : ∀ e ∈ phrase.exprs, e.IsNested := by
  induction h with
  | literal h =>
      exact Expr.nested_of_isLiteral (Parse.isLiteral_normalize (Parse.isLiteral_of_literalOf h))
  | negative _ _ h =>
      exact Expr.nested_of_isLiteral
        (Parse.isLiteral_negate _ (Parse.isLiteral_normalize (Parse.isLiteral_of_literalOf h)))
  | wildcard | capture | noElements | noFields => exact List.forall_mem_nil _
  | array _ _ _ _ ih => exact ih
  | object _ _ _ _ ih => exact ih
  | bitstring _ _ h => exact h.nested
  | elements _ _ _ ihlist ihitem =>
      rw [PatternPhrase.exprs, patternExprs_concat]
      exact List.forall_mem_append.2 ⟨ihlist, ihitem⟩
  | fields _ _ _ hinsert _ ihlist ihitem =>
      intro e hmem
      exact (mem_fieldExprs_insert hinsert hmem).elim (ihlist e) (ihitem e)

/-- All expressions in a phrase, apart from the statements within. -/
def StatementPhrase.exprs : StatementPhrase → List Expr
  | .stages es _ => exprsWithin es
  | .pipe e => e.within
  | .statement s | .conditional s => s.exprs
  | .arms as => as.flatMap fun arm => arm.pattern.exprs
  | .otherwise _ | .body _ | .block _ | .statements _ => []

/-- Expressions in derived statements are nested. -/
theorem DerivesStatement.nested {env : Parse.Env} {ahead : Prop} {τ υ : Tape env.source}
    {phrase : StatementPhrase} (h : DerivesStatement env ahead τ phrase υ) :
    ∀ e ∈ phrase.exprs, e.IsNested := by
  -- By rule induction, with expressions nested by their own derivations.
  induction h with
  | stage he =>
      rw [StatementPhrase.exprs, ← List.nil_append [_], exprsWithin_concat]
      exact he.nested
  | stages _ _ _ _ he ih =>
      rw [StatementPhrase.exprs, exprsWithin_concat]
      exact List.forall_mem_append.2 ⟨ih, he.nested⟩
  | unpiped he => exact he.nested
  | pipe _ _ ih => exact List.forall_mem_cons.2 ⟨trivial, ih⟩
  | assignment htarget _ _ _ ih => exact List.forall_mem_append.2 ⟨htarget.nested, ih⟩
  | chainCall _ _ _ _ _ _ ih => exact ih
  | guestCall _ _ _ ih => exact ih
  | expression he => exact he.nested
  | conditional _ hcondition => exact hcondition.nested
  | ofConditional _ ih => exact ih
  | forIn _ _ he => exact he.nested
  | @numericFor _ _ _ _ _ _ _ _ _ _ step _ _ hfirst _ hlast hstep =>
      refine List.forall_mem_append.2 ⟨List.forall_mem_append.2 ⟨hfirst.nested, hlast.nested⟩, ?_⟩
      cases step with
      | none => exact List.forall_mem_nil _
      | some e =>
          rcases hstep e rfl with ⟨_, _, he⟩
          exact he.nested
  | whileLoop _ he => exact he.nested
  | select _ he _ _ _ ih => exact List.forall_mem_append.2 ⟨he.nested, ih⟩
  | arms _ hp _ _ _ ihlist =>
      rw [StatementPhrase.exprs, List.flatMap_append, List.flatMap_singleton]
      exact List.forall_mem_append.2 ⟨ihlist, hp.nested⟩
  | noElse | elseIf | otherwise | single | body | block | ofBlock | noStatements | statements
  | breakLoop | continueLoop | codeBlock | noArms => exact List.forall_mem_nil _

/-! ### Whole texts -/

/-- What holds of a part of a text wherever it is parsed holds of one that is the whole text. -/
theorem Parse.holds_of_run {α : Type} {env : Env} {short : Prop} {p : Parse α} {a : α}
    {Q : α → Prop} (hp : ∀ τ : Tape env.source, Runs env short τ p fun a _ => Q a)
    (h : run (wholeText p) env = .ok a) : Q a := by
  rcases ok_of_run h with ⟨t, hrun, -⟩
  rcases (State.sound_initial env.source).offers with ⟨τ, hτ⟩
  rcases (runs_wholeText hp τ).ok hτ hrun with ⟨_, _, hQ⟩
  exact hQ

namespace Parser

variable {settings : Settings} {source : String}

/-- A text that is one expression has a derivation. -/
theorem derives_expression {e : Expr}
    (h : (Parser.ofSettings settings).parseExpression source = .ok e) :
    ∃ τ υ, Derives ((Parser.ofSettings settings).env source) τ (.expression e) υ := by
  have hbuiltin := Registry.isBuiltin_ofSettings settings
  exact Parse.holds_of_run (Q := fun e =>
      ∃ τ υ, Derives ((Parser.ofSettings settings).env source) τ (.expression e) υ)
    (fun τ => (Parse.runs_expressionPart hbuiltin τ).imp fun _ υ h => ⟨τ, υ, h⟩) h

/-- So has one that is one pattern. -/
theorem derives_pattern {p : Pattern}
    (h : (Parser.ofSettings settings).parsePattern source = .ok p) :
    ∃ τ υ, DerivesPattern ((Parser.ofSettings settings).env source) τ (.pattern p) υ := by
  have hbuiltin := Registry.isBuiltin_ofSettings settings
  exact Parse.holds_of_run (Q := fun p =>
      ∃ τ υ, DerivesPattern ((Parser.ofSettings settings).env source) τ (.pattern p) υ)
    (fun τ => (Parse.runs_patternPart hbuiltin τ).imp fun _ υ h => ⟨τ, υ, h⟩) h

end Parser

/-- Under any settings, all expressions in whatever is parsed are nested by precedence: in
    programs at any depth, in single expressions and in patterns. Binary operators group to
    the left, and only parentheses make a looser operator an operand of a tighter one. -/
theorem parsed_operators_nested (settings : Settings) (source : String) :
    let parser := Parser.ofSettings settings
    (∀ program, parser.parse source = .ok program → ∀ e ∈ program.exprs, e.IsNested) ∧
    (∀ e, parser.parseExpression source = .ok e → ∀ e' ∈ e.within, e'.IsNested) ∧
    ∀ p, parser.parsePattern source = .ok p → ∀ e ∈ p.exprs, e.IsNested := by
  refine ⟨fun program hparse e hmem => ?_, fun e hparse => ?_, fun p hparse => ?_⟩
  · rcases List.mem_flatMap.1 hmem with ⟨s, hs, he⟩
    rcases Parser.derives_within hparse s hs with ⟨τ, υ, -, hderives⟩
    exact hderives.nested e he
  · rcases Parser.derives_expression hparse with ⟨τ, υ, hderives⟩
    exact hderives.nested
  · rcases Parser.derives_pattern hparse with ⟨τ, υ, hderives⟩
    exact hderives.nested

/-- A chain of subtractions, a ternary in parentheses, and a negative segment of a pattern. -/
theorem parsed_operators_nested_chain :
    let parser := Parser.ofSettings Settings.defaults
    (∃ program, parser.parse "x = a - b - c * -d[0]" = .ok program ∧ program.exprs.length = 11 ∧
      ∀ e ∈ program.exprs, e.IsNested) ∧
    (∃ e, parser.parseExpression "-(a ? b : c).d + e" = .ok e ∧ e.within.length = 9 ∧
      ∀ e' ∈ e.within, e'.IsNested) ∧
    ∃ p, parser.parsePattern "<<-1:(n + 1)>>" = .ok p ∧ p.exprs.length = 6 ∧
      ∀ e ∈ p.exprs, e.IsNested := by
  intro parser
  have hexpr : (parser.parseExpression "-(a ? b : c).d + e").toOption.any
      (fun e => e.within.length = 9) = true := by decide +kernel
  have hpattern : (parser.parsePattern "<<-1:(n + 1)>>").toOption.any
      (fun p => p.exprs.length = 6) = true := by decide +kernel
  -- Each text is parsed once, for the number of expressions in what comes out.
  refine ⟨?_, ?_, ?_⟩
  · rcases Parser.accepts_of_inOrder parser "x = a - b - c * -d[0]"
      (fun program => program.exprs.length = 11) (by decide +kernel) with ⟨program, hparse, hlength⟩
    exact ⟨program, hparse, of_decide_eq_true hlength,
      (parsed_operators_nested Settings.defaults _).1 program hparse⟩
  · cases hparse : parser.parseExpression "-(a ? b : c).d + e" with
    | error => rw [hparse] at hexpr; cases hexpr
    | ok e =>
        rw [hparse] at hexpr
        exact ⟨e, rfl, of_decide_eq_true hexpr,
          (parsed_operators_nested Settings.defaults _).2.1 e hparse⟩
  · cases hparse : parser.parsePattern "<<-1:(n + 1)>>" with
    | error => rw [hparse] at hpattern; cases hpattern
    | ok p =>
        rw [hparse] at hpattern
        exact ⟨p, rfl, of_decide_eq_true hpattern,
          (parsed_operators_nested Settings.defaults _).2.2 p hparse⟩

end PolyScript
