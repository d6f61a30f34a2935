import PolyScript.Parse.Pattern
import PolyScript.Tree.Statement

/-!
# Trees Without Places

What is left of a tree if the places of its nodes are forgotten. Two trees with the same
skeleton differ in their positions and in nothing else. For expressions there is a second
way to look: the nodes that stand for parentheses can be forgotten too.

## Main definitions

* `Expr.skeleton`: An expression without places, with or without its parentheses.
* `Pattern.skeleton`: A pattern without places.
* `Statement.skeleton`: A statement without places.

## Theorems

* `Expr.skeleton_skeleton`: Places may be forgotten before parentheses are.
-/

namespace PolyScript

/-- A token without its place. -/
def Token.skeleton (t : Token) : Token := ⟨t.kind, t.text, Position.start, 0⟩

section

variable (grouping : Bool)

mutual

/-- An expression without places, and without the nodes for parentheses unless they are
    kept. -/
def Expr.skeleton : Expr → Expr
  | .identifier name _ => .identifier name .start
  | .qualified language path name _ => .qualified language path name .start
  | .number value raw _ => .number value raw .start
  | .string value raw _ => .string value raw .start
  | .boolean value _ => .boolean value .start
  | .nil _ => .nil .start
  | .array elements _ => .array (skeletonExprs elements) .start
  | .object entries _ => .object (skeletonEntries entries) .start
  | .bitstring segments _ => .bitstring (skeletonSegments segments) .start
  | .binary left op right _ => .binary left.skeleton op right.skeleton .start
  | .unary op operand _ => .unary op operand.skeleton .start
  | .ternary condition onTrue onFalse _ =>
    .ternary condition.skeleton onTrue.skeleton onFalse.skeleton .start
  | .elvis condition fallback _ => .elvis condition.skeleton fallback.skeleton .start
  | .grouped inner _ => if grouping then .grouped inner.skeleton .start else inner.skeleton
  | .languageCall language function arguments _ =>
    .languageCall language function (skeletonExprs arguments) .start
  | .builtinCall name arguments _ => .builtinCall name (skeletonExprs arguments) .start
  | .index object index _ => .index object.skeleton index.skeleton .start
  | .fieldAccess object field _ => .fieldAccess object.skeleton field .start
  | .pipe stages operators _ =>
    .pipe (skeletonExprs stages) (operators.map Token.skeleton) .start

/-- Expressions without places. -/
def skeletonExprs : List Expr → List Expr
  | [] => []
  | e :: rest => e.skeleton :: skeletonExprs rest

/-- Entries of an object literal without places. -/
def skeletonEntries : List ObjectEntry → List ObjectEntry
  | [] => []
  | .mk key value :: rest => .mk key value.skeleton :: skeletonEntries rest

/-- The size of a segment without places. -/
def skeletonSize : Option Expr → Option Expr
  | none => none
  | some e => some e.skeleton

/-- Segments without places. -/
def skeletonSegments : List BitSegment → List BitSegment
  | [] => []
  | .mk value size dynamic specifiers _ :: rest =>
    .mk value.skeleton (skeletonSize size) dynamic specifiers .start :: skeletonSegments rest

end

theorem skeletonExprs_eq (es : List Expr) :
    skeletonExprs grouping es = es.map (Expr.skeleton grouping) := by
  induction es with
  | nil => rfl
  | cons e es ih => rw [skeletonExprs, ih, List.map_cons]

/-- An entry of an object literal without places. -/
def ObjectEntry.skeleton : ObjectEntry → ObjectEntry
  | .mk key value => .mk key (value.skeleton grouping)

theorem skeletonEntries_eq (entries : List ObjectEntry) :
    skeletonEntries grouping entries = entries.map (ObjectEntry.skeleton grouping) := by
  induction entries with
  | nil => rfl
  | cons entry entries ih => cases entry; rw [skeletonEntries, ih, List.map_cons]; rfl

/-- A segment without places. -/
def BitSegment.skeleton : BitSegment → BitSegment
  | .mk value size dynamic specifiers _ =>
    .mk (value.skeleton grouping) (skeletonSize grouping size) dynamic specifiers .start

theorem skeletonSegments_eq (segments : List BitSegment) :
    skeletonSegments grouping segments = segments.map (BitSegment.skeleton grouping) := by
  induction segments with
  | nil => rfl
  | cons segment segments ih => cases segment; rw [skeletonSegments, ih, List.map_cons]; rfl

end

mutual

/-- A pattern without places. -/
def Pattern.skeleton : Pattern → Pattern
  | .literal value _ => .literal (value.skeleton true) .start
  | .capture name _ => .capture name .start
  | .wildcard _ => .wildcard .start
  | .array elements rest _ => .array (skeletonPatterns elements) rest .start
  | .object fields _ => .object (skeletonFields fields) .start
  | .bitstring segments _ => .bitstring (skeletonSegments true segments) .start

/-- Patterns without places. -/
def skeletonPatterns : List Pattern → List Pattern
  | [] => []
  | p :: rest => p.skeleton :: skeletonPatterns rest

/-- Fields of an object pattern without places. -/
def skeletonFields : List PatternField → List PatternField
  | [] => []
  | .mk key pattern :: rest => .mk key pattern.skeleton :: skeletonFields rest

end

theorem skeletonPatterns_eq (ps : List Pattern) :
    skeletonPatterns ps = ps.map Pattern.skeleton := by
  induction ps with
  | nil => rfl
  | cons p ps ih => rw [skeletonPatterns, ih, List.map_cons]

/-- A field of an object pattern without places. -/
def PatternField.skeleton : PatternField → PatternField
  | .mk key pattern => .mk key pattern.skeleton

theorem skeletonFields_eq (fs : List PatternField) :
    skeletonFields fs = fs.map PatternField.skeleton := by
  induction fs with
  | nil => rfl
  | cons f fs ih => cases f; rw [skeletonFields, ih, List.map_cons]; rfl

mutual

/-- A statement without places. -/
def Statement.skeleton : Statement → Statement
  | .assignment target value _ => .assignment (target.skeleton true) (value.skeleton true) .start
  | .expression expr _ => .expression (expr.skeleton true) .start
  | .conditional condition onTrue onFalse _ =>
    .conditional (condition.skeleton true) onTrue.skeleton (skeletonElse onFalse) .start
  | .forIn names iterable body _ => .forIn names (iterable.skeleton true) body.skeleton .start
  | .numericFor name first last step body _ =>
    .numericFor name (first.skeleton true) (last.skeleton true) (step.map (Expr.skeleton true))
      body.skeleton .start
  | .whileLoop condition body _ => .whileLoop (condition.skeleton true) body.skeleton .start
  | .breakLoop token => .breakLoop token.skeleton
  | .continueLoop token => .continueLoop token.skeleton
  | .block body => .block body.skeleton
  | .codeBlock language captures code _ => .codeBlock language captures code .start
  | .languageCall call background _ => .languageCall (call.skeleton true) background .start
  | .select scrutinee arms _ => .select (scrutinee.skeleton true) (skeletonArms arms) .start

/-- Statements in braces, or one after a colon, without places. -/
def Block.skeleton : Block → Block
  | .mk statements _ => .mk (skeletonStatements statements) .start

/-- What follows the body of a conditional, without places. -/
def skeletonElse : Option Block → Option Block
  | none => none
  | some block => some block.skeleton

/-- An arm without places. -/
def MatchArm.skeleton : MatchArm → MatchArm
  | .mk pattern body _ => .mk pattern.skeleton body.skeleton .start

/-- Statements without places. -/
def skeletonStatements : List Statement → List Statement
  | [] => []
  | statement :: rest => statement.skeleton :: skeletonStatements rest

/-- Arms without places. -/
def skeletonArms : List MatchArm → List MatchArm
  | [] => []
  | arm :: rest => arm.skeleton :: skeletonArms rest

end

theorem skeletonStatements_eq (ss : List Statement) :
    skeletonStatements ss = ss.map Statement.skeleton := by
  induction ss with
  | nil => rfl
  | cons s ss ih => rw [skeletonStatements, ih, List.map_cons]

theorem skeletonArms_eq (arms : List MatchArm) :
    skeletonArms arms = arms.map MatchArm.skeleton := by
  induction arms with
  | nil => rfl
  | cons arm arms ih => rw [skeletonArms, ih, List.map_cons]

/-! ### Forgetting in two steps -/

section

variable (grouping : Bool)

mutual

/-- Places may be forgotten before parentheses are. One case for each construct, together with
    the lists in it. -/
theorem Expr.skeleton_skeleton : (e : Expr) →
    (e.skeleton true).skeleton grouping = e.skeleton grouping
  | .identifier .. => rfl
  | .qualified .. => rfl
  | .number .. => rfl
  | .string .. => rfl
  | .boolean .. => rfl
  | .nil _ => rfl
  | .array elements _ => by
    rw [Expr.skeleton, Expr.skeleton, Expr.skeleton, skeletonExprs_skeleton elements]
  | .object entries _ => by
    rw [Expr.skeleton, Expr.skeleton, Expr.skeleton, skeletonEntries_skeleton entries]
  | .bitstring segments _ => by
    rw [Expr.skeleton, Expr.skeleton, Expr.skeleton, skeletonSegments_skeleton segments]
  | .binary left op right _ => by
    rw [Expr.skeleton, Expr.skeleton, Expr.skeleton, left.skeleton_skeleton,
      right.skeleton_skeleton]
  | .unary op operand _ => by
    rw [Expr.skeleton, Expr.skeleton, Expr.skeleton, operand.skeleton_skeleton]
  | .ternary condition onTrue onFalse _ => by
    rw [Expr.skeleton, Expr.skeleton, Expr.skeleton, condition.skeleton_skeleton,
      onTrue.skeleton_skeleton, onFalse.skeleton_skeleton]
  | .elvis condition fallback _ => by
    rw [Expr.skeleton, Expr.skeleton, Expr.skeleton, condition.skeleton_skeleton,
      fallback.skeleton_skeleton]
  | .grouped inner _ => by
    simp only [Expr.skeleton, if_true, inner.skeleton_skeleton]
  | .languageCall language function arguments _ => by
    rw [Expr.skeleton, Expr.skeleton, Expr.skeleton, skeletonExprs_skeleton arguments]
  | .builtinCall name arguments _ => by
    rw [Expr.skeleton, Expr.skeleton, Expr.skeleton, skeletonExprs_skeleton arguments]
  | .index object index _ => by
    rw [Expr.skeleton, Expr.skeleton, Expr.skeleton, object.skeleton_skeleton,
      index.skeleton_skeleton]
  | .fieldAccess object field _ => by
    rw [Expr.skeleton, Expr.skeleton, Expr.skeleton, object.skeleton_skeleton]
  | .pipe stages operators _ => by
    rw [Expr.skeleton, Expr.skeleton, Expr.skeleton, skeletonExprs_skeleton stages, List.map_map]
    rfl

theorem skeletonExprs_skeleton : (es : List Expr) →
    skeletonExprs grouping (skeletonExprs true es) = skeletonExprs grouping es
  | [] => rfl
  | e :: es => by
    rw [skeletonExprs, skeletonExprs, skeletonExprs, e.skeleton_skeleton,
      skeletonExprs_skeleton es]

theorem skeletonEntries_skeleton : (es : List ObjectEntry) →
    skeletonEntries grouping (skeletonEntries true es) = skeletonEntries grouping es
  | [] => rfl
  | .mk key value :: es => by
    rw [skeletonEntries, skeletonEntries, skeletonEntries, value.skeleton_skeleton,
      skeletonEntries_skeleton es]

theorem skeletonSize_skeleton : (e : Option Expr) →
    skeletonSize grouping (skeletonSize true e) = skeletonSize grouping e
  | none => rfl
  | some e => by rw [skeletonSize, skeletonSize, skeletonSize, e.skeleton_skeleton]

theorem skeletonSegments_skeleton : (ss : List BitSegment) →
    skeletonSegments grouping (skeletonSegments true ss) = skeletonSegments grouping ss
  | [] => rfl
  | .mk value size dynamic specifiers _ :: ss => by
    rw [skeletonSegments, skeletonSegments, skeletonSegments, value.skeleton_skeleton,
      skeletonSize_skeleton size, skeletonSegments_skeleton ss]

end

end

/-! ### Sizes -/

theorem isNumber_of_skeleton {e e' : Expr} (h : e'.skeleton true = e.skeleton true) :
    e'.isNumber = e.isNumber := by
  have hkept : ∀ e : Expr, (e.skeleton true).isNumber = e.isNumber := by
    intro e
    cases e <;> rfl
  rw [← hkept, h, hkept]

/-- Whether a size is dynamic does not depend on places. -/
theorem dynamic_of_skeletonSize {size size' : Option Expr}
    (h : skeletonSize true size' = skeletonSize true size) :
    (size'.any fun e => !e.isNumber) = size.any fun e => !e.isNumber := by
  cases size <;> cases size' <;> first | rfl | cases h | skip
  simp only [skeletonSize, Option.some.injEq] at h
  simp only [Option.any_some, isNumber_of_skeleton h]

namespace Parse

/-! ### Literals in patterns -/

theorem skeleton_normalizeLiteral (e : Expr) :
    (normalizeLiteral e).skeleton true = normalizeLiteral (e.skeleton true) := by
  cases e with
  | number value => cases value <;> rfl
  | _ => rfl

theorem skeleton_negateLiteral (p : Position) (e : Expr) :
    (negateLiteral p e).skeleton true = negateLiteral .start (e.skeleton true) := by
  cases e with
  | number value => cases value <;> rfl
  | _ => rfl

end Parse

end PolyScript
