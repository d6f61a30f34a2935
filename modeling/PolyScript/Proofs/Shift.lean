import PolyScript.Parse.Pattern
import PolyScript.Parse.Statement

/-!
# Moved Texts

What becomes of a tree when its text is moved to a later place. A text that is
put behind some whole lines keeps its columns, while its lines and its byte
offsets grow; every position and every embedded token of the tree moves along.
Nothing else in a tree depends on the place, and moving is compatible with all
that the rules of the grammar do to trees.

Blocks of guest code are the one construct whose text is not read as tokens.
`Statement.hasCode` says whether a statement contains one.

## Main definitions

* `Shift`: A distance in lines and bytes.
* `Position.shift`, `Token.shift`, `Expr.shift`, `Pattern.shift`,
  `Statement.shift`: What is moved by it.
* `Statement.hasCode`: Whether guest code occurs in a statement.

## Theorems

* `Expr.shift_zero`, `Pattern.shift_zero`, `Statement.shift_zero`: No distance
  moves nothing.
* `PatternField.insert?_shift`: Fields may be moved before or after they are
  sorted in.
-/

namespace PolyScript

/-- A distance between two places: lines and bytes. Columns stay the same. -/
structure Shift where
  lines : Nat
  bytes : Nat

/-- A place moved by a distance. -/
def Position.shift (δ : Shift) (p : Position) : Position :=
  ⟨p.line + δ.lines, p.column, p.offset + δ.bytes⟩

/-- A token moved by a distance. -/
def Token.shift (δ : Shift) (t : Token) : Token :=
  ⟨t.kind, t.text, t.position.shift δ, t.stop + δ.bytes⟩

@[simp] theorem Token.shift_kind (δ : Shift) (t : Token) : (t.shift δ).kind = t.kind := rfl

@[simp] theorem Token.shift_text (δ : Shift) (t : Token) : (t.shift δ).text = t.text := rfl

@[simp] theorem Token.shift_position (δ : Shift) (t : Token) :
    (t.shift δ).position = t.position.shift δ := rfl

section

variable (δ : Shift)

mutual

/-- An expression moved by a distance. -/
def Expr.shift : Expr → Expr
  | .identifier name p => .identifier name (p.shift δ)
  | .qualified language path name p => .qualified language path name (p.shift δ)
  | .number value raw p => .number value raw (p.shift δ)
  | .string value raw p => .string value raw (p.shift δ)
  | .boolean value p => .boolean value (p.shift δ)
  | .nil p => .nil (p.shift δ)
  | .array elements p => .array (shiftExprs elements) (p.shift δ)
  | .object entries p => .object (shiftEntries entries) (p.shift δ)
  | .bitstring segments p => .bitstring (shiftSegments segments) (p.shift δ)
  | .binary left op right p => .binary left.shift op right.shift (p.shift δ)
  | .unary op operand p => .unary op operand.shift (p.shift δ)
  | .ternary condition onTrue onFalse p =>
    .ternary condition.shift onTrue.shift onFalse.shift (p.shift δ)
  | .elvis condition fallback p => .elvis condition.shift fallback.shift (p.shift δ)
  | .grouped inner p => .grouped inner.shift (p.shift δ)
  | .languageCall language function arguments p =>
    .languageCall language function (shiftExprs arguments) (p.shift δ)
  | .builtinCall name arguments p => .builtinCall name (shiftExprs arguments) (p.shift δ)
  | .index object index p => .index object.shift index.shift (p.shift δ)
  | .fieldAccess object field p => .fieldAccess object.shift field (p.shift δ)
  | .pipe stages operators p =>
    .pipe (shiftExprs stages) (operators.map (Token.shift δ)) (p.shift δ)

/-- Expressions moved by a distance. -/
def shiftExprs : List Expr → List Expr
  | [] => []
  | e :: rest => e.shift :: shiftExprs rest

/-- An entry of an object literal moved by a distance. -/
def ObjectEntry.shift : ObjectEntry → ObjectEntry
  | .mk key value => .mk key value.shift

/-- Entries of an object literal moved by a distance. -/
def shiftEntries : List ObjectEntry → List ObjectEntry
  | [] => []
  | e :: rest => e.shift :: shiftEntries rest

/-- The size of a segment moved by a distance. -/
def shiftSize : Option Expr → Option Expr
  | none => none
  | some e => some e.shift

/-- A segment moved by a distance. -/
def BitSegment.shift : BitSegment → BitSegment
  | .mk value size dynamic specifiers p =>
    .mk value.shift (shiftSize size) dynamic specifiers (p.shift δ)

/-- Segments moved by a distance. -/
def shiftSegments : List BitSegment → List BitSegment
  | [] => []
  | s :: rest => s.shift :: shiftSegments rest

end

mutual

/-- A pattern moved by a distance. -/
def Pattern.shift : Pattern → Pattern
  | .literal value p => .literal (value.shift δ) (p.shift δ)
  | .capture name p => .capture name (p.shift δ)
  | .wildcard p => .wildcard (p.shift δ)
  | .array elements rest p => .array (shiftPatterns elements) rest (p.shift δ)
  | .object fields p => .object (shiftFields fields) (p.shift δ)
  | .bitstring segments p => .bitstring (shiftSegments δ segments) (p.shift δ)

/-- Patterns moved by a distance. -/
def shiftPatterns : List Pattern → List Pattern
  | [] => []
  | p :: rest => p.shift :: shiftPatterns rest

/-- A field of an object pattern moved by a distance. -/
def PatternField.shift : PatternField → PatternField
  | .mk key pattern => .mk key pattern.shift

/-- Fields of an object pattern moved by a distance. -/
def shiftFields : List PatternField → List PatternField
  | [] => []
  | f :: rest => f.shift :: shiftFields rest

end

mutual

/-- A statement moved by a distance. -/
def Statement.shift : Statement → Statement
  | .assignment target value p => .assignment (target.shift δ) (value.shift δ) (p.shift δ)
  | .expression expr p => .expression (expr.shift δ) (p.shift δ)
  | .conditional condition onTrue onFalse p =>
    .conditional (condition.shift δ) onTrue.shift (shiftElse onFalse) (p.shift δ)
  | .forIn names iterable body p => .forIn names (iterable.shift δ) body.shift (p.shift δ)
  | .numericFor name first last step body p =>
    .numericFor name (first.shift δ) (last.shift δ) (shiftSize δ step) body.shift (p.shift δ)
  | .whileLoop condition body p => .whileLoop (condition.shift δ) body.shift (p.shift δ)
  | .breakLoop token => .breakLoop (token.shift δ)
  | .continueLoop token => .continueLoop (token.shift δ)
  | .block body => .block body.shift
  | .codeBlock language captures code p => .codeBlock language captures code (p.shift δ)
  | .languageCall call background p => .languageCall (call.shift δ) background (p.shift δ)
  | .select scrutinee arms p => .select (scrutinee.shift δ) (shiftArms arms) (p.shift δ)

/-- A block moved by a distance. -/
def Block.shift : Block → Block
  | .mk statements p => .mk (shiftStatements statements) (p.shift δ)

/-- The else block of a conditional moved by a distance. -/
def shiftElse : Option Block → Option Block
  | none => none
  | some body => some body.shift

/-- Statements moved by a distance. -/
def shiftStatements : List Statement → List Statement
  | [] => []
  | s :: rest => s.shift :: shiftStatements rest

/-- An arm of a match statement moved by a distance. -/
def MatchArm.shift : MatchArm → MatchArm
  | .mk pattern body p => .mk (pattern.shift δ) body.shift (p.shift δ)

/-- Arms of a match statement moved by a distance. -/
def shiftArms : List MatchArm → List MatchArm
  | [] => []
  | a :: rest => a.shift :: shiftArms rest

end

@[simp] theorem shiftExprs_eq (es : List Expr) : shiftExprs δ es = es.map (Expr.shift δ) := by
  induction es with
  | nil => rfl
  | cons e es ih => rw [shiftExprs, ih, List.map_cons]

@[simp] theorem shiftEntries_eq (es : List ObjectEntry) :
    shiftEntries δ es = es.map (ObjectEntry.shift δ) := by
  induction es with
  | nil => rfl
  | cons e es ih => rw [shiftEntries, ih, List.map_cons]

@[simp] theorem shiftSize_eq (e : Option Expr) : shiftSize δ e = e.map (Expr.shift δ) := by
  cases e <;> rfl

@[simp] theorem shiftSegments_eq (ss : List BitSegment) :
    shiftSegments δ ss = ss.map (BitSegment.shift δ) := by
  induction ss with
  | nil => rfl
  | cons s ss ih => rw [shiftSegments, ih, List.map_cons]

@[simp] theorem shiftPatterns_eq (ps : List Pattern) :
    shiftPatterns δ ps = ps.map (Pattern.shift δ) := by
  induction ps with
  | nil => rfl
  | cons p ps ih => rw [shiftPatterns, ih, List.map_cons]

@[simp] theorem shiftFields_eq (fs : List PatternField) :
    shiftFields δ fs = fs.map (PatternField.shift δ) := by
  induction fs with
  | nil => rfl
  | cons f fs ih => rw [shiftFields, ih, List.map_cons]

@[simp] theorem shiftElse_eq (b : Option Block) : shiftElse δ b = b.map (Block.shift δ) := by
  cases b <;> rfl

@[simp] theorem shiftStatements_eq (ss : List Statement) :
    shiftStatements δ ss = ss.map (Statement.shift δ) := by
  induction ss with
  | nil => rfl
  | cons s ss ih => rw [shiftStatements, ih, List.map_cons]

@[simp] theorem shiftArms_eq (arms : List MatchArm) :
    shiftArms δ arms = arms.map (MatchArm.shift δ) := by
  induction arms with
  | nil => rfl
  | cons a arms ih => rw [shiftArms, ih, List.map_cons]

/-! ### What rules do to trees -/

@[simp] theorem Expr.shift_position (e : Expr) : (e.shift δ).position = e.position.shift δ := by
  cases e <;> rfl

@[simp] theorem Pattern.shift_position (p : Pattern) :
    (p.shift δ).position = p.position.shift δ := by
  cases p <;> rfl

@[simp] theorem Expr.shift_isNumber (e : Expr) : (e.shift δ).isNumber = e.isNumber := by
  cases e <;> rfl

@[simp] theorem Expr.shift_isAssignable (e : Expr) :
    (e.shift δ).isAssignable = e.isAssignable := by
  cases e <;> rfl

@[simp] theorem Parse.isGuestCall_shift (e : Expr) :
    Parse.isGuestCall (e.shift δ) = Parse.isGuestCall e := by
  cases e <;> rfl

@[simp] theorem Parse.normalizeLiteral_shift (e : Expr) :
    Parse.normalizeLiteral (e.shift δ) = (Parse.normalizeLiteral e).shift δ := by
  cases e with
  | number value raw p => cases value <;> rfl
  | _ => rfl

@[simp] theorem Parse.negateLiteral_shift (p : Position) (e : Expr) :
    Parse.negateLiteral (p.shift δ) (e.shift δ) = (Parse.negateLiteral p e).shift δ := by
  cases e with
  | number value raw q => cases value <;> rfl
  | _ => rfl

@[simp] theorem PatternField.shift_key (f : PatternField) : (f.shift δ).key = f.key := by
  cases f
  rfl

/-- Fields may be moved before or after they are sorted in. -/
theorem PatternField.insert?_shift (key : String) (pattern : Pattern)
    (fields : List PatternField) :
    PatternField.insert? key (pattern.shift δ) (fields.map (PatternField.shift δ)) =
      (PatternField.insert? key pattern fields).map (List.map (PatternField.shift δ)) := by
  induction fields with
  | nil => rfl
  | cons f rest ih =>
      simp only [List.map_cons, PatternField.insert?, PatternField.shift_key, ih]
      split
      · rfl
      · split
        · rfl
        · cases PatternField.insert? key pattern rest <;> rfl

end

/-! ### No distance -/

@[simp] theorem Token.shift_zero (t : Token) : t.shift ⟨0, 0⟩ = t := rfl

mutual

/-- An expression shifted by nothing is itself. One case for each construct, together with the
    lists in it. -/
theorem Expr.shift_zero : (e : Expr) → e.shift ⟨0, 0⟩ = e
  | .identifier _ _ | .qualified _ _ _ _ | .number _ _ _ | .string _ _ _ | .boolean _ _ | .nil _ =>
    rfl
  | .array elements p => by rw [Expr.shift, shiftExprs_zero elements]; rfl
  | .object entries p => by rw [Expr.shift, shiftEntries_zero entries]; rfl
  | .bitstring segments p => by rw [Expr.shift, shiftSegments_zero segments]; rfl
  | .binary left op right p => by rw [Expr.shift, left.shift_zero, right.shift_zero]; rfl
  | .unary op operand p => by rw [Expr.shift, operand.shift_zero]; rfl
  | .ternary condition onTrue onFalse p => by
    rw [Expr.shift, condition.shift_zero, onTrue.shift_zero, onFalse.shift_zero]; rfl
  | .elvis condition fallback p => by
    rw [Expr.shift, condition.shift_zero, fallback.shift_zero]; rfl
  | .grouped inner p => by rw [Expr.shift, inner.shift_zero]; rfl
  | .languageCall language function arguments p => by
    rw [Expr.shift, shiftExprs_zero arguments]; rfl
  | .builtinCall name arguments p => by rw [Expr.shift, shiftExprs_zero arguments]; rfl
  | .index object index p => by rw [Expr.shift, object.shift_zero, index.shift_zero]; rfl
  | .fieldAccess object field p => by rw [Expr.shift, object.shift_zero]; rfl
  | .pipe stages operators p => by
    have hoperators : operators.map (Token.shift ⟨0, 0⟩) = operators := List.map_id operators
    rw [Expr.shift, shiftExprs_zero stages, hoperators]; rfl

theorem shiftExprs_zero : (es : List Expr) → shiftExprs ⟨0, 0⟩ es = es
  | [] => rfl
  | e :: rest => by rw [shiftExprs, e.shift_zero, shiftExprs_zero rest]

theorem shiftEntries_zero : (es : List ObjectEntry) → shiftEntries ⟨0, 0⟩ es = es
  | [] => rfl
  | .mk key value :: rest => by
    rw [shiftEntries, ObjectEntry.shift, value.shift_zero, shiftEntries_zero rest]

theorem shiftSize_zero : (e : Option Expr) → shiftSize ⟨0, 0⟩ e = e
  | none => rfl
  | some e => by rw [shiftSize, e.shift_zero]

theorem shiftSegments_zero : (ss : List BitSegment) → shiftSegments ⟨0, 0⟩ ss = ss
  | [] => rfl
  | .mk value size dynamic specifiers p :: rest => by
    rw [shiftSegments, BitSegment.shift, value.shift_zero, shiftSize_zero size,
      shiftSegments_zero rest]
    rfl

end

mutual

theorem Pattern.shift_zero : (p : Pattern) → p.shift ⟨0, 0⟩ = p
  | .literal value p => by rw [Pattern.shift, value.shift_zero]; rfl
  | .capture _ _ | .wildcard _ => rfl
  | .array elements rest p => by rw [Pattern.shift, shiftPatterns_zero elements]; rfl
  | .object fields p => by rw [Pattern.shift, shiftFields_zero fields]; rfl
  | .bitstring segments p => by rw [Pattern.shift, shiftSegments_zero segments]; rfl

theorem shiftPatterns_zero : (ps : List Pattern) → shiftPatterns ⟨0, 0⟩ ps = ps
  | [] => rfl
  | p :: rest => by rw [shiftPatterns, p.shift_zero, shiftPatterns_zero rest]

theorem shiftFields_zero : (fs : List PatternField) → shiftFields ⟨0, 0⟩ fs = fs
  | [] => rfl
  | .mk key pattern :: rest => by
    rw [shiftFields, PatternField.shift, pattern.shift_zero, shiftFields_zero rest]

end

mutual

/-- A statement shifted by nothing is itself, with all that is in it. -/
theorem Statement.shift_zero : (s : Statement) → s.shift ⟨0, 0⟩ = s
  | .assignment target value p => by
    rw [Statement.shift, target.shift_zero, value.shift_zero]; rfl
  | .expression expr p => by rw [Statement.shift, expr.shift_zero]; rfl
  | .conditional condition onTrue onFalse p => by
    rw [Statement.shift, condition.shift_zero, onTrue.shift_zero, shiftElse_zero onFalse]; rfl
  | .forIn names iterable body p => by
    rw [Statement.shift, iterable.shift_zero, body.shift_zero]; rfl
  | .numericFor name first last step body p => by
    rw [Statement.shift, first.shift_zero, last.shift_zero, shiftSize_zero step, body.shift_zero]
    rfl
  | .whileLoop condition body p => by
    rw [Statement.shift, condition.shift_zero, body.shift_zero]; rfl
  | .breakLoop _ | .continueLoop _ | .codeBlock _ _ _ _ => rfl
  | .block body => by rw [Statement.shift, body.shift_zero]
  | .languageCall call background p => by rw [Statement.shift, call.shift_zero]; rfl
  | .select scrutinee arms p => by
    rw [Statement.shift, scrutinee.shift_zero, shiftArms_zero arms]; rfl

theorem Block.shift_zero : (b : Block) → b.shift ⟨0, 0⟩ = b
  | .mk statements p => by rw [Block.shift, shiftStatements_zero statements]; rfl

theorem shiftElse_zero : (b : Option Block) → shiftElse ⟨0, 0⟩ b = b
  | none => rfl
  | some b => by rw [shiftElse, b.shift_zero]

theorem shiftStatements_zero : (ss : List Statement) → shiftStatements ⟨0, 0⟩ ss = ss
  | [] => rfl
  | s :: rest => by rw [shiftStatements, s.shift_zero, shiftStatements_zero rest]

theorem shiftArms_zero : (arms : List MatchArm) → shiftArms ⟨0, 0⟩ arms = arms
  | [] => rfl
  | .mk pattern body p :: rest => by
    rw [shiftArms, MatchArm.shift, pattern.shift_zero, body.shift_zero, shiftArms_zero rest]
    rfl

end

/-! ### Guest code in statements -/

mutual

/-- Whether guest code occurs in a statement. -/
def Statement.hasCode : Statement → Bool
  | .codeBlock .. => true
  | .conditional _ onTrue onFalse _ => onTrue.hasCode || elseHasCode onFalse
  | .forIn _ _ body _ | .numericFor _ _ _ _ body _ | .whileLoop _ body _ | .block body =>
    body.hasCode
  | .select _ arms _ => armsHaveCode arms
  | .assignment .. | .expression .. | .breakLoop .. | .continueLoop .. | .languageCall .. => false

/-- Whether guest code occurs in a block. -/
def Block.hasCode : Block → Bool
  | .mk statements _ => statementsHaveCode statements

/-- Whether guest code occurs in the else block of a conditional. -/
def elseHasCode : Option Block → Bool
  | none => false
  | some body => body.hasCode

/-- Whether guest code occurs in a list of statements. -/
def statementsHaveCode : List Statement → Bool
  | [] => false
  | s :: rest => s.hasCode || statementsHaveCode rest

/-- Whether guest code occurs in the arms of a match statement. -/
def armsHaveCode : List MatchArm → Bool
  | [] => false
  | .mk _ body _ :: rest => body.hasCode || armsHaveCode rest

end

/-- Whether guest code occurs in the arm of a match statement. -/
def MatchArm.hasCode (arm : MatchArm) : Bool := arm.body.hasCode

@[simp] theorem statementsHaveCode_concat (ss : List Statement) (s : Statement) :
    statementsHaveCode (ss ++ [s]) = (statementsHaveCode ss || s.hasCode) := by
  induction ss with
  | nil => simp [statementsHaveCode]
  | cons t ss ih => simp [statementsHaveCode, ih, Bool.or_assoc]

theorem statementsHaveCode_eq_false {ss : List Statement} :
    statementsHaveCode ss = false ↔ ∀ s ∈ ss, s.hasCode = false := by
  induction ss with
  | nil => simp [statementsHaveCode]
  | cons t ss ih => simp [statementsHaveCode, ih]

@[simp] theorem armsHaveCode_concat (arms : List MatchArm) (a : MatchArm) :
    armsHaveCode (arms ++ [a]) = (armsHaveCode arms || a.hasCode) := by
  induction arms with
  | nil => cases a; simp [armsHaveCode, MatchArm.hasCode, MatchArm.body]
  | cons b arms ih => cases b; simp [armsHaveCode, ih, Bool.or_assoc]

end PolyScript
