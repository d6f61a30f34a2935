import PolyScript.Parse.Error
import PolyScript.Tree.Statement

/-!
# Positions in Trees

All positions that a tree or an error mentions, those of embedded tokens
included. Statements about the positions of a result have the form that each of
them has some property, `Within` for short, and the lemmas below say how that
property of a node comes down to the same of its parts.

## Main definitions

* `Expr.positions`, `Pattern.positions`, `Statement.positions`,
  `Program.positions`, `ParseError.positions`: All positions mentioned.
* `Expr.Within`, `Pattern.Within`, `Statement.Within`, `ParseError.Within`: Each
  of them has a property.

## Theorems

* `Expr.Within.position`, `Pattern.Within.position`: The position of a node is
  among those it mentions.
* `PatternField.mem_insert?`: An insertion adds the new field and no others.
-/

namespace PolyScript

mutual

/-- All positions that an expression mentions. -/
def Expr.positions : Expr → List Position
  | .identifier _ p | .qualified _ _ _ p | .number _ _ p | .string _ _ p | .boolean _ p
  | .nil p => [p]
  | .array elements p => p :: exprPositions elements
  | .object entries p => p :: entryPositions entries
  | .bitstring segments p => p :: segmentPositions segments
  | .binary left _ right p => p :: (left.positions ++ right.positions)
  | .unary _ operand p => p :: operand.positions
  | .ternary condition onTrue onFalse p =>
    p :: (condition.positions ++ onTrue.positions ++ onFalse.positions)
  | .elvis condition fallback p => p :: (condition.positions ++ fallback.positions)
  | .grouped inner p => p :: inner.positions
  | .languageCall _ _ arguments p | .builtinCall _ arguments p => p :: exprPositions arguments
  | .index object index p => p :: (object.positions ++ index.positions)
  | .fieldAccess object _ p => p :: object.positions
  | .pipe stages operators p => p :: (exprPositions stages ++ operators.map Token.position)

/-- All positions that a list of expressions mentions. -/
def exprPositions : List Expr → List Position
  | [] => []
  | e :: rest => e.positions ++ exprPositions rest

/-- All positions that an optional expression mentions. -/
def optionalPositions : Option Expr → List Position
  | none => []
  | some e => e.positions

/-- All positions that the entries of an object literal mention. -/
def entryPositions : List ObjectEntry → List Position
  | [] => []
  | .mk _ value :: rest => value.positions ++ entryPositions rest

/-- All positions that the segments of a bit string mention. -/
def segmentPositions : List BitSegment → List Position
  | [] => []
  | .mk value size _ _ p :: rest =>
    p :: (value.positions ++ optionalPositions size ++ segmentPositions rest)

end

mutual

/-- All positions that a pattern mentions. -/
def Pattern.positions : Pattern → List Position
  | .literal value p => p :: value.positions
  | .capture _ p | .wildcard p => [p]
  | .array elements _ p => p :: patternPositions elements
  | .object fields p => p :: fieldPositions fields
  | .bitstring segments p => p :: segmentPositions segments

/-- All positions that a list of patterns mentions. -/
def patternPositions : List Pattern → List Position
  | [] => []
  | p :: rest => p.positions ++ patternPositions rest

/-- All positions that the fields of an object pattern mention. -/
def fieldPositions : List PatternField → List Position
  | [] => []
  | .mk _ pattern :: rest => pattern.positions ++ fieldPositions rest

end

mutual

/-- All positions that a statement mentions. -/
def Statement.positions : Statement → List Position
  | .assignment target value p => p :: (target.positions ++ value.positions)
  | .expression expr p => p :: expr.positions
  | .conditional condition onTrue onFalse p =>
    p :: (condition.positions ++ onTrue.positions ++ elsePositions onFalse)
  | .forIn _ iterable body p => p :: (iterable.positions ++ body.positions)
  | .numericFor _ first last step body p =>
    p :: (first.positions ++ last.positions ++ optionalPositions step ++ body.positions)
  | .whileLoop condition body p => p :: (condition.positions ++ body.positions)
  | .breakLoop token | .continueLoop token => [token.position]
  | .block body => body.positions
  | .codeBlock _ _ _ p => [p]
  | .languageCall call _ p => p :: call.positions
  | .select scrutinee arms p => p :: (scrutinee.positions ++ armPositions arms)

/-- All positions that a block mentions. -/
def Block.positions : Block → List Position
  | .mk statements p => p :: statementPositions statements

/-- All positions that an optional block mentions. -/
def elsePositions : Option Block → List Position
  | none => []
  | some body => body.positions

/-- All positions that a list of statements mentions. -/
def statementPositions : List Statement → List Position
  | [] => []
  | s :: rest => s.positions ++ statementPositions rest

/-- All positions that the arms of a match statement mention. -/
def armPositions : List MatchArm → List Position
  | [] => []
  | .mk pattern body p :: rest =>
    p :: (pattern.positions ++ body.positions ++ armPositions rest)

end

/-- All positions that a program mentions. -/
def Program.positions (program : Program) : List Position := statementPositions program.statements

/-- All positions that an error mentions. -/
def ParseError.positions : ParseError → List Position
  | .unclosed _ openedAt _ p => [openedAt, p]
  | e => [e.position]

variable (P : Position → Prop)

/-- Every position of an expression has the property. -/
def Expr.Within (e : Expr) : Prop := ∀ p ∈ e.positions, P p

/-- Every position of a pattern has the property. -/
def Pattern.Within (pattern : Pattern) : Prop := ∀ p ∈ pattern.positions, P p

/-- Every position of a statement has the property. -/
def Statement.Within (s : Statement) : Prop := ∀ p ∈ s.positions, P p

/-- Every position of a block has the property. -/
def Block.Within (b : Block) : Prop := ∀ p ∈ b.positions, P p

/-- Every position of an error has the property. -/
def ParseError.Within (e : ParseError) : Prop := ∀ p ∈ e.positions, P p

variable {P}

theorem Expr.position_mem (e : Expr) : e.position ∈ e.positions := by
  cases e <;> simp [Expr.positions, Expr.position]

theorem Pattern.position_mem (p : Pattern) : p.position ∈ p.positions := by
  cases p <;> simp [Pattern.positions, Pattern.position]

theorem ParseError.position_mem (e : ParseError) : e.position ∈ e.positions := by
  cases e <;> simp [ParseError.positions, ParseError.position]

theorem Expr.Within.position {e : Expr} (h : e.Within P) : P e.position :=
  h _ e.position_mem

theorem Pattern.Within.position {p : Pattern} (h : p.Within P) : P p.position :=
  h _ p.position_mem

theorem exprPositions_append (xs ys : List Expr) :
    exprPositions (xs ++ ys) = exprPositions xs ++ exprPositions ys := by
  induction xs with
  | nil => rfl
  | cons x xs ih => simp [exprPositions, ih]

theorem entryPositions_append (xs ys : List ObjectEntry) :
    entryPositions (xs ++ ys) = entryPositions xs ++ entryPositions ys := by
  induction xs with
  | nil => rfl
  | cons x xs ih => cases x; simp [entryPositions, ih]

theorem segmentPositions_append (xs ys : List BitSegment) :
    segmentPositions (xs ++ ys) = segmentPositions xs ++ segmentPositions ys := by
  induction xs with
  | nil => rfl
  | cons x xs ih => cases x; simp [segmentPositions, ih]

theorem patternPositions_append (xs ys : List Pattern) :
    patternPositions (xs ++ ys) = patternPositions xs ++ patternPositions ys := by
  induction xs with
  | nil => rfl
  | cons x xs ih => simp [patternPositions, ih]

theorem statementPositions_append (xs ys : List Statement) :
    statementPositions (xs ++ ys) = statementPositions xs ++ statementPositions ys := by
  induction xs with
  | nil => rfl
  | cons x xs ih => simp [statementPositions, ih]

theorem armPositions_append (xs ys : List MatchArm) :
    armPositions (xs ++ ys) = armPositions xs ++ armPositions ys := by
  induction xs with
  | nil => rfl
  | cons x xs ih => cases x; simp [armPositions, ih]

/-! ### Lists of parts -/

/-- Every position of some expressions has the property. -/
def ExprsWithin (P : Position → Prop) (es : List Expr) : Prop := ∀ p ∈ exprPositions es, P p

/-- Every position of some entries has the property. -/
def EntriesWithin (P : Position → Prop) (es : List ObjectEntry) : Prop :=
  ∀ p ∈ entryPositions es, P p

/-- Every position of some segments has the property. -/
def SegmentsWithin (P : Position → Prop) (ss : List BitSegment) : Prop :=
  ∀ p ∈ segmentPositions ss, P p

/-- Every position of some patterns has the property. -/
def PatternsWithin (P : Position → Prop) (ps : List Pattern) : Prop :=
  ∀ p ∈ patternPositions ps, P p

/-- Every position of some statements has the property. -/
def StatementsWithin (P : Position → Prop) (ss : List Statement) : Prop :=
  ∀ p ∈ statementPositions ss, P p

/-- Every position of some arms has the property. -/
def ArmsWithin (P : Position → Prop) (arms : List MatchArm) : Prop :=
  ∀ p ∈ armPositions arms, P p

theorem exprsWithin_singleton {e : Expr} (h : e.Within P) : ExprsWithin P [e] := by
  intro p hp
  exact h p (by simpa [exprPositions] using hp)

theorem statementsWithin_singleton {s : Statement} (h : s.Within P) : StatementsWithin P [s] := by
  intro p hp
  exact h p (by simpa [statementPositions] using hp)

theorem ExprsWithin.concat {es : List Expr} {e : Expr} (hes : ExprsWithin P es)
    (he : e.Within P) : ExprsWithin P (es ++ [e]) := by
  intro p hp
  rw [exprPositions_append, List.mem_append] at hp
  rcases hp with hp | hp
  · exact hes p hp
  · exact exprsWithin_singleton he p hp

theorem EntriesWithin.concat {es : List ObjectEntry} {key : ObjectKey} {e : Expr}
    (hes : EntriesWithin P es) (he : e.Within P) :
    EntriesWithin P (es ++ [ObjectEntry.mk key e]) := by
  intro p hp
  rw [entryPositions_append, List.mem_append] at hp
  rcases hp with hp | hp
  · exact hes p hp
  · exact he p (by simpa [entryPositions] using hp)

theorem SegmentsWithin.concat {ss : List BitSegment} {s : BitSegment}
    (hss : SegmentsWithin P ss) (hs : SegmentsWithin P [s]) : SegmentsWithin P (ss ++ [s]) := by
  intro p hp
  rw [segmentPositions_append, List.mem_append] at hp
  rcases hp with hp | hp
  · exact hss p hp
  · exact hs p hp

theorem PatternsWithin.concat {ps : List Pattern} {q : Pattern} (hps : PatternsWithin P ps)
    (hq : q.Within P) : PatternsWithin P (ps ++ [q]) := by
  intro p hp
  rw [patternPositions_append, List.mem_append] at hp
  rcases hp with hp | hp
  · exact hps p hp
  · exact hq p (by simpa [patternPositions] using hp)

theorem StatementsWithin.concat {ss : List Statement} {s : Statement}
    (hss : StatementsWithin P ss) (hs : s.Within P) : StatementsWithin P (ss ++ [s]) := by
  intro p hp
  rw [statementPositions_append, List.mem_append] at hp
  rcases hp with hp | hp
  · exact hss p hp
  · exact statementsWithin_singleton hs p hp

theorem ArmsWithin.concat {arms : List MatchArm} {a : MatchArm} (harms : ArmsWithin P arms)
    (ha : ArmsWithin P [a]) : ArmsWithin P (arms ++ [a]) := by
  intro p hp
  rw [armPositions_append, List.mem_append] at hp
  rcases hp with hp | hp
  · exact harms p hp
  · exact ha p hp

/-! ### Fields that are inserted -/

/-- An insertion adds the new field and no others. -/
theorem PatternField.mem_insert? {key : String} {pattern : Pattern}
    {fields result : List PatternField} (h : insert? key pattern fields = some result) :
    ∀ f ∈ result, f = mk key pattern ∨ f ∈ fields := by
  fun_induction insert? key pattern fields generalizing result with
  | case1 =>
      cases h
      exact fun f hf => .inl (List.mem_singleton.1 hf)
  | case2 =>
      cases h
      exact fun f hf => List.mem_cons.1 hf
  | case3 => cases h
  | case4 f rest hlt hne ih =>
      rcases Option.map_eq_some_iff.1 h with ⟨inserted, hinserted, rfl⟩
      intro g hg
      rcases List.mem_cons.1 hg with rfl | hg
      · exact .inr List.mem_cons_self
      · exact (ih hinserted g hg).imp_right (List.mem_cons_of_mem _)

theorem mem_fieldPositions {fields : List PatternField} {p : Position} :
    p ∈ fieldPositions fields ↔ ∃ f ∈ fields, p ∈ f.pattern.positions := by
  induction fields with
  | nil => simp [fieldPositions]
  | cons f rest ih => cases f; simp [fieldPositions, PatternField.pattern, ih]

/-- Inserting a field adds the positions of its pattern and no others. -/
theorem mem_fieldPositions_insert? {key : String} {pattern : Pattern}
    {fields result : List PatternField} (h : PatternField.insert? key pattern fields = some result)
    {p : Position} (hp : p ∈ fieldPositions result) :
    p ∈ pattern.positions ∨ p ∈ fieldPositions fields := by
  rcases mem_fieldPositions.1 hp with ⟨f, hf, hp⟩
  rcases PatternField.mem_insert? h f hf with rfl | hf
  · exact .inl hp
  · exact .inr (mem_fieldPositions.2 ⟨f, hf, hp⟩)

end PolyScript
