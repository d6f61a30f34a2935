import PolyScript.Proofs.ElseBlocks
import PolyScript.Proofs.InOrder
import PolyScript.Proofs.Lexemes

/-!
# The Shape of Parsed Trees

The types of trees allow for more than a parser builds: a pipe without stages, an
assignment to a number, or a size that is said to be known when it is not. What evaluates a
tree relies on the parser there. The shapes that it relies on are stated as checks that can
be computed, one for expressions, one for patterns and one for each statement by itself.
The derivations of expressions and patterns pass the checks by induction, and the statements
of a program need one case each, since all of them are derived.

A pipe joins whole expressions and is not an operator like others. So an expression that
passes the check has no pipe in it, and in two places of a statement a pipe may stand
instead of such an expression. An underscore is no name, except as the value of a segment of
a bit string pattern, where it stands for a part that is skipped.

## Main definitions

* `Expr.isProper`: No pipes, no underscores, and sizes are marked as what they are.
* `Expr.isProperOrPipe`: A pipe of such expressions may be there instead.
* `Pattern.isProper`: The same for patterns.
* `Statement.IsWellFormed`: The shape of a statement, apart from those within.

## Theorems

* `Derives.isProper`, `DerivesPattern.isProper`: Derived expressions and patterns.
* `DerivesStatement.isWellFormed`: Derived statements.
* `parsed_trees_wellFormed`: All statements of an accepted program are well-formed.
-/

namespace PolyScript

/-! ### Checks -/

/-- Whether an expression is a plain name, be it an underscore. -/
def Expr.isIdentifier : Expr → Bool
  | .identifier .. => true
  | _ => false

mutual

/-- Whether nothing in an expression is a pipe or is named by an underscore, and all sizes of
    segments are marked as what they are. -/
def Expr.isProper : Expr → Bool
  | .identifier name _ => name ≠ "_"
  | .qualified .. | .number .. | .string .. | .boolean .. | .nil _ => true
  | .array es _ | .languageCall _ _ es _ | .builtinCall _ es _ => areProper es
  | .object entries _ => entriesAreProper entries
  | .bitstring segments _ => segmentsAreProper false segments
  | .unary _ e _ | .grouped e _ | .fieldAccess e _ _ => e.isProper
  | .binary e _ e' _ | .elvis e e' _ | .index e e' _ => e.isProper && e'.isProper
  | .ternary e e' e'' _ => e.isProper && e'.isProper && e''.isProper
  | .pipe .. => false

/-- Whether all of some expressions are proper. -/
def areProper : List Expr → Bool
  | [] => true
  | e :: rest => e.isProper && areProper rest

/-- Whether the values of an object literal are proper. -/
def entriesAreProper : List ObjectEntry → Bool
  | [] => true
  | .mk _ e :: rest => e.isProper && entriesAreProper rest

/-- Whether segments are proper. In a pattern any name may be the value of a segment. -/
def segmentsAreProper (inPattern : Bool) : List BitSegment → Bool
  | [] => true
  | .mk value size dynamicSize _ _ :: rest =>
    (inPattern && value.isIdentifier || value.isProper) && sizeIsProper dynamicSize size &&
      segmentsAreProper inPattern rest

/-- Whether a size is proper, and dynamic exactly if it is there and not a number. -/
def sizeIsProper (dynamicSize : Bool) : Option Expr → Bool
  | none => !dynamicSize
  | some e => e.isProper && dynamicSize == !e.isNumber

end

/-- Whether an expression is proper, or else a pipe of proper ones. There are at least two
    stages, and one operator between two of them. -/
def Expr.isProperOrPipe : Expr → Bool
  | .pipe stages operators _ =>
    2 ≤ stages.length && stages.length == operators.length + 1 &&
      operators.all (fun t => t.kind = .pipe) && areProper stages
  | e => e.isProper

mutual

/-- Whether all expressions in a pattern are proper. -/
def Pattern.isProper : Pattern → Bool
  | .literal value _ => value.isProper
  | .capture .. | .wildcard _ => true
  | .array elements _ _ => patternsAreProper elements
  | .object fields _ => fieldsAreProper fields
  | .bitstring segments _ => segmentsAreProper true segments

/-- Whether all of some patterns are proper. -/
def patternsAreProper : List Pattern → Bool
  | [] => true
  | p :: rest => p.isProper && patternsAreProper rest

/-- Whether the fields of an object pattern are proper. -/
def fieldsAreProper : List PatternField → Bool
  | [] => true
  | .mk _ p :: rest => p.isProper && fieldsAreProper rest

end

/-- What a statement is like in a text, apart from the statements within. -/
def Statement.IsWellFormed (source : String) : Statement → Prop
  | .assignment target value _ =>
    target.isAssignable = true ∧ target.isProper = true ∧ value.isProperOrPipe = true
  | .expression e _ => e.isProper = true
  | .conditional condition _ onFalse _ =>
    condition.isProper = true ∧ ∀ b ∈ onFalse, b.FollowsElse source
  | .forIn names iterable _ _ => names ≠ [] ∧ iterable.isProper = true
  | .numericFor _ first last step _ _ =>
    first.isProper = true ∧ last.isProper = true ∧ ∀ e ∈ step, e.isProper = true
  | .whileLoop condition _ _ => condition.isProper = true
  | .languageCall call _ _ => call.isProperOrPipe = true
  | .select scrutinee arms _ =>
    scrutinee.isProper = true ∧ ∀ arm ∈ arms, arm.pattern.isProper = true
  | .breakLoop _ | .continueLoop _ | .block _ | .codeBlock .. => True

/-! ### Expressions -/

theorem areProper_concat (es : List Expr) (e : Expr) :
    areProper (es ++ [e]) = (areProper es && e.isProper) := by
  induction es with
  | nil => simp [areProper]
  | cons e' es ih => simp [areProper, ih, Bool.and_assoc]

theorem entriesAreProper_concat (entries : List ObjectEntry) (key : ObjectKey) (e : Expr) :
    entriesAreProper (entries ++ [ObjectEntry.mk key e]) =
      (entriesAreProper entries && e.isProper) := by
  induction entries with
  | nil => simp [entriesAreProper]
  | cons entry entries ih => cases entry; simp [entriesAreProper, ih, Bool.and_assoc]

theorem segmentsAreProper_concat (inPattern : Bool) (ss : List BitSegment) (s : BitSegment) :
    segmentsAreProper inPattern (ss ++ [s]) =
      (segmentsAreProper inPattern ss && segmentsAreProper inPattern [s]) := by
  induction ss with
  | nil => simp [segmentsAreProper]
  | cons s' ss ih => cases s'; simp [segmentsAreProper, ih, Bool.and_assoc]

theorem Expr.isProper_of_isLiteral {e : Expr} (h : e.isLiteral = true) : e.isProper = true := by
  cases e <;> first | rfl | cases h

theorem Parse.isLiteral_of_literalOf {source : String} {t : Token} {e : Expr}
    (h : literalOf source t = .ok e) : e.isLiteral = true := by
  unfold literalOf at h
  split at h
  · split at h <;> cases h
    rfl
  all_goals cases h
  all_goals rfl

/-- An underscore is read as a token of its own. -/
theorem Tape.text_ne_underscore {source : String} {τ : Tape source}
    (h : τ.head.kind = .identifier) : τ.head.text ≠ "_" := by
  intro htext
  have hkind : Kind.ofWord τ.head.text = .identifier := ((τ.isOf 0).form.isPlain h).2
  rw [htext] at hkind
  cases hkind

/-- Whether all expressions in a phrase are proper. -/
def Phrase.isProper : Phrase → Bool
  | .suffixed e | .operand e | .chain _ e | .expression e => e.isProper
  | .expressions es => areProper es
  | .entries es => entriesAreProper es
  | .value inPattern e => inPattern && e.isIdentifier || e.isProper
  | .size e => e.all Expr.isProper
  | .segments inPattern ss => segmentsAreProper inPattern ss

/-- Derived expressions are proper. The rules of a derivation carry what the parser checks, such
    as that a size is marked as dynamic, so each case only has to collect it. -/
theorem Derives.isProper {env : Parse.Env} {τ υ : Tape env.source} {phrase : Phrase}
    (h : Derives env τ phrase υ) : phrase.isProper = true := by
  induction h with
  | literal h => exact Expr.isProper_of_isLiteral (Parse.isLiteral_of_literalOf h)
  | name hkind => exact decide_eq_true (Tape.text_ne_underscore hkind)
  | qualified => exact rfl
  | languageCall _ _ _ _ _ ih => exact ih
  | builtinCall _ _ _ _ _ ih => exact ih
  | grouped _ _ _ _ ih => exact ih
  | array _ _ _ _ ih => exact ih
  | object _ _ _ _ ih => exact ih
  | bitstring _ _ _ _ ih => exact ih
  | index _ _ _ _ ihobject ihindex => exact Bool.and_eq_true_iff.2 ⟨ihobject, ihindex⟩
  | fieldAccess _ _ ih => exact ih
  | suffixed _ ih => exact ih
  | unary _ _ ih => exact ih
  | operand _ ih => exact ih
  | binary _ _ _ _ _ _ ihleft ihright => exact Bool.and_eq_true_iff.2 ⟨ihleft, ihright⟩
  | chain _ _ ih => exact ih
  | elvis _ _ _ ihcondition ihfallback =>
      exact Bool.and_eq_true_iff.2 ⟨ihcondition, ihfallback⟩
  | ternary _ _ _ _ _ ihcondition ihtrue ihfalse =>
      exact Bool.and_eq_true_iff.2 ⟨Bool.and_eq_true_iff.2 ⟨ihcondition, ihtrue⟩, ihfalse⟩
  | noExpressions | noEntries | noSize | noSegments => exact rfl
  | expressions _ _ _ ihlist ihitem =>
      exact (areProper_concat _ _).trans (Bool.and_eq_true_iff.2 ⟨ihlist, ihitem⟩)
  | entries _ _ _ _ ihlist ihitem =>
      exact (entriesAreProper_concat _ _ _).trans (Bool.and_eq_true_iff.2 ⟨ihlist, ihitem⟩)
  | value _ ih => exact Bool.or_eq_true_iff.2 (.inr ih)
  | negative _ h =>
      have hproper := Expr.isProper_of_isLiteral (Parse.isLiteral_of_literalOf h)
      exact Bool.or_eq_true_iff.2 (.inr hproper)
  | segmentName | underscore => exact rfl
  | size _ _ _ ih => exact ih
  | @segments _ _ _ _ _ inPattern ss e size _ _ _ _ _ ihlist ihvalue ihsize =>
      refine (segmentsAreProper_concat _ _ _).trans (Bool.and_eq_true_iff.2 ⟨ihlist, ?_⟩)
      -- The mark is computed from the size itself.
      have hsize : sizeIsProper (size.any fun e => !e.isNumber) size = true := by
        cases size with
        | none => rfl
        | some e => exact Bool.and_eq_true_iff.2 ⟨ihsize, beq_self_eq_true _⟩
      exact Bool.and_eq_true_iff.2 ⟨Bool.and_eq_true_iff.2 ⟨ihvalue, hsize⟩, rfl⟩

/-! ### Patterns -/

theorem patternsAreProper_concat (ps : List Pattern) (p : Pattern) :
    patternsAreProper (ps ++ [p]) = (patternsAreProper ps && p.isProper) := by
  induction ps with
  | nil => simp [patternsAreProper]
  | cons p' ps ih => simp [patternsAreProper, ih, Bool.and_assoc]

theorem fieldsAreProper_iff {fs : List PatternField} :
    fieldsAreProper fs = true ↔ ∀ f ∈ fs, f.pattern.isProper = true := by
  induction fs with
  | nil => simp [fieldsAreProper]
  | cons f fs ih => cases f; simp [fieldsAreProper, PatternField.pattern, ih]

theorem fieldsAreProper_insert {key : String} {p : Pattern} {fs fs' : List PatternField}
    (h : PatternField.insert? key p fs = some fs') (hp : p.isProper = true)
    (hfs : fieldsAreProper fs = true) : fieldsAreProper fs' = true := by
  refine fieldsAreProper_iff.2 fun f hf => ?_
  rcases PatternField.mem_insert? h f hf with rfl | hf
  · exact hp
  · exact fieldsAreProper_iff.1 hfs f hf

theorem Parse.isLiteral_normalize {e : Expr} (h : e.isLiteral = true) :
    (normalizeLiteral e).isLiteral = true := by
  unfold normalizeLiteral
  split
  · rfl
  · exact h

theorem Parse.isLiteral_negate {e : Expr} (p : Position) (h : e.isLiteral = true) :
    (negateLiteral p e).isLiteral = true := by
  unfold negateLiteral
  split
  · rfl
  · rfl
  · exact h

/-- Whether all expressions in a phrase are proper. -/
def PatternPhrase.isProper : PatternPhrase → Bool
  | .pattern p => p.isProper
  | .elements ps => patternsAreProper ps
  | .fields fs => fieldsAreProper fs

/-- Derived patterns are proper. -/
theorem DerivesPattern.isProper {env : Parse.Env} {τ υ : Tape env.source}
    {phrase : PatternPhrase} (h : DerivesPattern env τ phrase υ) : phrase.isProper = true := by
  induction h with
  | literal h =>
      exact Expr.isProper_of_isLiteral
        (Parse.isLiteral_normalize (Parse.isLiteral_of_literalOf h))
  | negative _ _ h =>
      exact Expr.isProper_of_isLiteral
        (Parse.isLiteral_negate _ (Parse.isLiteral_normalize (Parse.isLiteral_of_literalOf h)))
  | wildcard | capture | noElements | noFields => exact rfl
  | array _ _ _ _ ih => exact ih
  | object _ _ _ _ ih => exact ih
  | bitstring _ _ h => exact h.isProper
  | elements _ _ _ ihlist ihitem =>
      exact (patternsAreProper_concat _ _).trans (Bool.and_eq_true_iff.2 ⟨ihlist, ihitem⟩)
  | fields _ _ _ hinsert _ ihlist ihitem => exact fieldsAreProper_insert hinsert ihitem ihlist

/-! ### Statements -/

theorem Expr.isProperOrPipe_of_isProper {e : Expr} (h : e.isProper = true) :
    e.isProperOrPipe = true := by
  cases e <;> first | exact h | cases h

/-- Derived stages are proper, and one operator is between two of them. -/
theorem DerivesStatement.stages_proper {env : Parse.Env} {ahead : Prop} {τ υ : Tape env.source}
    {es : List Expr} {operators : List Token}
    (h : DerivesStatement env ahead τ (.stages es operators) υ) :
    es.length = operators.length + 1 ∧ (∀ t ∈ operators, t.kind = .pipe) ∧
      areProper es = true := by
  generalize hphrase : StatementPhrase.stages es operators = phrase at h
  induction h generalizing es operators with
  | stage he =>
      cases hphrase
      refine ⟨rfl, List.forall_mem_nil _, ?_⟩
      exact (areProper_concat [] _).trans he.isProper
  | stages _ _ hpipe _ he ih =>
      cases hphrase
      rcases ih rfl with ⟨hlength, hkinds, hproper⟩
      refine ⟨by simp [hlength], List.forall_mem_append.2 ⟨hkinds, ?_⟩, ?_⟩
      · exact List.forall_mem_singleton.2 hpipe
      · exact (areProper_concat _ _).trans (Bool.and_eq_true_iff.2 ⟨hproper, he.isProper⟩)
  | _ => cases hphrase

/-- What is derived where a pipe may stand is a proper expression or a pipe of such. -/
theorem DerivesStatement.isProperOrPipe {env : Parse.Env} {ahead : Prop} {τ υ : Tape env.source}
    {e : Expr} (h : DerivesStatement env ahead τ (.pipe e) υ) : e.isProperOrPipe = true := by
  cases h with
  | unpiped he => exact Expr.isProperOrPipe_of_isProper he.isProper
  | @pipe _ _ e es operators hstages hne =>
      rcases hstages.stages_proper with ⟨hlength, hkinds, hproper⟩
      have hpos := List.length_pos_iff.2 hne
      simp only [Expr.isProperOrPipe, Bool.and_eq_true, decide_eq_true_eq, beq_iff_eq,
        List.all_eq_true]
      exact ⟨⟨⟨by omega, hlength⟩, hkinds⟩, hproper⟩

theorem DerivesStatement.arms_proper {env : Parse.Env} {ahead : Prop} {τ υ : Tape env.source}
    {arms : List MatchArm} (h : DerivesStatement env ahead τ (.arms arms) υ) :
    ∀ arm ∈ arms, arm.pattern.isProper = true := by
  generalize hphrase : StatementPhrase.arms arms = phrase at h
  induction h generalizing arms with
  | noArms =>
      cases hphrase
      exact List.forall_mem_nil _
  | arms _ hp _ _ _ ih =>
      cases hphrase
      exact List.forall_mem_append.2 ⟨ih rfl, List.forall_mem_singleton.2 hp.isProper⟩
  | _ => cases hphrase

/-- Derived statements are well-formed. -/
theorem DerivesStatement.isWellFormed {env : Parse.Env} {ahead : Prop} {τ υ : Tape env.source}
    {s : Statement} (h : DerivesStatement env ahead τ (.statement s) υ) (hτ : τ.Unbroken) :
    s.IsWellFormed env.source := by
  cases h with
  | assignment htarget hassignable _ hvalue =>
      exact ⟨hassignable, htarget.isProper, hvalue.isProperOrPipe⟩
  | chainCall _ _ _ _ hcall => exact hcall.isProperOrPipe
  | guestCall _ hcall => exact hcall.isProperOrPipe
  | expression he => exact he.isProper
  | ofConditional h =>
      cases h with
      | conditional _ hcondition htrue hfalse =>
          -- The tape at the else is unbroken since the one at the beginning is.
          refine ⟨hcondition.isProper, ?_⟩
          rintro b rfl
          exact hfalse.followsElse
            (htrue.advances.unbroken (hcondition.before.unbroken (hτ.drop 1)))
  | ofBlock | breakLoop | continueLoop | codeBlock => exact trivial
  | forIn _ hnames he => exact ⟨hnames, he.isProper⟩
  | numericFor _ hfirst _ hlast hstep =>
      refine ⟨hfirst.isProper, hlast.isProper, fun e he => ?_⟩
      rcases hstep e he with ⟨_, _, hderives⟩
      exact hderives.isProper
  | whileLoop _ he => exact he.isProper
  | select _ he _ harms => exact ⟨he.isProper, harms.arms_proper⟩

/-- Under any settings, all statements of an accepted program are well-formed, at any depth.
    The targets of assignments can be assigned to, loops have variables, and an else that is
    followed by a conditional has a block with nothing else in it. Pipes have at least two
    stages, one operator between two of them, and a place of their own in the statement. Sizes
    in bit strings are dynamic exactly if they are there and no numbers. An underscore is a
    name only as the value of a segment of a pattern. -/
theorem parsed_trees_wellFormed (settings : Settings) (source : String) (program : Program)
    (h : (Parser.ofSettings settings).parse source = .ok program) :
    ∀ s ∈ program.within, s.IsWellFormed source := by
  intro s hs
  rcases Parser.derives_within h s hs with ⟨τ, υ, hτ, hderives⟩
  exact hderives.isWellFormed hτ

/-- A pipe, and an else that is followed by a conditional. -/
theorem parsed_trees_wellFormed_nested :
    let source := "a = b |> c\nif x { } else if y { }"
    ∃ program, (Parser.ofSettings Settings.defaults).parse source = .ok program ∧
      program.within.length = 3 ∧ ∀ s ∈ program.within, s.IsWellFormed source := by
  intro source
  rcases Parser.accepts_of_inOrder (Parser.ofSettings Settings.defaults) source
    (fun program => program.within.length = 3) (by decide +kernel) with
    ⟨program, hparse, hlength⟩
  exact ⟨program, hparse, of_decide_eq_true hlength,
    parsed_trees_wellFormed Settings.defaults source program hparse⟩

end PolyScript
