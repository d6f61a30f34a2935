import PolyScript.Proofs.InOrder
import PolyScript.Proofs.ParsedPatterns
import PolyScript.Proofs.Progress

/-!
# The First Tokens of Nodes

A node of a tree is placed at its first token. So a tree that is parsed from some place in
a text is placed at the token that is found there, nothing in it stands before the node
that it is a part of, and parts that come one behind the other in a list are placed at
different tokens, in the order of the list.

Where the first token is depends on the form of the node. It may be an opening bracket or
a keyword, and it may belong to the first part of the node, to the first part of that, and
so on. The text has the answer in all cases: a phrase begins where its tape begins. Trees
that are built in loops need no more than this, since a loop only ever wraps the tree that
it has around what comes behind. For lists the place where each part ends counts as well,
because a part that took up no text would have its place in common with the next one.

Fields of object patterns are listed by their keys and not as they are written, so that
there is no order among their places.

## Main definitions

* `Position.Heads`, `Position.Lists`: A node stands before its parts, or before parts that
  are in the order of the text.
* `Expr.Laid`, `Pattern.Laid`, `Statement.Laid`: This holds of all nodes of a tree.
* `Row`: Places in a part of the text, in order.
* `Parse.PlacesTrees`: A parser returns trees of this kind, placed at the current token.

## Theorems

* `Derives.placed`, `DerivesPattern.placed`, `DerivesStatement.placed`: What is derived is
  placed at its first token.
* `nodes_begin_at_first_tokens`: The same of all that is parsed, and of programs.
-/

namespace PolyScript

open Parse

/-- No part of a node stands before the node. -/
def Position.Heads (p : Position) (parts : List Position) : Prop := ∀ q ∈ parts, p.offset ≤ q.offset

/-- No part of a node stands before the node, and each part stands behind the one before. -/
structure Position.Lists (p : Position) (parts : List Position) : Prop where
  heads : p.Heads parts
  ascending : parts.Pairwise fun q r => q.offset < r.offset

namespace Position

variable {p q r : Position} {parts : List Position}

theorem Heads.nil : p.Heads [] := nofun

theorem heads_cons : p.Heads (q :: parts) ↔ p.offset ≤ q.offset ∧ p.Heads parts :=
  List.forall_mem_cons

theorem heads_pair (hq : p.offset ≤ q.offset) (hr : p.offset ≤ r.offset) : p.Heads [q, r] :=
  heads_cons.2 ⟨hq, heads_cons.2 ⟨hr, .nil⟩⟩

theorem lists_singleton (h : p.offset ≤ q.offset) : p.Lists [q] :=
  ⟨heads_cons.2 ⟨h, .nil⟩, List.pairwise_singleton _ _⟩

end Position

/-! ### Trees -/

mutual

/-- All nodes of an expression stand before their parts. Items, entries, arguments, segments
    and stages are in order. -/
def Expr.Laid : Expr → Prop
  | .identifier .. | .qualified .. | .number .. | .string .. | .boolean .. | .nil _ => True
  | .array es p | .languageCall _ _ es p | .builtinCall _ es p | .pipe es _ p =>
    p.Lists (es.map Expr.position) ∧ exprsLaid es
  | .object es p => p.Lists (es.map (·.value.position)) ∧ entriesLaid es
  | .bitstring ss p => p.Lists (ss.map BitSegment.position) ∧ segmentsLaid ss
  | .binary first _ second p | .elvis first second p | .index first second p =>
    p.Heads [first.position, second.position] ∧ first.Laid ∧ second.Laid
  | .ternary condition onTrue onFalse p =>
    p.Heads [condition.position, onTrue.position, onFalse.position] ∧ condition.Laid ∧
      onTrue.Laid ∧ onFalse.Laid
  | .unary _ e p | .grouped e p | .fieldAccess e _ p => p.Heads [e.position] ∧ e.Laid

def exprsLaid : List Expr → Prop
  | [] => True
  | e :: rest => e.Laid ∧ exprsLaid rest

def optionLaid : Option Expr → Prop
  | none => True
  | some e => e.Laid

def entriesLaid : List ObjectEntry → Prop
  | [] => True
  | .mk _ e :: rest => e.Laid ∧ entriesLaid rest

def BitSegment.Laid : BitSegment → Prop
  | .mk value size _ _ p =>
    p.Heads (value.position :: size.toList.map Expr.position) ∧ value.Laid ∧ optionLaid size

def segmentsLaid : List BitSegment → Prop
  | [] => True
  | s :: rest => s.Laid ∧ segmentsLaid rest

end

mutual

/-- All nodes of a pattern stand before their parts. Elements and segments are in order. -/
def Pattern.Laid : Pattern → Prop
  | .literal e p => p.Heads [e.position] ∧ e.Laid
  | .capture .. | .wildcard _ => True
  | .array ps _ p => p.Lists (ps.map Pattern.position) ∧ patternsLaid ps
  | .object fs p => p.Heads (fs.map (·.pattern.position)) ∧ fieldsLaid fs
  | .bitstring ss p => p.Lists (ss.map BitSegment.position) ∧ segmentsLaid ss

def patternsLaid : List Pattern → Prop
  | [] => True
  | p :: rest => p.Laid ∧ patternsLaid rest

def fieldsLaid : List PatternField → Prop
  | [] => True
  | .mk _ p :: rest => p.Laid ∧ fieldsLaid rest

end

mutual

/-- All nodes of a statement stand before their parts. Statements of blocks and arms of
    match statements are in order. -/
def Statement.Laid : Statement → Prop
  | .assignment target value p =>
    p.Heads [target.position, value.position] ∧ target.Laid ∧ value.Laid
  | .expression e p | .languageCall e _ p => p.Heads [e.position] ∧ e.Laid
  | .conditional condition onTrue onFalse p =>
    p.Heads (condition.position :: onTrue.position :: onFalse.toList.map Block.position) ∧
      condition.Laid ∧ onTrue.Laid ∧ elseLaid onFalse
  | .forIn _ iterable body p =>
    p.Heads [iterable.position, body.position] ∧ iterable.Laid ∧ body.Laid
  | .numericFor _ first last step body p =>
    p.Heads (first.position :: last.position :: body.position :: step.toList.map Expr.position) ∧
      first.Laid ∧ last.Laid ∧ optionLaid step ∧ body.Laid
  | .whileLoop condition body p =>
    p.Heads [condition.position, body.position] ∧ condition.Laid ∧ body.Laid
  | .breakLoop _ | .continueLoop _ | .codeBlock .. => True
  | .block body => body.Laid
  | .select scrutinee arms p =>
    p.Heads [scrutinee.position] ∧ p.Lists (arms.map MatchArm.position) ∧ scrutinee.Laid ∧
      armsLaid arms

def Block.Laid : Block → Prop
  | .mk ss p => p.Lists (ss.map Statement.position) ∧ statementsLaid ss

def elseLaid : Option Block → Prop
  | none => True
  | some body => body.Laid

def statementsLaid : List Statement → Prop
  | [] => True
  | s :: rest => s.Laid ∧ statementsLaid rest

def MatchArm.Laid : MatchArm → Prop
  | .mk pattern body p =>
    p.Heads [pattern.position, body.position] ∧ pattern.Laid ∧ body.Laid

def armsLaid : List MatchArm → Prop
  | [] => True
  | a :: rest => a.Laid ∧ armsLaid rest

end

@[simp] theorem exprsLaid_iff {es : List Expr} : exprsLaid es ↔ ∀ e ∈ es, e.Laid := by
  induction es with
  | nil => simp [exprsLaid]
  | cons e es ih => simp [exprsLaid, ih]

@[simp] theorem optionLaid_iff {o : Option Expr} : optionLaid o ↔ ∀ e ∈ o, e.Laid := by
  cases o <;> simp [optionLaid]

@[simp] theorem entriesLaid_iff {es : List ObjectEntry} :
    entriesLaid es ↔ ∀ e ∈ es, e.value.Laid := by
  induction es with
  | nil => simp [entriesLaid]
  | cons e es ih => cases e; simp [entriesLaid, ObjectEntry.value, ih]

@[simp] theorem segmentsLaid_iff {ss : List BitSegment} : segmentsLaid ss ↔ ∀ s ∈ ss, s.Laid := by
  induction ss with
  | nil => simp [segmentsLaid]
  | cons s ss ih => simp [segmentsLaid, ih]

@[simp] theorem patternsLaid_iff {ps : List Pattern} : patternsLaid ps ↔ ∀ p ∈ ps, p.Laid := by
  induction ps with
  | nil => simp [patternsLaid]
  | cons p ps ih => simp [patternsLaid, ih]

@[simp] theorem fieldsLaid_iff {fs : List PatternField} :
    fieldsLaid fs ↔ ∀ f ∈ fs, f.pattern.Laid := by
  induction fs with
  | nil => simp [fieldsLaid]
  | cons f fs ih => cases f; simp [fieldsLaid, PatternField.pattern, ih]

@[simp] theorem elseLaid_iff {o : Option Block} : elseLaid o ↔ ∀ b ∈ o, b.Laid := by
  cases o <;> simp [elseLaid]

@[simp] theorem statementsLaid_iff {ss : List Statement} :
    statementsLaid ss ↔ ∀ s ∈ ss, s.Laid := by
  induction ss with
  | nil => simp [statementsLaid]
  | cons s ss ih => simp [statementsLaid, ih]

@[simp] theorem armsLaid_iff {arms : List MatchArm} : armsLaid arms ↔ ∀ a ∈ arms, a.Laid := by
  induction arms with
  | nil => simp [armsLaid]
  | cons a arms ih => simp [armsLaid, ih]

/-! ### Rows -/

/-- Places between two bounds, the upper of which is out of reach, in the order of the
    text. -/
structure Row (start stop : Nat) (ps : List Position) : Prop where
  bounds : ∀ p ∈ ps, start ≤ p.offset ∧ p.offset < stop
  ascending : ps.Pairwise fun p q => p.offset < q.offset

namespace Row

variable {start stop stop' : Nat} {ps : List Position} {p : Position}

theorem nil : Row start stop [] := ⟨nofun, .nil⟩

/-- What stands behind a row goes to its end. -/
theorem concat (h : Row start stop ps) (hle : start ≤ stop) (hstart : stop ≤ p.offset)
    (hstop : p.offset < stop') : Row start stop' (ps ++ [p]) := by
  refine ⟨fun q hq => ?_, List.pairwise_append.2 ⟨h.ascending, List.pairwise_singleton _ _, ?_⟩⟩
  · rcases List.mem_append.1 hq with hq | hq
    · have := h.bounds q hq
      omega
    · cases List.mem_singleton.1 hq
      omega
  · intro q hq r hr
    cases List.mem_singleton.1 hr
    have := h.bounds q hq
    omega

theorem lists (h : Row start stop ps) (hp : p.offset ≤ start) : p.Lists ps :=
  ⟨fun q hq => Nat.le_trans hp (h.bounds q hq).1, h.ascending⟩

end Row

/-! ### Expressions -/

/-- Where a phrase stands. A single tree stands at the first token, and the trees of a list
    are found in order between the first token and the end. -/
def Phrase.Placed {source : String} (τ υ : Tape source) : Phrase → Prop
  | .suffixed e | .operand e | .chain _ e | .expression e | .value _ e =>
    e.position = τ.head.position ∧ e.Laid
  | .expressions es => Row τ.start υ.start (es.map Expr.position) ∧ ∀ e ∈ es, e.Laid
  | .entries es => Row τ.start υ.start (es.map (·.value.position)) ∧ ∀ e ∈ es, e.value.Laid
  | .size o => ∀ e ∈ o, τ.start ≤ e.position.offset ∧ e.Laid
  | .segments _ ss => Row τ.start υ.start (ss.map BitSegment.position) ∧ ∀ s ∈ ss, s.Laid

theorem position_literalOf {source : String} {t : Token} {e : Expr}
    (h : literalOf source t = .ok e) : e.position = t.position :=
  (within_literalOf (P := fun p => p = t.position) rfl h).position

/-- A literal is a tree without parts, so its parts are in order. -/
theorem laid_literalOf {source : String} {t : Token} {e : Expr} (h : literalOf source t = .ok e) :
    e.Laid := by
  unfold literalOf at h
  split at h
  · split at h
    · cases h
      trivial
    · cases h
  · cases h
    trivial
  · cases h
    trivial
  · cases h
    trivial
  · cases h
    trivial
  · cases h

section

variable {source : String} {τ υ χ : Tape source} {p q : Position}

/-- A tree that stands at the first token of a tape stands before all that begins there or
    later. -/
theorem Tape.UpTo.offset_le (h : τ.UpTo υ) (hp : p = τ.head.position) (hq : q = υ.head.position) :
    p.offset ≤ q.offset := by
  rw [hp, hq]
  exact h.start

/-- A tree that ends behind a row goes to the end of the row. -/
theorem Row.concat_tree {ps : List Position} (h : Row τ.start υ.start ps) (hrow : τ.UpTo υ)
    (hstart : υ.UpTo χ) {ω : Tape source} (hstop : χ.Before ω) (hp : p = χ.head.position) :
    Row τ.start ω.start (ps ++ [p]) := by
  subst hp
  exact h.concat hrow.start hstart.start hstop.start

end

/-- The tree that is derived for tokens begins at the first of them, and its parts follow it in
    order, each behind the one before. By induction on the derivation: a part stands behind the
    tokens that are taken before it, and a tree that grows at its end, such as an index behind
    its host, keeps the place of what it grew from. -/
theorem Derives.placed {env : Env} {τ υ : Tape env.source} {phrase : Phrase}
    (h : Derives env τ phrase υ) : phrase.Placed τ υ := by
  induction h with
  | literal h => exact ⟨position_literalOf h, laid_literalOf h⟩
  | name | qualified => exact ⟨rfl, trivial⟩
  | segmentName | underscore => exact ⟨rfl, trivial⟩
  | suffixed _ ih | operand _ ih | chain _ _ ih | value _ ih => exact ih
  -- Brackets, and calls, which begin with a tag or a name.
  | languageCall _ _ hstart _ _ ih | builtinCall _ _ hstart _ _ ih | array _ hstart _ _ ih =>
      exact ⟨rfl, ih.1.lists hstart.upTo.start, exprsLaid_iff.2 ih.2⟩
  | object _ hstart _ _ ih => exact ⟨rfl, ih.1.lists hstart.upTo.start, entriesLaid_iff.2 ih.2⟩
  | bitstring _ hstart _ _ ih =>
      exact ⟨rfl, ih.1.lists hstart.upTo.start, segmentsLaid_iff.2 ih.2⟩
  | grouped _ hstart _ _ ih =>
      exact ⟨rfl, Position.heads_cons.2 ⟨hstart.upTo.offset_le rfl ih.1, .nil⟩, ih.2⟩
  | unary _ _ ih =>
      exact ⟨rfl, Position.heads_cons.2 ⟨(Tape.upTo_tail _).offset_le rfl ih.1, .nil⟩, ih.2⟩
  | negative _ h =>
      have hinner := (Tape.upTo_tail _).offset_le rfl (position_literalOf h)
      exact ⟨rfl, Position.heads_cons.2 ⟨hinner, .nil⟩, laid_literalOf h⟩
  -- What is wrapped around a tree stands where that tree stands.
  | fieldAccess _ _ ih =>
      exact ⟨ih.1, Position.heads_cons.2 ⟨Nat.le_refl _, .nil⟩, ih.2⟩
  | index hobject hmid _ _ ihobject ihindex =>
      have hstart := (Tape.Before.upTo hobject.advances).trans hmid.upTo
      have hindex := hstart.offset_le ihobject.1 ihindex.1
      exact ⟨ihobject.1, Position.heads_pair (Nat.le_refl _) hindex, ihobject.2, ihindex.2⟩
  | binary hleft _ _ hmid _ _ ihleft ihright =>
      have hstart := (Tape.Before.upTo hleft.advances).trans hmid.upTo
      have hright := hstart.offset_le ihleft.1 ihright.1
      exact ⟨ihleft.1, Position.heads_pair (Nat.le_refl _) hright, ihleft.2, ihright.2⟩
  | elvis hcondition hmid _ ihcondition ihfallback =>
      have hstart := (Tape.Before.upTo hcondition.advances).trans hmid.upTo
      have hfallback := hstart.offset_le ihcondition.1 ihfallback.1
      exact ⟨ihcondition.1, Position.heads_pair (Nat.le_refl _) hfallback, ihcondition.2,
        ihfallback.2⟩
  | ternary hcondition hmid htrue hcolon _ ihcondition ihtrue ihfalse =>
      have hstart := (Tape.Before.upTo hcondition.advances).trans hmid.upTo
      have hother := (hstart.trans htrue.before.upTo).trans hcolon.upTo
      have hparts := Position.heads_pair (hstart.offset_le ihcondition.1 ihtrue.1)
        (hother.offset_le ihcondition.1 ihfalse.1)
      exact ⟨ihcondition.1, Position.heads_cons.2 ⟨Nat.le_refl _, hparts⟩, ihcondition.2,
        ihtrue.2, ihfalse.2⟩
  -- Lists grow at their ends.
  | noExpressions | noEntries | noSegments => exact ⟨.nil, nofun⟩
  | expressions hes he hend ihlist ihitem =>
      refine ⟨?_, List.forall_mem_append.2 ⟨ihlist.2, List.forall_mem_singleton.2 ihitem.2⟩⟩
      rw [List.map_append]
      exact ihlist.1.concat_tree hes.advances (.refl _) (he.before.trans hend) ihitem.1
  | entries hes hmid he hend ihlist ihitem =>
      refine ⟨?_, List.forall_mem_append.2 ⟨ihlist.2, List.forall_mem_singleton.2 ihitem.2⟩⟩
      rw [List.map_append]
      exact ihlist.1.concat_tree hes.advances hmid.upTo (he.before.trans hend) ihitem.1
  | noSize => exact nofun
  | size hstart _ _ ih =>
      rintro _ ⟨⟩
      exact ⟨hstart.upTo.offset_le rfl ih.1, ih.2⟩
  | segments hss hvalue hsize hend ihlist ihvalue ihsize =>
      have hbefore : Tape.Before _ _ := hvalue.advances
      have hstop := (hbefore.trans hsize.advances).trans hend
      refine ⟨?_, List.forall_mem_append.2 ⟨ihlist.2, List.forall_mem_singleton.2 ?_⟩⟩
      · rw [List.map_append]
        exact ihlist.1.concat_tree hss.advances (.refl _) hstop ihvalue.1
      · refine ⟨Position.heads_cons.2 ⟨Nat.le_refl _, fun q hq => ?_⟩, ihvalue.2,
          optionLaid_iff.2 fun e he => (ihsize e he).2⟩
        rcases List.mem_map.1 hq with ⟨e, he, rfl⟩
        have hsize := (ihsize e (Option.mem_toList.1 he)).1
        rw [ihvalue.1]
        exact Nat.le_trans hbefore.upTo.start hsize

/-! ### Patterns -/

/-- The like for patterns. The fields of an object pattern are in no order. -/
def PatternPhrase.Placed {source : String} (τ υ : Tape source) : PatternPhrase → Prop
  | .pattern p => p.position = τ.head.position ∧ p.Laid
  | .elements ps => Row τ.start υ.start (ps.map Pattern.position) ∧ ∀ p ∈ ps, p.Laid
  | .fields fs => ∀ f ∈ fs, τ.start ≤ f.pattern.position.offset ∧ f.pattern.Laid

theorem placed_normalizeLiteral {e : Expr} {p : Position} (hp : e.position = p) (he : e.Laid) :
    (normalizeLiteral e).position = p ∧ (normalizeLiteral e).Laid := by
  unfold normalizeLiteral
  split
  · exact ⟨hp, trivial⟩
  · exact ⟨hp, he⟩

/-- The sign comes before the number, and takes its place. -/
theorem placed_negateLiteral {e : Expr} {p : Position} (hp : p.offset ≤ e.position.offset)
    (he : e.Laid) : p.offset ≤ (negateLiteral p e).position.offset ∧ (negateLiteral p e).Laid := by
  unfold negateLiteral
  split
  · exact ⟨Nat.le_refl _, trivial⟩
  · exact ⟨Nat.le_refl _, trivial⟩
  · exact ⟨hp, he⟩

/-- The same of patterns. The fields of an object are put in the order of their keys, so they are
    told apart by where they stand and not by where they come in the list. -/
theorem DerivesPattern.placed {env : Env} {τ υ : Tape env.source} {phrase : PatternPhrase}
    (h : DerivesPattern env τ phrase υ) : phrase.Placed τ υ := by
  induction h with
  | literal h =>
      have hvalue := placed_normalizeLiteral (position_literalOf h) (laid_literalOf h)
      refine ⟨rfl, Position.heads_cons.2 ⟨?_, .nil⟩, hvalue.2⟩
      rw [hvalue.1]
  | negative _ _ h =>
      have hnumber := placed_normalizeLiteral (position_literalOf h) (laid_literalOf h)
      have hvalue := placed_negateLiteral ((Tape.upTo_tail _).offset_le rfl hnumber.1) hnumber.2
      exact ⟨rfl, Position.heads_cons.2 ⟨hvalue.1, .nil⟩, hvalue.2⟩
  | wildcard | capture => exact ⟨rfl, trivial⟩
  | array _ hstart _ _ ih => exact ⟨rfl, ih.1.lists hstart.upTo.start, patternsLaid_iff.2 ih.2⟩
  | object _ hstart _ _ ih =>
      -- Fields are sorted by their keys, so each is compared with the brace only.
      refine ⟨rfl, fun q hq => ?_, fieldsLaid_iff.2 fun f hf => (ih f hf).2⟩
      rcases List.mem_map.1 hq with ⟨f, hf, rfl⟩
      exact Nat.le_trans hstart.upTo.start (ih f hf).1
  | bitstring _ hstart hss _ =>
      exact ⟨rfl, hss.placed.1.lists hstart.upTo.start, segmentsLaid_iff.2 hss.placed.2⟩
  | noElements => exact ⟨.nil, nofun⟩
  | elements hps hp hend ihlist ihitem =>
      refine ⟨?_, List.forall_mem_append.2 ⟨ihlist.2, List.forall_mem_singleton.2 ihitem.2⟩⟩
      rw [List.map_append]
      exact ihlist.1.concat_tree hps.advances (.refl _) (hp.before.trans hend) ihitem.1
  | noFields => exact nofun
  | fields hfs hmid _ hinsert _ ihlist ihitem =>
      intro f hf
      rcases PatternField.mem_insert? hinsert f hf with rfl | hf
      · have hstart := Tape.UpTo.trans hfs.advances hmid.upTo
        exact ⟨hstart.offset_le rfl ihitem.1, ihitem.2⟩
      · exact ihlist f hf

/-! ### Statements -/

/-- The like for statements. A block that follows a colon begins with the colon, and one
    that is a conditional with the keyword before the conditional. -/
def StatementPhrase.Placed {source : String} (τ υ : Tape source) : StatementPhrase → Prop
  | .stages es _ => Row τ.start υ.start (es.map Expr.position) ∧ (∀ e ∈ es, e.Laid) ∧
    es.head?.map Expr.position = some τ.head.position
  | .pipe e => e.position = τ.head.position ∧ e.Laid
  | .statement s | .conditional s => s.position = τ.head.position ∧ s.Laid
  | .otherwise o => ∀ b ∈ o, τ.start ≤ b.position.offset ∧ b.Laid
  | .body b => τ.start ≤ b.position.offset ∧ b.Laid
  | .block b => b.position = τ.head.position ∧ b.Laid
  | .statements ss => Row τ.start υ.start (ss.map Statement.position) ∧ ∀ s ∈ ss, s.Laid
  | .arms as => Row τ.start υ.start (as.map MatchArm.position) ∧ ∀ a ∈ as, a.Laid

theorem laid_single {s : Statement} {p : Position} (hp : p.offset ≤ s.position.offset)
    (hs : s.Laid) : (Block.mk [s] p).Laid :=
  ⟨Position.lists_singleton hp, hs, trivial⟩

/-- The same of statements, with the expressions and patterns in them. A statement that is an
    expression stands where the expression does, and an assignment where its target does; all
    others stand at their first token. Blocks and arms hold lists of statements, each of which
    begins behind the end of the one before. -/
theorem DerivesStatement.placed {env : Env} {ahead : Prop} {τ υ : Tape env.source}
    {phrase : StatementPhrase} (h : DerivesStatement env ahead τ phrase υ) :
    phrase.Placed τ υ := by
  -- By rule induction: each part begins where the parts before it have ended, or behind that.
  induction h with
  | stage h =>
      have hstage := h.placed
      exact ⟨Row.nil.concat_tree (.refl _) (.refl _) h.before hstage.1,
        List.forall_mem_singleton.2 hstage.2, congrArg some hstage.1⟩
  | stages hes hmid _ hoperator he ih =>
      refine ⟨?_, List.forall_mem_append.2 ⟨ih.2.1, List.forall_mem_singleton.2 he.placed.2⟩, ?_⟩
      · rw [List.map_append]
        exact ih.1.concat_tree (Tape.Before.upTo hes.advances) (hmid.trans hoperator.upTo)
          he.before he.placed.1
      · rw [List.head?_append, Option.map_or, ih.2.2, Option.some_or]
  | unpiped h => exact h.placed
  | pipe hes _ ih =>
      have hhead : _ = _ := Option.some.inj ih.2.2
      refine ⟨hhead, ih.1.lists ?_, exprsLaid_iff.2 ih.2.1⟩
      rw [hhead]
      exact Nat.le_refl _
  | assignment htarget _ hmid _ ih =>
      have htargetPlaced := htarget.placed
      have hstart := (Tape.Before.upTo htarget.advances).trans hmid.upTo
      exact ⟨htargetPlaced.1, Position.heads_pair (Nat.le_refl _)
        (hstart.offset_le htargetPlaced.1 ih.1), htargetPlaced.2, ih.2⟩
  | chainCall _ _ _ _ _ _ ih =>
      exact ⟨rfl, Position.heads_cons.2 ⟨(Tape.UpTo.refl _).offset_le rfl ih.1, .nil⟩, ih.2⟩
  | guestCall _ _ _ ih => exact ⟨ih.1, Position.heads_cons.2 ⟨Nat.le_refl _, .nil⟩, ih.2⟩
  | expression h => exact ⟨h.placed.1, Position.heads_cons.2 ⟨Nat.le_refl _, .nil⟩, h.placed.2⟩
  | conditional _ hcondition htrue hfalse ihtrue ihfalse =>
      have hbody := (Tape.upTo_tail _).trans hcondition.before.upTo
      have helse := hbody.trans (Tape.Before.upTo htrue.advances)
      refine ⟨rfl, Position.heads_cons.2 ⟨(Tape.upTo_tail _).offset_le rfl hcondition.placed.1,
        Position.heads_cons.2 ⟨Nat.le_trans hbody.start ihtrue.1, fun q hq => ?_⟩⟩,
        hcondition.placed.2, ihtrue.2, elseLaid_iff.2 fun b hb => (ihfalse b hb).2⟩
      rcases List.mem_map.1 hq with ⟨b, hb, rfl⟩
      exact Nat.le_trans helse.start (ihfalse b (Option.mem_toList.1 hb)).1
  | ofConditional _ ih => exact ih
  | noElse => exact nofun
  | elseIf hstart _ _ ih =>
      rintro _ ⟨⟩
      exact ⟨hstart.start, laid_single ((Tape.upTo_tail _).offset_le rfl ih.1) ih.2⟩
  | otherwise hstart _ _ ih =>
      rintro _ ⟨⟩
      exact ⟨Nat.le_trans (hstart.trans (Tape.upTo_tail _)).start ih.1, ih.2⟩
  | single _ hstart _ ih =>
      exact ⟨Nat.le_refl _, laid_single (hstart.upTo.offset_le rfl ih.1) ih.2⟩
  | body _ _ ih => exact ⟨(Tape.upTo_drop _ _).offset_le rfl ih.1, ih.2⟩
  | block _ hstart _ _ ih =>
      exact ⟨rfl, ih.1.lists hstart.upTo.start, statementsLaid_iff.2 ih.2⟩
  | ofBlock _ ih => exact ih
  | noStatements => exact ⟨.nil, nofun⟩
  | statements hss hs hend ihlist ihitem =>
      refine ⟨?_, List.forall_mem_append.2 ⟨ihlist.2, List.forall_mem_singleton.2 ihitem.2⟩⟩
      rw [List.map_append]
      exact ihlist.1.concat_tree hss.advances (.refl _) (hs.before.trans hend) ihitem.1
  | forIn hstart _ hiterable _ ih =>
      have hbody := hstart.upTo.trans hiterable.before.upTo
      exact ⟨rfl, Position.heads_pair (hstart.upTo.offset_le rfl hiterable.placed.1)
        (Nat.le_trans hbody.start ih.1), hiterable.placed.2, ih.2⟩
  -- The step may be missing, so its place is compared only if there is one.
  | numericFor hstart hfirst hcomma hlast hstep hend _ ih =>
      have hcount := (hstart.upTo.trans hfirst.before.upTo).trans hcomma.upTo
      have hclause := hcount.trans hlast.before.upTo
      have hbody := (hclause.trans hend).start
      refine ⟨rfl, Position.heads_cons.2 ⟨hstart.upTo.offset_le rfl hfirst.placed.1,
        Position.heads_cons.2 ⟨hcount.offset_le rfl hlast.placed.1, Position.heads_cons.2
        ⟨Nat.le_trans hbody ih.1, fun q hq => ?_⟩⟩⟩, hfirst.placed.2, hlast.placed.2,
        optionLaid_iff.2 fun e he => ?_, ih.2⟩
      · rcases List.mem_map.1 hq with ⟨e, he, rfl⟩
        rcases hstep e (Option.mem_toList.1 he) with ⟨π, hπ, hderives⟩
        exact (hclause.trans hπ.upTo).offset_le rfl hderives.placed.1
      · rcases hstep e he with ⟨π, _, hderives⟩
        exact hderives.placed.2
  | whileLoop _ hcondition _ ih =>
      have hbody := (Tape.upTo_tail _).trans hcondition.before.upTo
      exact ⟨rfl, Position.heads_pair ((Tape.upTo_tail _).offset_le rfl hcondition.placed.1)
        (Nat.le_trans hbody.start ih.1), hcondition.placed.2, ih.2⟩
  | breakLoop | continueLoop | codeBlock => exact ⟨rfl, trivial⟩
  | select _ hscrutinee hmid _ _ ih =>
      have harms := ((Tape.upTo_tail _).trans hscrutinee.before.upTo).trans hmid.upTo
      exact ⟨rfl, Position.heads_cons.2
        ⟨(Tape.upTo_tail _).offset_le rfl hscrutinee.placed.1, .nil⟩, ih.1.lists harms.start,
        hscrutinee.placed.2, armsLaid_iff.2 ih.2⟩
  | noArms => exact ⟨.nil, nofun⟩
  | arms has hpattern hmid hbody hend ihlist ihbody =>
      have hplaced := hpattern.placed
      have hstop := ((hpattern.before.trans hmid.upTo).trans hbody.before.upTo).trans hend
      have hinside := hpattern.before.upTo.trans hmid.upTo
      refine ⟨?_, List.forall_mem_append.2 ⟨ihlist.2, List.forall_mem_singleton.2
        ⟨Position.heads_pair (Nat.le_refl _) (hinside.offset_le hplaced.1 ihbody.1), hplaced.2,
          ihbody.2⟩⟩⟩
      rw [List.map_append]
      exact ihlist.1.concat_tree has.advances (.refl _) hstop hplaced.1

/-! ### Parsers -/

/-- From any state that a parse of a text can be in, a parser returns trees that stand at
    the current token, and all their nodes stand before their parts. -/
def Parse.PlacesTrees {α : Type} (env : Env) (p : Parse α) (position : α → Position)
    (Laid : α → Prop) : Prop :=
  ∀ {s t : State} {a : α}, s.Sound env.source → p env s = .ok a t →
    position a = s.token.position ∧ Laid a

theorem Parse.placesTrees_of_runs {α : Type} {env : Env} {p : Parse α}
    {position : α → Position} {Laid : α → Prop}
    (h : ∀ τ : Tape env.source, Runs env (env.guard.enabled = true) τ p fun a _ =>
      position a = τ.head.position ∧ Laid a) : PlacesTrees env p position Laid := by
  intro s t a hs hrun
  rcases hs.offers with ⟨τ, hτ⟩
  rcases (h τ).ok hτ hrun with ⟨υ, _, hplaced⟩
  rw [hτ.token]
  exact hplaced

/-- Under any settings, a statement, an expression or a pattern that is parsed from any
    state that a parse of a text can be in stands at the token that was current. In the tree
    no part stands before the node that it is a part of, and statements of a block, elements
    of an array, values of an object, arguments, stages, arms and segments are in the order of
    the text, as are the statements of a program. -/
theorem nodes_begin_at_first_tokens (settings : Settings) (source : String) :
    let parser := Parser.ofSettings settings
    let env := parser.env source
    let grammar := parser.grammar source
    PlacesTrees env grammar.statement Statement.position Statement.Laid ∧
      PlacesTrees env grammar.expression Expr.position Expr.Laid ∧
      PlacesTrees env grammar.pattern Pattern.position Pattern.Laid ∧
      ∀ program, parser.parse source = .ok program →
        (program.statements.map Statement.position).Pairwise (fun p q => p.offset < q.offset) ∧
        ∀ s ∈ program.statements, s.Laid := by
  intro parser env grammar
  have hbuiltin := Registry.isBuiltin_ofSettings settings
  refine ⟨placesTrees_of_runs fun τ => ?_, placesTrees_of_runs fun τ => ?_,
    placesTrees_of_runs fun τ => ?_, fun program h => ?_⟩
  -- What is parsed is derived, and what is derived stands where it begins.
  · exact (runs_statementPart hbuiltin τ).imp fun _ _ h => h.placed
  · exact (runs_expressionPart hbuiltin τ).imp fun _ _ h => h.placed
  · exact (runs_patternPart hbuiltin τ).imp fun _ _ h => h.placed
  · rcases ok_of_run h with ⟨t, hrun, -⟩
    rcases (State.sound_initial source).offers with ⟨τ, hτ⟩
    rcases (runs_program (conforms_forSource hbuiltin env) (by omega) τ).ok hτ hrun with
      ⟨υ, _, hderives⟩
    exact ⟨hderives.placed.1.ascending, hderives.placed.2⟩

/-- A sum with a call on its right, and a program of two statements. -/
theorem nodes_begin_at_first_tokens_sum :
    let parser := Parser.ofSettings Settings.defaults
    let source := "a[0] + f(1, [x])"
    (∃ e t,
      (parser.grammar source).expression (parser.env source) (State.initial source) = .ok e t ∧
      e.position = (State.initial source).token.position ∧ e.Laid) ∧
    ∃ program, parser.parse "x = 1\nif x: y = [2, 3]" = .ok program ∧
      program.statements.length = 2 ∧
      (program.statements.map Statement.position).Pairwise (fun p q => p.offset < q.offset) ∧
      ∀ s ∈ program.statements, s.Laid := by
  intro parser source
  refine ⟨?_, ?_⟩
  -- Only that the parse succeeds is computed; the rest is what the theorem says.
  · have hsome : (run (parser.grammar source).expression (parser.env source)).toOption.isSome =
        true := by decide +kernel
    cases hparse : run (parser.grammar source).expression (parser.env source) with
    | error => rw [hparse] at hsome; cases hsome
    | ok e =>
        rcases ok_of_run hparse with ⟨t, hrun, -⟩
        exact ⟨e, t, hrun, (nodes_begin_at_first_tokens Settings.defaults source).2.1
          (State.sound_initial source) hrun⟩
  · rcases Parser.accepts_of_inOrder parser "x = 1\nif x: y = [2, 3]"
      (fun program => program.statements.length = 2) (by decide +kernel) with
      ⟨program, hparse, hlength⟩
    exact ⟨program, hparse, of_decide_eq_true hlength,
      (nodes_begin_at_first_tokens Settings.defaults _).2.2.2 program hparse⟩

end PolyScript
