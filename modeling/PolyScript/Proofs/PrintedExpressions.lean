import PolyScript.Proofs.Skeleton
import PolyScript.Proofs.Spelling

/-!
# Printed Expressions

The expressions whose operators, calls and suffixes are nested the way the grammar nests
them, and the words that such an expression is printed as.

How an expression may be nested depends on how tightly it binds. The tightness counts from
zero, an expression with a ternary or elvis operator, over the precedences of the binary
operators to eight, an operand with prefix operators, and nine, an operand with suffixes.
An operand of an operator has to bind tightly enough for the place where it stands, and
what is in brackets may bind as it will.

A printer that makes the grouping visible puts parentheses around operators and drops
those that were there. Its text is the one that the other printer gives for a tree with
parentheses added and dropped in this way (`Expr.regrouped`), and that tree is nested as
the grammar nests it whenever the first one is.

## Main definitions

* `Expr.Shaped`: An expression that binds at least as tightly as a number says.
* `Expr.words`: The words that an expression is printed as.
* `Expr.regrouped`: An expression with parentheses around its operators.

## Theorems

* `Expr.Shaped.reads`: The printed text is read as these words.
* `Expr.Shaped.parenthesized_eq`: What the printer prints that makes the grouping visible.
* `Expr.Shaped.regrouped`: Adding and dropping parentheses keeps the shape.
-/

namespace PolyScript

/-- The token that stands for an operator. -/
def BinaryOp.kind : BinaryOp → Kind
  | or => .orOr
  | and => .andAnd
  | equal => .eqEq
  | notEqual => .notEq
  | lessThan => .lt
  | greaterThan => .gt
  | lessEqual => .ltEq
  | greaterEqual => .gtEq
  | add => .plus
  | subtract => .minus
  | multiply => .star
  | divide => .slash
  | modulo => .percent
  | concat => .concat

@[simp] theorem BinaryOp.ofKind?_kind (op : BinaryOp) : ofKind? op.kind = some op := by
  cases op <;> rfl

/-- The token that stands for a prefix operator. -/
def UnaryOp.kind : UnaryOp → Kind
  | plus => .plus
  | negate => .minus
  | not => .bang
  | bitNot => .tilde
  | atSign => .atSign

@[simp] theorem UnaryOp.ofKind?_kind (op : UnaryOp) : ofKind? op.kind = some op := by
  cases op <;> rfl

namespace Expr

/-! ### Shapes -/

/-- An expression made of names, numbers, truth values, nil, operators, parentheses,
    arrays, calls and suffixes that is nested as the grammar nests it. It binds at least as
    tightly as the number says. -/
inductive Shaped : Nat → Expr → Prop
  | identifier {r : Nat} {name : String} {p : Position} :
    Lexer.IsPlain name → Shaped r (.identifier name p)
  | number {r : Nat} {value : Number} {raw : String} {p : Position} :
    Lexer.IsNumeral raw.toList → Number.ofText? raw = some value → Shaped r (.number value raw p)
  | boolean {r : Nat} {value : Bool} {p : Position} : Shaped r (.boolean value p)
  | nil {r : Nat} {p : Position} : Shaped r (.nil p)
  | array {r : Nat} {elements : List Expr} {p : Position} :
    (∀ e ∈ elements, Shaped 0 e) → Shaped r (.array elements p)
  | grouped {r : Nat} {inner : Expr} {p : Position} : Shaped 0 inner → Shaped r (.grouped inner p)
  | builtinCall {r : Nat} {name : String} {arguments : List Expr} {p : Position} :
    Lexer.IsPlain name → (∀ e ∈ arguments, Shaped 0 e) → Shaped r (.builtinCall name arguments p)
  | index {r : Nat} {host place : Expr} {p : Position} :
    Shaped 9 host → Shaped 0 place → Shaped r (.index host place p)
  | fieldAccess {r : Nat} {host : Expr} {field : String} {p : Position} :
    Shaped 9 host → Lexer.IsName field.toList → Parse.isMemberName (Kind.ofWord field) = true →
    Shaped r (.fieldAccess host field p)
  | unary {r : Nat} {op : UnaryOp} {operand : Expr} {p : Position} :
    r ≤ 8 → Shaped 8 operand → Shaped r (.unary op operand p)
  | binary {r : Nat} {left right : Expr} {op : BinaryOp} {p : Position} :
    r ≤ op.precedence → Shaped op.precedence left → Shaped (op.precedence + 1) right →
    Shaped r (.binary left op right p)
  | ternary {condition onTrue onFalse : Expr} {p : Position} :
    Shaped 1 condition → Shaped 0 onTrue → Shaped 0 onFalse →
    Shaped 0 (.ternary condition onTrue onFalse p)
  | elvis {condition fallback : Expr} {p : Position} :
    Shaped 1 condition → Shaped 0 fallback → Shaped 0 (.elvis condition fallback p)

/-! ### Words -/

mutual

/-- The words that an expression is printed as. -/
def words : Expr → List Word
  | .identifier name _ => [.verbatim .identifier name]
  | .number _ raw _ => [.verbatim .number raw]
  | .boolean true _ => [.verbatim .kwTrue "true"]
  | .boolean false _ => [.verbatim .kwFalse "false"]
  | .nil _ => [.verbatim .kwNil "nil"]
  | .array elements _ =>
    .verbatim .leftBracket "[" :: (Word.join (wordLists elements) ++ [.verbatim .rightBracket "]"])
  | .grouped inner _ =>
    .verbatim .leftParen "(" :: (words inner ++ [.verbatim .rightParen ")"])
  | .builtinCall name arguments _ =>
    .verbatim .identifier name :: .verbatim .leftParen "(" ::
      (Word.join (wordLists arguments) ++ [.verbatim .rightParen ")"])
  | .index host place _ =>
    words host ++ .verbatim .leftBracket "[" :: (words place ++ [.verbatim .rightBracket "]"])
  | .fieldAccess host field _ =>
    words host ++ [.verbatim .dot ".", .verbatim (Kind.ofWord field) field]
  | .unary op operand _ => .verbatim op.kind op.symbol :: words operand
  | .binary left op right _ => words left ++ .verbatim op.kind op.symbol :: words right
  | .ternary condition onTrue onFalse _ =>
    words condition ++ .verbatim .question "?" ::
      (words onTrue ++ .verbatim .colon ":" :: words onFalse)
  | .elvis condition fallback _ =>
    words condition ++ .verbatim .question "?" :: .verbatim .colon ":" :: words fallback
  | _ => []

/-- The words of several expressions. -/
def wordLists : List Expr → List (List Word)
  | [] => []
  | e :: rest => words e :: wordLists rest

end

theorem wordLists_eq (es : List Expr) : wordLists es = es.map words := by
  induction es with
  | nil => rfl
  | cons e es ih => rw [wordLists, ih, List.map_cons]

end Expr

theorem SourcePrinter.exprs_eq (p : SourcePrinter) (es : List Expr) :
    p.exprs es = es.map p.expr := by
  induction es with
  | nil => rfl
  | cons e es ih => rw [exprs, ih, List.map_cons]

namespace SourcePrinter

theorem plain_wrap (s : String) : plain.wrap s = s := rfl

theorem plain_grouped (inner : Expr) (p : Position) :
    plain.expr (.grouped inner p) = parens (plain.expr inner) := by
  rw [expr]
  rfl

end SourcePrinter

namespace Lexer

theorem IsName.cons {name : String} (h : IsName name.toList) :
    ∃ c cs, name.toList = c :: cs ∧ isNameStart c = true := by
  cases hchars : name.toList with
  | nil =>
      rw [hchars] at h
      cases h.start
  | cons c cs =>
      rw [hchars] at h
      exact ⟨c, cs, rfl, h.start⟩

theorem IsNumeral.cons {raw : String} (h : IsNumeral raw.toList) :
    ∃ c cs, raw.toList = c :: cs ∧ c.isDigit = true := by
  cases hchars : raw.toList with
  | nil =>
      rw [hchars] at h
      cases h.start
  | cons c cs =>
      rw [hchars] at h
      exact ⟨c, cs, rfl, h.start⟩

/-! ### Operators -/

/-- A binary operator has a space behind it. -/
theorem binaryOp_isRead (op : BinaryOp) (cs : List Char) :
    (Word.verbatim op.kind op.symbol).IsRead (' ' :: cs) := by
  cases op <;> exact Spells.isRead ⟨fun _ => rfl, fun _ => rfl⟩ (by decide)

/-- A symbol that begins longer ones is read where none of these stands. -/
theorem symbol_isRead {c : Char} {text : String} {kind : Kind} {rest : List Char}
    (htext : text.toList = [c]) (hc : c ∈ ['-', '!', '.'])
    (hsymbol : symbol? (c :: rest) = some ([c], kind)) (hkind : kind ≠ .endOfInput) :
    (Word.verbatim kind text).IsRead rest := by
  refine Spells.isRead ?_ hkind
  rw [htext]
  simp only [List.mem_cons, List.not_mem_nil, or_false] at hc
  rcases hc with rfl | rfl | rfl
  all_goals
    refine ⟨fun _ => rfl, fun p => ?_⟩
    rw [List.singleton_append, scanToken, hsymbol]
    rfl

/-- A prefix operator has an operand behind it, which does not make it a longer symbol. -/
theorem unaryOp_isRead (op : UnaryOp) {c : Char} (hc : c ≠ '>' ∧ c ≠ '=') (cs : List Char) :
    (Word.verbatim op.kind op.symbol).IsRead (c :: cs) := by
  cases op with
  | negate =>
      have hsymbol : symbol? ('-' :: c :: cs) = some (['-'], .minus) := by
        simp [symbol?, Kind.symbols, List.isPrefixOf, hc.1.symm]
      exact symbol_isRead rfl (by decide) hsymbol (by decide)
  | not =>
      have hsymbol : symbol? ('!' :: c :: cs) = some (['!'], .bang) := by
        simp [symbol?, Kind.symbols, List.isPrefixOf, hc.2.symm]
      exact symbol_isRead rfl (by decide) hsymbol (by decide)
  | _ => exact Spells.isRead ⟨fun _ => rfl, fun _ => rfl⟩ (by decide)

/-- A point has a name behind it. -/
theorem dot_isRead {c : Char} (hc : c ≠ '.') (cs : List Char) :
    (Word.verbatim .dot ".").IsRead (c :: cs) := by
  have hsymbol : symbol? ('.' :: c :: cs) = some (['.'], .dot) := by
    simp [symbol?, Kind.symbols, List.isPrefixOf, hc.symm]
  exact symbol_isRead rfl (by decide) hsymbol (by decide)

theorem question_isRead (cs : List Char) : (Word.verbatim .question "?").IsRead cs :=
  Spells.isRead ⟨fun _ => rfl, fun _ => rfl⟩ (by decide)

end Lexer

namespace Expr

open Lexer hiding plain
open SourcePrinter

variable {r : Nat} {e : Expr}

/-! ### Reading what is printed -/

/-- The first character of a printed expression does not prolong a prefix operator, so `-` in
    front of it is not read as `->` and `!` not as `!=`. -/
theorem Shaped.head (h : Shaped r e) :
    ∃ c cs, (plain.expr e).toList = c :: cs ∧ c ≠ '>' ∧ c ≠ '=' := by
  -- What is put behind a text does not change its first character.
  have hinitial : ∀ s t : String, (∃ c cs, s.toList = c :: cs ∧ c ≠ '>' ∧ c ≠ '=') →
      ∃ c cs, (s ++ t).toList = c :: cs ∧ c ≠ '>' ∧ c ≠ '=' := by
    rintro s t ⟨c, cs, hs, hc⟩
    exact ⟨c, cs ++ t.toList, by rw [String.toList_append, hs, List.cons_append], hc⟩
  have hname : ∀ {name : String}, IsName name.toList →
      ∃ c cs, name.toList = c :: cs ∧ c ≠ '>' ∧ c ≠ '=' := by
    intro name hname
    rcases hname.cons with ⟨c, cs, hchars, hstart⟩
    refine ⟨c, cs, hchars, ?_, ?_⟩ <;>
      · rintro rfl
        revert hstart
        decide +kernel
  -- By induction along the shape: the first character is that of the first part that is printed.
  induction h with
  | identifier hplain => exact hname hplain.isName
  | number hraw =>
      rcases hraw.cons with ⟨c, cs, hchars, hdigit⟩
      refine ⟨c, cs, hchars, ?_, ?_⟩ <;>
        · rintro rfl
          cases hdigit
  | @boolean _ value =>
      cases value with
      | true => exact ⟨'t', ['r', 'u', 'e'], by rw [expr]; rfl, by decide, by decide⟩
      | false => exact ⟨'f', ['a', 'l', 's', 'e'], by rw [expr]; rfl, by decide, by decide⟩
  | nil => exact ⟨'n', ['i', 'l'], by rw [expr]; rfl, by decide, by decide⟩
  | array => exact hinitial _ _ (hinitial _ _ ⟨_, _, rfl, by decide, by decide⟩)
  | grouped => exact hinitial _ _ (hinitial _ _ ⟨_, _, rfl, by decide, by decide⟩)
  | builtinCall hplain => exact hinitial _ _ (hname hplain.isName)
  | index _ _ ih => exact hinitial _ _ (hinitial _ _ (hinitial _ _ ih))
  | fieldAccess _ _ _ ih => exact hinitial _ _ (hinitial _ _ ih)
  | @unary _ op _ _ _ _ _ =>
      refine hinitial _ _ ?_
      cases op <;> exact ⟨_, _, rfl, by decide, by decide⟩
  | binary _ _ _ ih => exact hinitial _ _ (hinitial _ _ (hinitial _ _ (hinitial _ _ ih)))
  | ternary _ _ _ ih => exact hinitial _ _ (hinitial _ _ (hinitial _ _ (hinitial _ _ ih)))
  | elvis _ _ ih => exact hinitial _ _ (hinitial _ _ ih)

/-- A name that is not reserved is read as an identifier. -/
theorem reads_name {name : String} (h : IsPlain name) :
    Reads name.toList [.verbatim .identifier name] := by
  have hlexeme := isLexeme_name h.isName
  rw [h.isIdentifier] at hlexeme
  exact hlexeme.reads

/-- Expressions with commas between them. -/
theorem reads_list {es : List Expr} (h : ∀ e ∈ es, Reads (plain.expr e).toList e.words) :
    Reads (joinWith ", " (plain.exprs es)).toList (Word.join (wordLists es)) := by
  rw [exprs_eq, wordLists_eq]
  exact .join (reads_map h)

/-- The printed text is read as the words of the expression, one case for each construct. -/
theorem Shaped.reads (h : Shaped r e) : Reads (plain.expr e).toList e.words := by
  -- The text of each part is read before what is printed behind it, a bracket or a space, at
  -- which names and numbers are over.
  induction h with
  | identifier hplain => exact reads_name hplain
  | number hraw => exact (isLexeme_numeral hraw).reads
  | @boolean _ value =>
      cases value with
      | true => exact (isLexeme_name (isName_reserved "true" (by decide))).reads
      | false => exact (isLexeme_name (isName_reserved "false" (by decide))).reads
  | nil => exact (isLexeme_name (isName_reserved "nil" (by decide))).reads
  | array _ ih =>
      simpa only [expr, words, String.toList_append, List.append_assoc]
        using (reads_list ih).enclosed .bracket .closingBracket
  | grouped _ ih =>
      simpa only [plain_grouped, words, parens, String.toList_append, List.append_assoc]
        using ih.enclosed .opening .closing
  | builtinCall hplain _ ih =>
      intro rest hrest
      have hrow := (reads_list ih).enclosed .opening .closing rest hrest
      rw [List.append_assoc] at hrow
      have hcall := (reads_name hplain _ (IsMark.opening.breaks _)).append hrow
      simpa only [expr, words, parens, String.toList_append, List.append_assoc, List.cons_append,
        List.nil_append] using hcall
  | index _ _ ihHost ihPlace =>
      intro rest hrest
      have hrow := ihPlace.enclosed .bracket .closingBracket rest hrest
      rw [List.append_assoc] at hrow
      have hindex := (ihHost _ (IsMark.bracket.breaks _)).append hrow
      simpa only [expr, words, String.toList_append, List.append_assoc] using hindex
  | @fieldAccess _ host field p _ hfield _ ih =>
      intro rest hrest
      rcases hfield.cons with ⟨c, cs, hchars, hstart⟩
      -- A name begins behind the dot, so the dot is not read as the first of several.
      have hpoint : c ≠ '.' := by
        rintro rfl
        revert hstart
        decide +kernel
      have hname := (isLexeme_name hfield).reads rest hrest
      rw [Word.verbatim_spelling, hchars] at hname
      have hrow := Row.word (dot_isRead hpoint (cs ++ rest)) hname
      have hbreaks : Breaks ('.' :: c :: (cs ++ rest)) := .field hstart
      have haccess := (ih _ hbreaks).append hrow
      have htext : (plain.expr (.fieldAccess host field p)).toList ++ rest =
          (plain.expr host).toList ++ '.' :: c :: (cs ++ rest) := by
        simp only [expr, hchars, String.toList_append, List.append_assoc]
        rfl
      rw [htext]
      exact haccess
  | @unary _ op operand _ _ hoperand ih =>
      intro rest hrest
      rcases hoperand.head with ⟨c, cs, hchars, hc⟩
      have hread := unaryOp_isRead op hc (cs ++ rest)
      rw [← List.cons_append, ← hchars] at hread
      have hrow := Row.word hread (ih rest hrest)
      simpa only [expr, words, Word.verbatim_spelling, String.toList_append, List.append_assoc]
        using hrow
  | @binary _ left right op p _ _ _ ihLeft ihRight =>
      intro rest hrest
      have hright := Row.word (binaryOp_isRead op _) (ihRight rest hrest).space
      have hrow := (ihLeft _ (.mark (by decide))).append hright.space
      have htext : (plain.expr (.binary left op right p)).toList ++ rest =
          (plain.expr left).toList ++
            ' ' :: (op.symbol.toList ++ ' ' :: ((plain.expr right).toList ++ rest)) := by
        simp only [expr, plain_wrap, String.toList_append, List.append_assoc]
        rfl
      rw [htext]
      exact hrow
  | @ternary condition onTrue onFalse p _ _ _ ihCondition ihTrue ihFalse =>
      intro rest hrest
      have hfalse := Row.mark .colon (ihFalse rest hrest).space
      have htrue := (ihTrue _ (.mark (by decide))).append hfalse.space
      have hquestion := Row.word (question_isRead _) htrue.space
      have hrow := (ihCondition _ (.mark (by decide))).append hquestion.space
      have htext : (plain.expr (.ternary condition onTrue onFalse p)).toList ++ rest =
          (plain.expr condition).toList ++ ' ' :: '?' :: ' ' ::
            ((plain.expr onTrue).toList ++ ' ' :: ':' :: ' ' ::
              ((plain.expr onFalse).toList ++ rest)) := by
        simp only [expr, plain_wrap, String.toList_append, List.append_assoc]
        rfl
      rw [htext]
      exact hrow
  | @elvis condition fallback p _ _ ihCondition ihFallback =>
      intro rest hrest
      have hfallback := Row.mark .colon (ihFallback rest hrest).space
      have hquestion := Row.word (question_isRead _) hfallback.space
      have hrow := (ihCondition _ (.mark (by decide))).append hquestion.space
      have htext : (plain.expr (.elvis condition fallback p)).toList ++ rest =
          (plain.expr condition).toList ++ ' ' :: '?' :: ' ' :: ':' :: ' ' ::
            ((plain.expr fallback).toList ++ rest) := by
        simp only [expr, plain_wrap, String.toList_append, List.append_assoc]
        rfl
      rw [htext]
      exact hrow

/-! ### Visible grouping -/

mutual

/-- An expression with parentheses around its operators, and without those that were
    there. -/
def regrouped : Expr → Expr
  | .array elements p => .array (regroupedList elements) p
  | .grouped inner p => if isOperation inner then regrouped inner else .grouped (regrouped inner) p
  | .builtinCall name arguments p => .builtinCall name (regroupedList arguments) p
  | .index host place p => .index (regrouped host) (regrouped place) p
  | .fieldAccess host field p => .fieldAccess (regrouped host) field p
  | .unary op operand p => .unary op (regrouped operand) p
  | .binary left op right p => .grouped (.binary (regrouped left) op (regrouped right) p) p
  | .ternary condition onTrue onFalse p =>
    .grouped (.ternary (regrouped condition) (regrouped onTrue) (regrouped onFalse) p) p
  | .elvis condition fallback p => .grouped (.elvis (regrouped condition) (regrouped fallback) p) p
  | e => e

/-- The same of several expressions. -/
def regroupedList : List Expr → List Expr
  | [] => []
  | e :: rest => regrouped e :: regroupedList rest

end

theorem regroupedList_eq (es : List Expr) : regroupedList es = es.map regrouped := by
  induction es with
  | nil => rfl
  | cons e es ih => rw [regroupedList, ih, List.map_cons]

/-- An operator comes to stand in parentheses. -/
theorem regrouped_operation (h : isOperation e = true) :
    ∃ inner p, e.regrouped = .grouped inner p := by
  cases e <;> cases h
  all_goals exact ⟨_, _, by rw [regrouped]⟩

/-- A printer that makes the grouping visible prints the regrouped tree. -/
theorem Shaped.parenthesized_eq (h : Shaped r e) :
    parenthesized.expr e = plain.expr e.regrouped := by
  -- By induction along the shape. Only operations differ, and they come with parentheses.
  induction h with
  | array _ ih =>
      rw [expr, regrouped, expr, exprs_eq, exprs_eq, regroupedList_eq, List.map_map,
        List.map_congr_left ih]
      rfl
  | builtinCall _ _ ih =>
      rw [expr, regrouped, expr, exprs_eq, exprs_eq, regroupedList_eq, List.map_map,
        List.map_congr_left ih]
      rfl
  | @grouped _ inner _ _ ih =>
      rw [expr, regrouped, show parenthesized.grouping = true from rfl, Bool.true_and]
      by_cases hoperation : isOperation inner = true
      · rw [if_pos hoperation, if_pos hoperation, ih]
      · rw [if_neg hoperation, if_neg hoperation, plain_grouped, ih]
  | index _ _ ihHost ihPlace => rw [expr, regrouped, expr, ihHost, ihPlace]
  | fieldAccess _ _ _ ih => rw [expr, regrouped, expr, ih]
  | unary _ _ ih => rw [expr, regrouped, expr, ih]
  | binary _ _ _ ihLeft ihRight =>
      rw [expr, regrouped, plain_grouped, expr, ihLeft, ihRight]
      rfl
  | ternary _ _ _ ihCondition ihTrue ihFalse =>
      rw [expr, regrouped, plain_grouped, expr, ihCondition, ihTrue, ihFalse]
      rfl
  | elvis _ _ ihCondition ihFallback =>
      rw [expr, regrouped, plain_grouped, expr, ihCondition, ihFallback]
      rfl
  | @boolean _ value => cases value <;> simp only [expr, regrouped]
  | _ => simp only [expr, regrouped]

/-- The regrouped tree is the same apart from parentheses. -/
theorem Shaped.skeleton_regrouped (h : Shaped r e) :
    e.regrouped.skeleton false = e.skeleton false := by
  have hlist : ∀ es : List Expr, (∀ e ∈ es, e.regrouped.skeleton false = e.skeleton false) →
      skeletonExprs false (regroupedList es) = skeletonExprs false es := by
    intro es hes
    rw [skeletonExprs_eq, skeletonExprs_eq, regroupedList_eq, List.map_map]
    exact List.map_congr_left hes
  -- Parentheses are left out of the comparison, so wherever they were added the parts decide.
  induction h with
  | array _ ih => rw [regrouped, skeleton, skeleton, hlist _ ih]
  | builtinCall _ _ ih => rw [regrouped, skeleton, skeleton, hlist _ ih]
  | @grouped _ inner _ _ ih =>
      rw [regrouped]
      by_cases hoperation : isOperation inner = true
      · rw [if_pos hoperation, ih]
        rfl
      · rw [if_neg hoperation]
        exact ih
  | index _ _ ihHost ihPlace => rw [regrouped, skeleton, skeleton, ihHost, ihPlace]
  | fieldAccess _ _ _ ih => rw [regrouped, skeleton, skeleton, ih]
  | unary _ _ ih => rw [regrouped, skeleton, skeleton, ih]
  | binary _ _ _ ihLeft ihRight =>
      simp only [regrouped, skeleton, Bool.false_eq_true, if_false, ihLeft, ihRight]
  | ternary _ _ _ ihCondition ihTrue ihFalse =>
      simp only [regrouped, skeleton, Bool.false_eq_true, if_false, ihCondition, ihTrue, ihFalse]
  | elvis _ _ ihCondition ihFallback =>
      simp only [regrouped, skeleton, Bool.false_eq_true, if_false, ihCondition, ihFallback]
  | _ => rfl

/-- Regrouping keeps the shape. It puts parentheses around every operation, and inside of
    parentheses any shape is allowed. -/
theorem Shaped.regrouped (h : Shaped r e) : Shaped r e.regrouped := by
  have hlist : ∀ es : List Expr, (∀ e ∈ es, Shaped 0 e.regrouped) →
      ∀ e ∈ regroupedList es, Shaped 0 e := by
    intro es hes e he
    rw [regroupedList_eq] at he
    rcases List.mem_map.1 he with ⟨e', he', rfl⟩
    exact hes e' he'
  induction h with
  | identifier hplain => exact .identifier hplain
  | number hraw hvalue => exact .number hraw hvalue
  | boolean => exact .boolean
  | nil => exact .nil
  | array _ ih =>
      rw [Expr.regrouped]
      exact .array (hlist _ ih)
  | builtinCall hplain _ ih =>
      rw [Expr.regrouped]
      exact .builtinCall hplain (hlist _ ih)
  | @grouped _ inner _ _ ih =>
      rw [Expr.regrouped]
      -- An operation has parentheses of its own after regrouping.
      by_cases hoperation : isOperation inner = true
      · rw [if_pos hoperation]
        rcases regrouped_operation hoperation with ⟨inside, p, hinside⟩
        rw [hinside] at ih ⊢
        cases ih with
        | grouped hshaped => exact .grouped hshaped
      · rw [if_neg hoperation]
        exact .grouped ih
  | index _ _ ihHost ihPlace =>
      rw [Expr.regrouped]
      exact .index ihHost ihPlace
  | fieldAccess _ hname hmember ih =>
      rw [Expr.regrouped]
      exact .fieldAccess ih hname hmember
  | unary hr _ ih =>
      rw [Expr.regrouped]
      exact .unary hr ih
  | binary _ _ _ ihLeft ihRight =>
      rw [Expr.regrouped]
      exact .grouped (.binary (Nat.zero_le _) ihLeft ihRight)
  | ternary _ _ _ ihCondition ihTrue ihFalse =>
      rw [Expr.regrouped]
      exact .grouped (.ternary ihCondition ihTrue ihFalse)
  | elvis _ _ ihCondition ihFallback =>
      rw [Expr.regrouped]
      exact .grouped (.elvis ihCondition ihFallback)

end Expr

end PolyScript
