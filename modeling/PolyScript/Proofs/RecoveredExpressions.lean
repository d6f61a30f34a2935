import PolyScript.Parser
import PolyScript.Proofs.RecoveredSegments

/-!
# Parsed Expressions Are Recovered from Print

The rules of the grammar from operands to whole expressions. Suffixes and operators are added
in loops, so the invariant of such a loop is that what has been read so far is recovered at the
place where the loop goes on. Levels close the circle: what the parts of a construct are
recovered by is the grammar one level below.

A dotted chain behind a language tag takes all dots that follow. So a qualified name is never
the host of a field access, which would be read back as a longer name.

## Main definitions

* `Parse.RecoversSuffixed`: An operand is recovered where suffixes may follow.
* `Parse.RecoversOperation`: An expression is recovered where operators may follow.

## Theorems

* `Parse.comes_primary`, `Parse.comes_suffixes`, `Parse.comes_operand`: Operands.
* `Parse.comes_binary`, `Parse.comes_expression`: Operators and conditional tails.
* `Parse.repeats_level`: Every level of the grammar repeats what it yields.
-/

namespace PolyScript

namespace Parse

variable {P : Parser} {source : String} {g : Grammar} {depth : Nat} {m m' : Bool}
  {τ υ : Tape (P.env source).source} {e : Expr}

/-! ### Lists in brackets -/

theorem comes_arrayLiteral (hg : Repeats P source g) :
    Comes (P.env source) depth m τ (arrayLiteral g) fun e m' _ => e.isQualified = false ∧
      (e.Printable → ∃ ps,
        ReprintsBy arrayLiteral (fun _ => True) P depth e m (.mark .leftBracket "[" :: ps) m') := by
  refine .expect fun _ => (comes_expressions fun m υ => hg.expression depth m υ).bind
    fun es m' υ hes => .expectClosing (.pure ⟨rfl, fun hprintable => ?_⟩)
  rcases hes fun x hx => hprintable x (List.mem_cons_of_mem _ hx) with ⟨ps, hps⟩
  exact ⟨_, printsAs_array (fun _ _ _ _ he => he.printsAs) hps, regains_array hps _⟩

/-- Object literals are not printable. -/
theorem comes_objectLiteral (hg : Repeats P source g) :
    Comes (P.env source) depth m τ (objectLiteral g) fun e _ _ => e.isQualified = false ∧
      ¬e.Printable := by
  have hentry : ∀ (entries : List ObjectEntry) m (υ : Tape (P.env source).source),
      Comes (P.env source) depth m υ (do return entries ++ [← objectEntry g])
        fun _ _ _ => True := by
    intro entries m υ
    refine Comes.bind (R := fun _ _ _ => True) (.current ?_) fun _ _ _ _ => .pure trivial
    split
    · exact .throw
    · exact .consume (.expect fun _ => .skipNewlines fun _ χ =>
        (hg.expression depth m χ).bind fun _ _ _ _ => .pure trivial)
  refine .expect fun _ => (Comes.commaList (I := fun _ _ => True) trivial
    fun entries m υ _ => hentry entries m υ).bind fun entries m' υ _ => ?_
  exact .expectClosing (.pure ⟨rfl, fun hprintable => hprintable _ List.mem_cons_self⟩)

/-! ### Operands -/

/-- An operand is recovered where suffixes may follow. If it is a qualified name then that is
    all of its chain. -/
def RecoversSuffixed (P : Parser) (depth : Nat) (m : Bool) (e : Expr) (m' : Bool)
    (υ : Tape (P.env source).source) : Prop :=
  (e.isQualified = true → υ.head.kind ≠ .dot) ∧ (e.Printable → ∃ ps,
    PrintsAs m e ps m' ∧ RegainsSuffixed P depth m e ps m')

/-- What is read in brackets of its own does not depend on what follows. -/
theorem RecoversSuffixed.of_brackets (kind : Kind) (text : String)
    (hkind : UnaryOp.ofKind? kind = none) (hqualified : e.isQualified = false)
    (h : e.Printable → ∃ ps,
      ReprintsBy primary (fun _ => True) P depth e m (.mark kind text :: ps) m') :
    RecoversSuffixed P depth m e m' υ := by
  refine ⟨fun htrue => absurd (hqualified.symm.trans htrue) nofun, fun hprintable => ?_⟩
  rcases h hprintable with ⟨ps, hps⟩
  exact ⟨_, hps.printsAs, (hps.regains.mono fun _ _ => trivial).suffixed
    ⟨_, _, rfl, Piece.suits_mark _ _ _, hkind⟩⟩

theorem comes_primary_literal :
    Comes (P.env source) depth m τ literal (RecoversSuffixed P depth m) := by
  refine .literal fun e he => ?_
  rcases literal_recovered (τ.form 0) he with ⟨w, hword, -, hprints⟩
  refine ⟨fun hqualified => ?_, fun _ => ⟨_, hprints m, (regains_literal hword).suffixed
    ⟨_, _, rfl, Piece.suits_fixed w m, ?_⟩⟩⟩
  · cases hword <;> cases hqualified
  · rw [Piece.kind_fixed]
    cases hword <;> rfl

/-- Behind an operand that is recovered, suffixes make one that is recovered as a whole. The loop
    keeps this as its invariant. -/
theorem comes_suffixes (hg : Repeats P source g) (he : RecoversSuffixed P depth m e m' τ) :
    Comes (P.env source) depth m' τ (suffixes g e) fun e k _ =>
      Recovers (ReprintsBy operand (Ceases 8) P depth) m e k := by
  refine .loop (I := fun e k υ => RecoversSuffixed P depth m e k υ) he fun host k υ hhost => ?_
  refine .peekKind 0 ?_
  split
  · refine .consume (.skipNewlines fun _ χ => (hg.expression depth k χ).bind fun place l ω hplace =>
      .skipNewlines fun _ _ => .expectClosing (.pure ⟨nofun, fun hprintable => ?_⟩))
    rcases hhost.2 (hprintable.part fun _ hx => List.mem_append_left _ hx) with ⟨ps, hps⟩
    rcases hplace (hprintable.part fun _ hx => List.mem_append_right _ hx) with ⟨qs, hqs⟩
    exact ⟨_, printsAs_index hps.1 hqs.printsAs.prints, regainsSuffixed_index hps.2 hqs⟩
  · rename_i hdot
    -- Behind a qualified name there would be no dot left.
    have hqualified : host.isQualified = false :=
      Bool.not_eq_true _ ▸ fun htrue => hhost.1 htrue hdot
    refine .consume (.undashed fun hundashed => .memberName fun hmember =>
      .ite_check (fun _ => .throw) fun _ => .pure ⟨nofun, fun hprintable => ?_⟩)
    rcases hundashed.suited_head hmember with ⟨hfield, hword⟩
    rcases hhost.2 (hprintable.part fun _ hx => hx) with ⟨ps, hps⟩
    exact ⟨_, printsAs_fieldAccess hps.1 hfield,
      regainsSuffixed_fieldAccess (by rw [hword, hmember]) hps.2 hqualified⟩
  · exact .pure fun hprintable => (hhost.2 hprintable).imp fun ps hps => ⟨hps.1, hps.2.operand⟩

section

variable (hP : P.languages = .ofList Language.defaults)

include hP

theorem comes_primary_reference (hg : Repeats P source g)
    (hname : isMemberName τ.head.kind = true) :
    Comes (P.env source) depth m τ (reference g) (RecoversSuffixed P depth m) := by
  refine (comes_reference hP hg hname).imp fun e m' υ he => ⟨he.1.1, fun hprintable => ?_⟩
  rcases he.1.2 hprintable with ⟨name, ps, hkind, hps⟩
  rw [← hkind] at hname
  refine ⟨_, hps.printsAs, (hps.regains.primary_reference hname).suffixed
    ⟨_, _, rfl, Piece.suits_name _ _, ?_⟩⟩
  rw [Piece.kind_name]
  rcases isMemberName_cases hname with hname | hname <;>
    · rw [hname]
      rfl

/-- Primary expressions are recovered where suffixes may follow, one case for each token that may
    begin one. -/
theorem comes_primary (hg : Repeats P source g) :
    Comes (P.env source) depth m τ (primary g) (RecoversSuffixed P depth m) := by
  refine .current ?_
  -- The kind of the first token settles what the operand is. Objects are not printed, so nothing
  -- is claimed of them.
  split
  · exact comes_primary_literal
  · exact comes_primary_literal
  · exact comes_primary_literal
  · exact comes_primary_literal
  · exact comes_primary_literal
  · rename_i hkind
    exact comes_primary_reference hP hg (by rw [hkind]; rfl)
  · rename_i hkind
    exact comes_primary_reference hP hg (by rw [hkind]; rfl)
  · refine (comes_grouped hg).imp fun e m' υ he =>
      .of_brackets .leftParen "(" rfl he.1 fun hprintable => ?_
    exact (he.2 hprintable).imp fun ps hps => ⟨hps.printsAs, hps.regains.primary_grouped⟩
  · refine (comes_arrayLiteral hg).imp fun e m' υ he =>
      .of_brackets .leftBracket "[" rfl he.1 fun hprintable => ?_
    exact (he.2 hprintable).imp fun ps hps => ⟨hps.printsAs, hps.regains.primary_array⟩
  · refine (comes_objectLiteral hg).imp fun e m' υ he =>
      ⟨fun hqualified => absurd (he.1.symm.trans hqualified) nofun,
        fun hprintable => absurd hprintable he.2⟩
  · refine (comes_bitstring hP hg).bind fun r m' υ hr =>
      .pure (.of_brackets .bitOpen "<<" rfl rfl fun hprintable => ?_)
    rcases hr.2 (fun x hx => hprintable x (List.mem_cons_of_mem _ hx))
      (hprintable _ List.mem_cons_self) with ⟨ps, hps⟩
    exact ⟨_, printsAs_bitstring (fun _ _ _ _ hs => hs.prints) hps,
      regains_bitstring hr.1 (hps.imp fun _ _ _ _ _ hs => hs.toRegainsSegment) _⟩
  · exact .throw

/-- A prefix operator has entered a level, so it may do so again. -/
theorem comes_operand (hg : Repeats P source g) :
    Comes (P.env source) depth m τ (operand g) fun e m' _ =>
      Recovers (ReprintsBy operand (Ceases 8) P depth) m e m' := by
  refine .peekKind 0 ?_
  split
  · refine .consume (Comes.bind (R := fun e m' _ => P.guard.Admits depth ∧
      Recovers (ReprintsBy operand (Ceases 8) P (depth + 1)) m e m') ?_ ?_)
    · exact .nested fun hguard => (hg.operand _ m _).imp fun e m' υ he => ⟨hguard, he⟩
    · rintro e m' υ ⟨hguard, he⟩
      refine .pure fun hprintable => ?_
      rcases he (hprintable.part fun _ hx => hx) with ⟨ps, hps⟩
      exact ⟨_, printsAs_unary hps.printsAs, regains_unary hguard hps.regains⟩
  · exact (comes_primary hP hg).bind fun e m' υ he => comes_suffixes hg he

/-! ### Operators -/

/-- An expression is recovered where operators may follow. -/
def RecoversOperation (P : Parser) (depth : Nat) (m : Bool) (e : Expr) (m' : Bool) : Prop :=
  Recovers (fun e m ps m' => PrintsAs m e ps m' ∧ RegainsOperation P depth m e ps m') m e m'

theorem comes_first (hg : Repeats P source g) :
    Comes (P.env source) depth m τ (operand g)
      fun e m' _ => RecoversOperation P depth m e m' :=
  (comes_operand hP hg).imp fun _ _ _ he hprintable =>
    (he hprintable).imp fun _ hps => ⟨hps.printsAs, hps.regains.operation⟩

/-- A chain of operators takes one more operand in each round. -/
theorem comes_binary (hg : Repeats P source g) (levels least : Nat) :
    Comes (P.env source) depth m τ (binary g levels least)
      fun e m' _ => RecoversOperation P depth m e m' := by
  induction levels generalizing least m τ with
  | zero => exact comes_first hP hg
  | succ levels ih =>
      refine (comes_first hP hg).bind fun first m' υ hfirst =>
        .loop (I := fun e k _ => RecoversOperation P depth m e k) hfirst
          fun left k χ hleft => .peekKind 0 ?_
      split
      · refine .ite (fun _ => .pure hleft) fun _ => .consume (.skipNewlines fun _ ω =>
          (ih _).bind fun right l _ hright => .pure fun hprintable => ?_)
        rcases hleft (hprintable.part fun _ hx => List.mem_append_left _ hx) with ⟨ps, hps⟩
        rcases hright (hprintable.part fun _ hx => List.mem_append_right _ hx) with ⟨qs, hqs⟩
        -- The operands are nested by precedence, as they are wherever the parser made them.
        exact ⟨_, printsAs_binary hps.1 hqs.1.prints,
          regainsOperation_binary (hprintable _ List.mem_cons_self) hps.2 hqs.1.heads.begins
            hqs.2⟩
      · exact .pure hleft

/-! ### Conditional tails -/

omit hP in
/-- Behind a condition, `?` and what follows make a ternary or a default that is recovered, and
    without it the condition is all. -/
theorem comes_conditionalTail (hguard : P.guard.Admits depth) (hg : Repeats P source g)
    (he : RecoversOperation P (depth + 1) m e m') :
    Comes (P.env source) (depth + 1) m' τ (conditionalTail g e)
      fun e k _ => Recovers (Reprints P depth) m e k := by
  refine .ite_check (fun _ => .consume (.ite_check (fun _ => ?_) fun _ => ?_)) fun _ => ?_
  · refine .consume (.skipNewlines fun _ υ => (hg.expression _ _ υ).bind
      fun fallback k _ hfallback => .pure fun hprintable => ?_)
    -- The parts can be printed if the whole can.
    rcases he (hprintable.part fun _ hx => List.mem_append_left _ hx) with ⟨ps, hps⟩
    rcases hfallback (hprintable.part fun _ hx => List.mem_append_right _ hx) with ⟨qs, hqs⟩
    exact ⟨_, printsAs_elvis hps.1 hqs.printsAs.prints, regains_elvis hguard hps.2 hqs⟩
  · refine .skipNewlines fun _ υ => (hg.expression _ _ υ).bind fun onTrue k _ htrue =>
      .skipNewlines fun _ _ => .expect fun _ => .skipNewlines fun _ χ =>
        (hg.expression _ k χ).bind fun onFalse l _ hfalse => .pure fun hprintable => ?_
    rcases he (hprintable.part fun _ hx => List.mem_append_left _ (List.mem_append_left _ hx))
      with ⟨ps, hps⟩
    rcases htrue (hprintable.part fun _ hx => List.mem_append_left _ (List.mem_append_right _ hx))
      with ⟨qs, hqs⟩
    rcases hfalse (hprintable.part fun _ hx => List.mem_append_right _ hx) with ⟨rs, hrs⟩
    exact ⟨_, printsAs_ternary hps.1 hqs.printsAs.prints hrs.printsAs.prints,
      regains_ternary hguard hps.2 hqs hrs⟩
  · exact .pure fun hprintable => (he hprintable).imp fun ps hps => ⟨hps.1, hps.2.whole hguard⟩

theorem comes_expression (hg : Repeats P source g) :
    Comes (P.env source) depth m τ (expression g)
      fun e m' _ => Recovers (Reprints P depth) m e m' :=
  .nested fun hguard => (comes_binary hP hg 7 1).bind fun _ _ _ he =>
    comes_conditionalTail hguard hg he

/-! ### Levels -/

/-- Every level of the grammar repeats what it yields. -/
theorem repeats_level (n : Nat) : Repeats P source (Grammar.level P.registry n) := by
  induction n with
  | zero => exact ⟨fun _ _ _ _ _ _ _ h => (by cases h), fun _ _ _ _ _ _ _ h => (by cases h)⟩
  | succ n ih =>
      exact ⟨fun _ _ _ => comes_expression hP ih, fun _ _ _ => comes_operand hP ih⟩

end

end Parse

end PolyScript
