import PolyScript.Proofs.DerivedStatements

/-!
# Statements Within Statements

A program is a list of statements with further statements in their bodies. What holds of
each of them can be said of the list of all, and a statement in the body of another one is
derived just as the other is. So a property of all statements of a program comes down to
one step of a derivation, and needs no induction of its own.

## Main definitions

* `Statement.inside`, `Program.within`: All statements in the bodies of a statement, and
  all of a program.
* `IsDerived`: A statement is derived from some part of a text.

## Theorems

* `DerivesStatement.within`: All of them are derived.
* `Parser.derives_within`: All statements of an accepted program are derived.
-/

namespace PolyScript

mutual

/-- All statements in the bodies of a statement, and in theirs. -/
def Statement.inside : Statement → List Statement
  | .conditional _ onTrue onFalse _ => onTrue.within ++ elseWithin onFalse
  | .forIn _ _ body _ | .numericFor _ _ _ _ body _ | .whileLoop _ body _ | .block body =>
    body.within
  | .select _ arms _ => armsWithin arms
  | .assignment .. | .expression .. | .breakLoop _ | .continueLoop _ | .codeBlock ..
  | .languageCall .. => []

/-- All statements in a block. -/
def Block.within : Block → List Statement
  | .mk statements _ => statementsWithin statements

/-- All statements in the else block of a conditional. -/
def elseWithin : Option Block → List Statement
  | none => []
  | some body => body.within

/-- The statements of a list, and those inside of them. -/
def statementsWithin : List Statement → List Statement
  | [] => []
  | s :: rest => s :: (s.inside ++ statementsWithin rest)

/-- All statements in the arms of a match statement. -/
def armsWithin : List MatchArm → List Statement
  | [] => []
  | .mk _ body _ :: rest => body :: (body.inside ++ armsWithin rest)

end

/-- All statements of a program. -/
def Program.within (program : Program) : List Statement := statementsWithin program.statements

theorem statementsWithin_concat (ss : List Statement) (s : Statement) :
    statementsWithin (ss ++ [s]) = statementsWithin ss ++ s :: s.inside := by
  induction ss with
  | nil => simp [statementsWithin]
  | cons t ss ih => simp [statementsWithin, ih]

theorem armsWithin_concat (as : List MatchArm) (p : Pattern) (s : Statement) (q : Position) :
    armsWithin (as ++ [MatchArm.mk p s q]) = armsWithin as ++ s :: s.inside := by
  induction as with
  | nil => simp [armsWithin]
  | cons a as ih => cases a; simp [armsWithin, ih]

/-- All statements in a phrase. -/
def StatementPhrase.within : StatementPhrase → List Statement
  | .stages .. | .pipe _ => []
  | .statement s | .conditional s => s :: s.inside
  | .otherwise b => elseWithin b
  | .body b | .block b => b.within
  | .statements ss => statementsWithin ss
  | .arms as => armsWithin as

/-- A statement that is derived, from whatever part of the text. -/
def IsDerived (env : Parse.Env) (ahead : Prop) (s : Statement) : Prop :=
  ∃ τ υ : Tape env.source, τ.Unbroken ∧ DerivesStatement env ahead τ (.statement s) υ

/-- All statements in a derived phrase are derived. So what a derivation says of one statement it
    says of those at any depth, and need not be carried through the tree again. -/
theorem DerivesStatement.within {env : Parse.Env} {ahead : Prop} {τ υ : Tape env.source}
    {phrase : StatementPhrase} (h : DerivesStatement env ahead τ phrase υ) (hτ : τ.Unbroken) :
    ∀ s ∈ phrase.within, IsDerived env ahead s := by
  have hnone : ∀ s ∈ ([] : List Statement), IsDerived env ahead s := fun _ h =>
    absurd h List.not_mem_nil
  -- A statement comes first, and what is inside of it behind it.
  have hfirst {τ υ : Tape env.source} {s : Statement} {ss : List Statement} (hτ : τ.Unbroken)
      (h : DerivesStatement env ahead τ (.statement s) υ) (hss : ∀ s ∈ ss, IsDerived env ahead s) :
      ∀ t ∈ s :: ss, IsDerived env ahead t := List.forall_mem_cons.2 ⟨⟨τ, υ, hτ, h⟩, hss⟩
  induction h with
  | stage | stages | unpiped | pipe | noElse | noStatements | noArms => exact hnone
  | assignment ht ha hm hv => exact hfirst hτ (.assignment ht ha hm hv) hnone
  | chainCall ha hname hdot hcalls hcall hend =>
      exact hfirst hτ (.chainCall ha hname hdot hcalls hcall hend) hnone
  | guestCall hguest hcall hend => exact hfirst hτ (.guestCall hguest hcall hend) hnone
  | expression he => exact hfirst hτ (.expression he) hnone
  -- The parts of a statement begin further on, and on tapes that are unbroken like the first.
  | conditional hkind hcondition htrue hfalse ihtrue ihfalse =>
      have hbody := hcondition.before.unbroken (hτ.drop 1)
      exact hfirst hτ (.ofConditional (.conditional hkind hcondition htrue hfalse))
        (List.forall_mem_append.2 ⟨ihtrue hbody, ihfalse (htrue.advances.unbroken hbody)⟩)
  | ofConditional _ ih => exact ih hτ
  | elseIf hstart _ _ ih =>
      change ∀ t ∈ statementsWithin ([] ++ [_]), _
      rw [statementsWithin_concat]
      exact ih ((hstart.unbroken hτ).drop 1)
  | otherwise hstart _ _ ih => exact ih ((hstart.unbroken hτ).drop 1)
  | single _ hstart _ ih =>
      change ∀ t ∈ statementsWithin ([] ++ [_]), _
      rw [statementsWithin_concat]
      exact ih (hstart.unbroken hτ)
  | body _ _ ih => exact ih (hτ.drop _)
  | block _ hstart _ _ ih => exact ih (hstart.unbroken hτ)
  | ofBlock hb ih => exact hfirst hτ (.ofBlock hb) (ih hτ)
  | statements hss _ _ ihlist ihitem =>
      change ∀ t ∈ statementsWithin _, _
      rw [statementsWithin_concat]
      exact List.forall_mem_append.2 ⟨ihlist hτ, ihitem (hss.advances.unbroken hτ)⟩
  | forIn hstart hnames he hb ih =>
      refine hfirst hτ (.forIn hstart hnames he hb) (ih ?_)
      exact he.before.unbroken (hstart.unbroken hτ)
  | numericFor hstart hfrom hcomma hto hsteps hstep hb ih =>
      refine hfirst hτ (.numericFor hstart hfrom hcomma hto hsteps hstep hb) (ih ?_)
      have hlast := hcomma.unbroken (hfrom.before.unbroken (hstart.unbroken hτ))
      exact hstep.unbroken (hto.before.unbroken hlast)
  | whileLoop hkind he hb ih =>
      exact hfirst hτ (.whileLoop hkind he hb) (ih (he.before.unbroken (hτ.drop 1)))
  | breakLoop hkind => exact hfirst hτ (.breakLoop hkind) hnone
  | continueLoop hkind => exact hfirst hτ (.continueLoop hkind) hnone
  | codeBlock hconstruct hresolved hend =>
      exact hfirst hτ (.codeBlock hconstruct hresolved hend) hnone
  | select hkind he hbrace has hend ih =>
      refine hfirst hτ (.select hkind he hbrace has hend) (ih ?_)
      exact hbrace.unbroken (he.before.unbroken (hτ.drop 1))
  | arms has hp harrow _ _ ihlist ihbody =>
      change ∀ t ∈ armsWithin _, _
      rw [armsWithin_concat]
      have hbody := harrow.unbroken (hp.before.unbroken (has.advances.unbroken hτ))
      exact List.forall_mem_append.2 ⟨ihlist hτ, ihbody hbody⟩

/-- All statements of an accepted program are derived. -/
theorem Parser.derives_within {settings : Settings} {source : String} {program : Program}
    (h : (Parser.ofSettings settings).parse source = .ok program) :
    ∀ s ∈ program.within, IsDerived ((Parser.ofSettings settings).env source)
      (Registry.ofSettings settings).AsksAhead s := by
  rcases Parse.ok_of_run h with ⟨t, hrun, -⟩
  rcases Parse.State.offers_initial source with ⟨τ, hτ, hunbroken⟩
  have hconforms := Parse.conforms_forSource (Registry.isBuiltin_ofSettings settings)
    ((Parser.ofSettings settings).env source)
  rcases (Parse.runs_program hconforms (by omega) τ).ok hτ hrun with ⟨υ, _, hderives⟩
  exact hderives.within hunbroken

end PolyScript
