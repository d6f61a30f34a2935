import PolyScript.Proofs.Dispatching
import PolyScript.Proofs.EchoExpressions

/-!
# Statements in a Passage

The rules for patterns and statements give the same tree in a passage, apart from the places.

A statement may go on behind its text, with an `else` for instance. So whole statements are
looked at where nothing stands behind the text.

## Main definitions

* `Grammar.Echoes`: The parts of two grammars.

## Theorems

* `Parse.echoes_pattern`: Patterns.
-/

namespace PolyScript

namespace Parse

/-- The same pattern, apart from the places. -/
def TwinPattern (a b : Pattern) (_ : Nat → Kind) : Prop := b.skeleton = a.skeleton

/-- The same statement, apart from the places. -/
def TwinStatement (a b : Statement) (_ : Nat → Kind) : Prop := b.skeleton = a.skeleton

end Parse

/-- The parts of two grammars are the same in a passage. A conditional and a statement are
    whole only if nothing stands behind the text. -/
structure Grammar.Echoes (P : Passage) (g g' : Grammar) : Prop
    extends g.EchoesExpressions P g' where
  pattern : ∀ ν κ depth, Parse.Echoes P ν False κ depth depth g.pattern g'.pattern
    Parse.TwinPattern
  statement : P.tail = [] → ∀ κ, Parse.Echoes P (.blank true) False κ 0 0 g.statement g'.statement
    Parse.TwinStatement
  conditional : P.tail = [] → ∀ κ, Parse.Echoes P (.blank true) False κ 0 0 g.conditional
    g'.conditional Parse.TwinStatement

theorem PatternField.skeleton_key (f : PatternField) : f.skeleton.key = f.key := by
  cases f
  rfl

/-- Where a field goes, and whether it does, depends on the keys. -/
theorem PatternField.insert?_skeleton (key : String) (p : Pattern) (fields : List PatternField) :
    insert? key p.skeleton (skeletonFields fields) = (insert? key p fields).map skeletonFields := by
  induction fields with
  | nil => rfl
  | cons f rest ih =>
      rw [skeletonFields_eq] at ih ⊢
      simp only [List.map_cons, insert?, skeleton_key, ih]
      split
      · simp only [Option.map_some, skeletonFields_eq]
        rfl
      · split
        · rfl
        · cases insert? key p rest with
          | none => rfl
          | some _ => simp only [Option.map_some, skeletonFields_eq, List.map_cons]

namespace Parse

variable {P : Passage} {ν : Outlook} {κ : Nat → Kind} {d : Nat} {g g' : Grammar} {α : Type}

/-! ### Patterns -/

/-- The rest of an array pattern, which is a name or an underscore. -/
theorem echoes_restPattern (hκ : κ 0 = .ellipsis) :
    Echoes P ν False κ (d + 1) (d + 1) restPattern restPattern fun a b _ => b = a := by
  have hclose : ∀ κ (dots dots' name name' : Token), name'.text = name.text →
      Echoes P ν False κ (d + 1) (d + 1)
        (check .rightBracket >>= fun b => if b = true then pure name.text
          else throw (.unsupported "rest pattern"
            "'...' may only bind the last element of an array pattern" dots.position))
        (check .rightBracket >>= fun b => if b = true then pure name'.text
          else throw (.unsupported "rest pattern"
            "'...' may only bind the last element of an array pattern" dots'.position))
        fun a b _ => b = a :=
    fun κ _ _ _ _ hname => .ite_check (fun _ => by decide) (fun _ => .pure hname) fun _ => .throw
  refine .taking (by rw [hκ]; decide) (.inr (by rw [hκ]; rfl)) fun dots dots' _ _ => ?_
  refine .expecting (by decide) (.inr rfl) fun name name' hsame _ _ => .skip ?_
  refine .ite_check (fun _ => by decide) (fun hcomma => ?_) fun _ =>
    hclose _ dots dots' name name' hsame.text
  exact .taking (by rw [hcomma]; decide) (.inr (by rw [hcomma]; rfl)) fun _ _ _ _ => .skip <|
    hclose _ dots dots' name name' hsame.text

/-- Array patterns with the same elements and the same rest. -/
def TwinArray (a b : ArrayPattern) : Prop :=
  skeletonPatterns b.elements = skeletonPatterns a.elements ∧ b.rest = a.rest

variable (hg : g.Echoes P g')
include hg

/-- An array pattern, up to its closing bracket. -/
theorem echoes_arrayPattern :
    Echoes P ν False κ d d (arrayPattern g) (arrayPattern g') TwinPattern := by
  refine .expecting (k := d + 1) (by decide) (.inr rfl) fun o o' _ _ _ => .skip ?_
  refine Echoes.bind (R := fun a b _ => TwinArray a b) (.loop
    (I := fun ps ps' => skeletonPatterns ps' = skeletonPatterns ps) rfl nofun
    fun ps ps' κ hps => ?_) fun a b _ hab => .closing (by decide) (.inr rfl) fun _ _ _ => .pure ?_
  · refine .ite_check (fun _ => by decide) (fun _ => .pure (.inr ⟨_, _, rfl, rfl, hps, rfl⟩))
      fun _ => ?_
    refine .ite_check (fun _ => by decide) (fun hdots => ?_) fun _ => ?_
    · refine (echoes_restPattern hdots).bind ?_
      rintro rest _ _ rfl
      exact .pure (.inr ⟨_, _, rfl, rfl, hps, rfl⟩)
    · refine (hg.pattern ν κ _).bind fun p p' κ hp => .skip ?_
      -- Both lists grow by patterns that differ in positions only.
      have hall : skeletonPatterns (ps' ++ [p']) = skeletonPatterns (ps ++ [p]) := by
        rw [skeletonPatterns_eq, skeletonPatterns_eq] at hps ⊢
        rw [List.map_append, List.map_append, hps, List.map_singleton, List.map_singleton,
          show p'.skeleton = p.skeleton from hp]
      refine .ite_check (fun _ => by decide) (fun hcomma => ?_) fun _ =>
        .pure (.inr ⟨_, _, rfl, rfl, hall, rfl⟩)
      exact .taking (by rw [hcomma]; decide) (.inr (by rw [hcomma]; rfl)) fun _ _ _ _ => .skip <|
        .pure (.inl ⟨_, _, rfl, rfl, hall⟩)
  · rw [TwinPattern, Pattern.skeleton, Pattern.skeleton, hab.1, hab.2]

/-- A field of an object pattern. Fields with the same skeletons have the same keys, so a key
    that was used before is refused in both parses. -/
theorem echoes_patternField {fields fields' : List PatternField}
    (hfields : skeletonFields fields' = skeletonFields fields) :
    Echoes P ν False κ d d (patternField g fields) (patternField g' fields') fun a b _ =>
      skeletonFields b = skeletonFields a := by
  refine .live (stopsAtEnd_patternField g fields).trails fun hend => .current hend
    fun key key' hsame hkind => ?_
  rw [hsame.kind, hsame.text]
  refine .ite (fun hkey => ?_) fun _ => .throw
  have hglance : glance true d (κ 0) = .deeper d := by
    rw [hkind] at hkey
    generalize κ 0 = kind at hkey
    cases kind <;> first | rfl | cases hkey
  refine .taking hend (.inr hglance) fun _ _ _ _ => .expecting (by decide) (.inr rfl)
    fun _ _ _ _ _ => .skip ?_
  refine (hg.pattern ν _ d).bind fun p p' κ hp => ?_
  -- A field is inserted by its key, so it is refused on both sides or on neither.
  have hinsert : (PatternField.insert? key.text p' fields').map skeletonFields =
      (PatternField.insert? key.text p fields).map skeletonFields := by
    rw [← PatternField.insert?_skeleton, ← PatternField.insert?_skeleton, hfields,
      show p'.skeleton = p.skeleton from hp]
  cases hfirst : PatternField.insert? key.text p fields with
  | none => exact .throw
  | some result =>
      rw [hfirst] at hinsert
      cases hsecond : PatternField.insert? key.text p' fields' with
      | none =>
          rw [hsecond] at hinsert
          cases hinsert
      | some result' =>
          rw [hsecond] at hinsert
          exact .pure (Option.some.inj hinsert)

theorem echoes_objectPattern :
    Echoes P ν False κ d d (objectPattern g) (objectPattern g') TwinPattern := by
  refine .expecting (k := d + 1) (by decide) (.inr rfl) fun o o' _ _ _ => ?_
  refine (echoes_commaList (I := fun fs fs' => skeletonFields fs' = skeletonFields fs) (by decide)
    rfl fun fs fs' κ hfs => echoes_patternField hg hfs).bind fun fs fs' _ hfs =>
      .closing (by decide) (.inr rfl) fun _ _ _ => .pure ?_
  rw [TwinPattern, Pattern.skeleton, Pattern.skeleton, hfs]

/-- Patterns, by their first token. A name, a wildcard and a literal end with this token. -/
theorem echoes_pattern : Echoes P ν False κ d d (pattern g) (pattern g') TwinPattern := by
  have hstops : StopsAtEnd (pattern g) := fun t ht => stopsAt_pattern (.inl ht) g
  refine .live hstops.trails fun hend => .nested (.current hend ?_)
  -- What the pattern is, is settled by its first token.
  rintro ⟨kind, text, position, stop⟩ ⟨kind', text', position', stop'⟩ hsame (hkind : kind = κ 0)
  obtain rfl : kind' = kind := hsame.kind
  obtain rfl : text' = text := hsame.text
  have hliteral : Echoes P ν False κ d d
      (literal >>= fun value => pure (.literal (normalizeLiteral value) position))
      (literal >>= fun value => pure (.literal (normalizeLiteral value) position')) TwinPattern :=
    echoes_literal.bind fun e e' _ he => .pure (by
      rw [TwinPattern, Pattern.skeleton, Pattern.skeleton, skeleton_normalizeLiteral,
        skeleton_normalizeLiteral, show e'.skeleton true = e.skeleton true from he])
  cases kind' with
  | number | string | kwTrue | kwFalse | kwNil => exact hliteral
  | minus =>
      refine .peekNext hend (fun _ _ _ => .throw) fun _ => .ite (fun _ => ?_) fun _ => .throw
      refine .taking hend (.inr (by rw [← hkind]; rfl)) fun _ _ _ _ => ?_
      refine echoes_literal.bind fun e e' _ he => .pure ?_
      rw [TwinPattern, Pattern.skeleton, Pattern.skeleton, skeleton_negateLiteral,
        skeleton_negateLiteral, skeleton_normalizeLiteral, skeleton_normalizeLiteral,
        show e'.skeleton true = e.skeleton true from he]
  | underscore | identifier =>
      exact .taking hend (.inr (by rw [← hkind]; rfl)) fun _ _ _ _ => .pure rfl
  | leftBracket => exact echoes_arrayPattern hg
  | leftBrace => exact echoes_objectPattern hg
  | bitOpen =>
      refine (echoes_bitstring hg.toEchoesExpressions true).bind fun a b _ hab => .pure ?_
      rw [TwinPattern, Pattern.skeleton, Pattern.skeleton, hab]
  | _ => exact .throw

/-! ### Blocks and bodies -/

omit hg in
theorem echoes_skipSeparators :
    Echoes P (.blank true) False κ 0 0 skipSeparators skipSeparators fun _ _ _ => True := by
  refine .loop (I := fun _ _ => True) trivial nofun fun _ _ κ _ => ?_
  refine .peekEnd (fun _ kind hkind => ?_) fun hend => .ite (fun _ => ?_) fun _ =>
    .pure (.inr ⟨_, _, rfl, rfl, trivial⟩)
  · rcases Kind.cases_of_isStop hkind with rfl | rfl | rfl | rfl <;>
      exact .pure (.inr ⟨_, _, rfl, rfl, trivial⟩)
  · exact .taking (k := 0) hend Outlook.steps_blank fun _ _ _ _ =>
      .pure (.inl ⟨_, _, rfl, rfl, trivial⟩)

variable (hlast : P.tail = [])
include hlast

/-- Statements one after the other. -/
theorem echoes_statements {more : Parse Bool}
    (hmore : ∀ κ, Echoes P (.blank true) False κ 0 0 more more fun b b' _ => b' = b) :
    Echoes P (.blank true) False κ 0 0 (statements g more) (statements g' more) fun a b _ =>
      skeletonStatements b = skeletonStatements a := by
  refine echoes_skipSeparators.bind fun _ _ κ _ => ?_
  refine .loop (I := fun a b => skeletonStatements b = skeletonStatements a) rfl nofun
    fun a b κ hab => (hmore κ).bind ?_
  rintro goesOn _ κ rfl
  refine .ite (fun _ => ?_) fun _ => .pure (.inr ⟨_, _, rfl, rfl, hab⟩)
  refine (hg.statement hlast κ).bind fun statement statement' κ hstatement =>
    echoes_skipSeparators.bind fun _ _ _ _ => .pure (.inl ⟨_, _, rfl, rfl, ?_⟩)
  rw [skeletonStatements_eq, skeletonStatements_eq] at hab ⊢
  rw [List.map_append, List.map_append, hab, List.map_singleton, List.map_singleton,
    show statement'.skeleton = statement.skeleton from hstatement]

omit hg in
theorem echoes_unlessClosed {closer : Kind} :
    Echoes P (.blank true) False κ 0 0 (unlessClosed closer) (unlessClosed closer)
      fun b b' _ => b' = b := .peekLast hlast (.pure rfl)

theorem echoes_block :
    Echoes P (.blank true) False κ 0 0 (block g) (block g') fun a b _ =>
      b.skeleton = a.skeleton := by
  refine .expecting (k := 0) (by decide) Outlook.steps_blank fun o o' _ _ _ =>
    .withTerminators (.inl hlast) ?_
  refine (echoes_statements hg hlast fun _ => echoes_unlessClosed hlast).bind fun ss ss' _ hss =>
    .closing (k := 0) (by decide) Outlook.steps_blank fun _ _ _ => .pure ?_
  rw [Block.skeleton, Block.skeleton, hss]

theorem echoes_body :
    Echoes P (.blank true) False κ 0 0 (body g) (body g') fun a b _ =>
      b.skeleton = a.skeleton := by
  refine .live (StopsAtEnd.trails fun t ht => stopsAt_check_ne (by rw [ht]; decide)
    (stopsAtEnd_skip ((stopsAtEnd_expect (by decide)).bind _) t ht)) fun hend => ?_
  refine .ite_check (fun h => absurd h hend) (fun _ => ?_) fun _ => .skip (echoes_block hg hlast)
  refine .taking (k := 0) hend Outlook.steps_blank fun _ _ _ _ => .skip ?_
  refine (Echoes.withTerminators (.inr rfl) (hg.statement hlast _)).bind fun s s' _ hs => .pure ?_
  rw [Block.skeleton, Block.skeleton, skeletonStatements, skeletonStatements,
    show s'.skeleton = s.skeleton from hs]
  rfl

theorem echoes_otherwise :
    Echoes P (.blank true) False κ 0 0 (otherwise g) (otherwise g') fun a b _ =>
      skeletonElse b = skeletonElse a := by
  refine .ite_ahead (fun _ => ⟨by decide, by rw [P.stop_eq hlast]; decide⟩) (fun helse => .skip ?_)
    fun _ => .pure rfl
  refine .taking (k := 0) (by rw [helse]; decide) Outlook.steps_blank fun _ _ _ _ => ?_
  refine .ite_check (fun _ => by decide) (fun _ => ?_) fun _ => ?_
  · refine (Echoes.nested (hg.conditional hlast _)).bind fun s s' _ hs => .pure ?_
    rw [skeletonElse, skeletonElse, Block.skeleton, Block.skeleton, skeletonStatements,
      skeletonStatements, show s'.skeleton = s.skeleton from hs]
    rfl
  · exact (echoes_body hg hlast).bind fun b b' _ hb =>
      .pure (by rw [skeletonElse, skeletonElse, hb])

/-! ### Conditionals and loops -/

theorem echoes_conditional :
    Echoes P (.blank true) False κ 0 0 (conditional g) (conditional g') TwinStatement := by
  refine .expecting (k := 0) (by decide) Outlook.steps_blank fun _ _ _ _ _ => ?_
  refine (hg.expression _ _ 0).bind fun c c' _ hc => ?_
  refine (echoes_body hg hlast).bind fun yes yes' _ hyes => ?_
  refine (echoes_otherwise hg hlast).bind fun no no' _ hno => .pure ?_
  rw [TwinStatement, Statement.skeleton, Statement.skeleton,
    show c'.skeleton true = c.skeleton true from hc, hyes, hno]

theorem echoes_whileLoop :
    Echoes P (.blank true) False κ 0 0 (whileLoop g) (whileLoop g') TwinStatement := by
  refine .expecting (k := 0) (by decide) Outlook.steps_blank fun _ _ _ _ _ => ?_
  refine (hg.expression _ _ 0).bind fun c c' _ hc => ?_
  refine (Echoes.inLoop (echoes_body hg hlast)).bind fun inner inner' _ hinner => .pure ?_
  rw [TwinStatement, Statement.skeleton, Statement.skeleton,
    show c'.skeleton true = c.skeleton true from hc, hinner]

omit hg hlast in
/-- The look-ahead for a loop over items. It ends at the first token that is no name and no
    comma. -/
theorem echoes_forInAhead (hκ : κ 0 ≠ .endOfInput) :
    Echoes P ν False κ d d forInAhead forInAhead fun b b' κ' => b' = b ∧ κ' = κ := by
  refine .lookahead scans_forInAhead (.taking (k := 0) hκ Outlook.steps_blank fun _ _ _ _ =>
    .loop (I := fun _ _ => True) trivial nofun fun _ _ κ _ => .peekEnd (fun _ kind hkind => ?_)
      fun hend => .ite (fun _ => ?_) fun _ => .pure (.inr ⟨_, _, rfl, rfl, rfl⟩))
    fun _ => ⟨rfl, rfl⟩
  · rcases Kind.cases_of_isStop hkind with rfl | rfl | rfl | rfl <;>
      exact .pure (.inr ⟨_, _, rfl, rfl, rfl⟩)
  · refine .taking (k := 0) hend Outlook.steps_blank fun _ _ _ _ => .peekEnd
      (fun _ kind hkind => ?_) fun hend => ?_
    · rcases Kind.cases_of_isStop hkind with rfl | rfl | rfl | rfl <;>
        exact .pure (.inr ⟨_, _, rfl, rfl, rfl⟩)
    · generalize hkind : κ (0 + 1) = kind at hend
      cases kind with
      | comma =>
          exact .taking (k := 0) (by rw [hkind]; decide) Outlook.steps_blank fun _ _ _ _ =>
            .pure (.inl ⟨_, _, rfl, rfl, trivial⟩)
      | _ => exact .pure (.inr ⟨_, _, rfl, rfl, rfl⟩)

omit hg hlast in
/-- At the end of the text there is no name, but then the keyword behind it is missing. -/
theorem echoes_loopNames :
    Echoes P (.blank true) True κ 0 0 loopNames loopNames fun a b _ => b = a := by
  have hround : ∀ acc : List String, Trails True (do
      let name ← consume
      if ← check .comma then
        let _ ← consume
        return (.inl (acc ++ [name.text]) : List String ⊕ List String)
      else return .inr (acc ++ [name.text])) :=
    fun acc => .bind .take fun _ => .check_ne (by decide) (.pure _)
  refine .loop (I := fun a b => b = a) rfl (fun _ => hround) fun acc acc' κ hacc => ?_
  subst hacc
  refine .live (hround acc') fun hend => .taking (k := 0) hend Outlook.steps_blank
    fun t u hsame _ => ?_
  rw [hsame.text]
  refine .ite_check (fun _ => by decide) (fun hcomma => ?_) fun _ =>
    .pure (.inr ⟨_, _, rfl, rfl, rfl⟩)
  exact .taking (k := 0) (by rw [hcomma]; decide) Outlook.steps_blank fun _ _ _ _ =>
    .pure (.inl ⟨_, _, rfl, rfl, rfl⟩)

/-- The answers of a rule that may decline are the same, apart from the places. -/
def TwinAnswer (a b : Option Statement) (_ : Nat → Kind) : Prop :=
  b.map Statement.skeleton = a.map Statement.skeleton

omit hg hlast in
theorem echoes_decline : Echoes P ν False κ d d decline decline TwinAnswer := .pure rfl

/-- A loop over items, at the end of the passage. Its body may end with the text. -/
theorem echoes_forIn (settings : HandlerSettings) (hκ : κ 0 = .kwFor) :
    Echoes P (.blank true) False κ 0 0 (forIn g settings) (forIn g' settings) TwinAnswer := by
  have hend : κ 0 ≠ .endOfInput := by rw [hκ]; decide
  refine (echoes_forInAhead hend).bind ?_
  rintro ahead _ _ ⟨rfl, rfl⟩
  refine .ite (fun _ => ?_) fun _ => echoes_decline
  refine .taking (k := 0) hend Outlook.steps_blank fun _ _ _ _ => ?_
  refine echoes_loopNames.bindLost (fun _ _ => ((stopsAtEnd_expect (by decide)).bind _).trails) ?_
  rintro names _ κ₁ rfl
  refine .expecting (k := 0) (by decide) Outlook.steps_blank fun _ _ _ _ _ => ?_
  refine (Echoes.check (Q := fun b b' _ => b' = b) (fun _ => by decide) rfl).bind ?_
  rintro array _ κ₂ rfl
  refine .ite (fun _ => ?_) fun _ => ?_
  · exact .fails fun _ _ _ _ => nofun
  refine (hg.expression _ _ 0).bind fun c c' _ hc => ?_
  refine (Echoes.inLoop (echoes_body hg hlast)).bind fun inner inner' _ hinner => .pure ?_
  simp only [TwinAnswer, Option.map_some, Statement.skeleton,
    show c'.skeleton true = c.skeleton true from hc, hinner]

omit hg hlast in
theorem echoes_numericForAhead (hκ : κ 0 ≠ .endOfInput) :
    Echoes P ν False κ d d numericForAhead numericForAhead fun b b' κ' =>
      b' = b ∧ κ' = κ ∧ (b = true → κ 1 = .identifier ∧ κ 2 = .assign) := by
  refine .peekNext hκ (fun _ kind hkind => ?_) fun hnext => .ite (fun hname => ?_) fun _ =>
    .pure ⟨rfl, rfl, nofun⟩
  · rcases Kind.cases_of_isStop hkind with rfl | rfl | rfl | rfl <;> exact .pure ⟨rfl, rfl, nofun⟩
  · refine .peekOr 2 (fun i hi => ?_) (fun _ kind hkind => ?_) fun _ =>
      .pure ⟨rfl, rfl, fun h => ⟨hname, of_decide_eq_true h⟩⟩
    · obtain rfl | rfl : i = 0 ∨ i = 1 := by omega
      · exact hκ
      · exact hnext
    · rcases Kind.cases_of_isStop hkind with rfl | rfl | rfl | rfl <;> exact .pure ⟨rfl, rfl, nofun⟩

omit hlast in
theorem echoes_stepClause :
    Echoes P (.blank true) False κ 0 0 (stepClause g) (stepClause g') fun a b _ =>
      b.map (Expr.skeleton true) = a.map (Expr.skeleton true) := by
  refine .ite_check (fun _ => by decide) (fun hcomma => ?_) fun _ => .pure rfl
  refine .taking (k := 0) (by rw [hcomma]; decide) Outlook.steps_blank fun _ _ _ _ => ?_
  exact (hg.expression _ _ 0).bind fun e e' _ he => .pure (congrArg some he)

/-- A loop over numbers, at the end of the passage. -/
theorem echoes_numericFor (hκ : κ 0 = .kwFor) :
    Echoes P (.blank true) False κ 0 0 (numericFor g) (numericFor g') TwinAnswer := by
  have hend : κ 0 ≠ .endOfInput := by rw [hκ]; decide
  refine (echoes_numericForAhead hend).bind ?_
  rintro ahead _ κ' ⟨rfl, hκ', hahead⟩
  rw [hκ']
  -- Both rules saw the same tokens ahead, so both go on or both decline.
  refine .ite (fun hgo => ?_) fun _ => echoes_decline
  refine .taking (k := 0) hend Outlook.steps_blank fun _ _ _ _ => ?_
  refine .taking (k := 0) (show κ 1 ≠ _ by rw [(hahead hgo).1]; decide) Outlook.steps_blank
    fun name name' hname _ => ?_
  refine .expecting (k := 0) (by decide) Outlook.steps_blank fun _ _ _ _ _ => ?_
  refine (hg.expression _ _ 0).bind fun first first' _ hfirst => ?_
  refine .expecting (k := 0) (by decide) Outlook.steps_blank fun _ _ _ _ _ => ?_
  refine (hg.expression _ _ 0).bind fun last last' _ hlast' => ?_
  refine (echoes_stepClause hg).bind fun step step' _ hstep => ?_
  refine (Echoes.inLoop (echoes_body hg hlast)).bind fun inner inner' _ hinner => .pure ?_
  simp only [TwinAnswer, Option.map_some, Statement.skeleton, hname.text,
    show first'.skeleton true = first.skeleton true from hfirst,
    show last'.skeleton true = last.skeleton true from hlast', hstep, hinner]

omit hg hlast in
theorem echoes_loopControl (hend : κ 0 ≠ .endOfInput) :
    Echoes P (.blank true) False κ 0 0 loopControl loopControl TwinStatement := by
  refine .current hend fun _ _ _ _ => .get fun u u' hloops => ?_
  rw [hloops]
  refine .ite (fun _ => .throw) fun _ => .taking (k := 0) hend Outlook.steps_blank
    fun t t' hsame _ => ?_
  have hskeleton := hsame.skeleton
  rw [hsame.kind]
  refine .ite (fun _ => .pure ?_) fun _ => .pure ?_ <;>
    rw [TwinStatement, Statement.skeleton, Statement.skeleton, hskeleton]

/-! ### Matching -/

/-- One arm of a match statement. Its statement ends within the braces, so what stands behind the
    text is out of reach. -/
theorem echoes_matchArm :
    Echoes P (.blank true) False κ 0 0 (matchArm g) (matchArm g') fun a b _ =>
      b.skeleton = a.skeleton := by
  refine (hg.pattern _ κ 0).bind fun p p' _ hp => .skip ?_
  refine .expecting (k := 0) (by decide) Outlook.steps_blank fun _ _ _ _ _ => .skip ?_
  have hdone : ∀ (s s' : Statement) κ, s'.skeleton = s.skeleton →
      Echoes P (.blank true) False κ 0 0 (pure (.mk p s p.position) : Parse MatchArm)
        (pure (.mk p' s' p'.position)) fun a b _ => b.skeleton = a.skeleton := by
    intro s s' κ hs
    refine .pure ?_
    rw [MatchArm.skeleton, MatchArm.skeleton, show p'.skeleton = p.skeleton from hp, hs]
  refine .ite_check (fun _ => by decide) (fun _ => ?_) fun _ => ?_
  · refine (echoes_block hg hlast).bind fun b b' _ hb => hdone _ _ _ ?_
    rw [Statement.skeleton, Statement.skeleton, hb]
  · exact (Echoes.withTerminators (.inr rfl) (hg.statement hlast _)).bind fun s s' _ hs =>
      hdone _ _ _ hs

/-- Arms up to the closing brace. A text that ends before the brace fails. -/
theorem echoes_matchArms :
    Echoes P (.blank true) False κ 0 0 (matchArms g) (matchArms g') fun a b _ =>
      skeletonArms b = skeletonArms a := by
  refine .skip (.loop (I := fun a b => skeletonArms b = skeletonArms a) rfl nofun
    fun a b κ hab => (echoes_unlessClosed hlast).bind ?_)
  rintro goesOn _ κ rfl
  refine .ite (fun _ => ?_) fun _ => .pure (.inr ⟨_, _, rfl, rfl, hab⟩)
  refine (echoes_matchArm hg hlast).bind fun arm arm' κ harm => ?_
  have hall : skeletonArms (b ++ [arm']) = skeletonArms (a ++ [arm]) := by
    rw [skeletonArms_eq, skeletonArms_eq] at hab ⊢
    rw [List.map_append, List.map_append, hab, List.map_singleton, List.map_singleton, harm]
  refine (Echoes.check (Q := fun comma comma' κ' => comma' = comma ∧ κ' = κ ∧
    (comma = true → κ 0 = .comma)) (fun _ => by decide) ⟨rfl, rfl, of_decide_eq_true⟩).bind ?_
  rintro _ comma κ' ⟨rfl, hκ', hcomma⟩
  rw [hκ']
  -- Behind the arm and its comma: whether another arm may follow does not depend on the arms
  -- before.
  have hrest : ∀ κ, Echoes P (.blank true) False κ 0 0
      (skipNewlines >>= fun newlines =>
        if (comma || decide (0 < newlines)) = true then pure (.inl (a ++ [arm]))
        else check .rightBrace >>= fun closed => if closed = true then pure (.inl (a ++ [arm]))
          else unexpected "',' or newline between match arms")
      (skipNewlines >>= fun newlines =>
        if (comma || decide (0 < newlines)) = true then pure (.inl (b ++ [arm']))
        else check .rightBrace >>= fun closed => if closed = true then pure (.inl (b ++ [arm']))
          else unexpected "',' or newline between match arms")
      fun (r r' : List MatchArm ⊕ List MatchArm) _ =>
        (∃ a b, r = .inl a ∧ r' = .inl b ∧ skeletonArms b = skeletonArms a) ∨
          ∃ c c', r = .inr c ∧ r' = .inr c' ∧ skeletonArms c' = skeletonArms c :=
    fun κ => .skip (.ite (fun _ => .pure (.inl ⟨_, _, rfl, rfl, hall⟩)) fun _ =>
      .ite_check (fun _ => by decide) (fun _ => .pure (.inl ⟨_, _, rfl, rfl, hall⟩))
        fun _ => .unexpected _)
  refine .ite (fun hc => ?_) fun _ => hrest κ
  exact .taking (k := 0) (by rw [hcomma hc]; decide) Outlook.steps_blank fun _ _ _ _ => hrest _

theorem echoes_select :
    Echoes P (.blank true) False κ 0 0 (select g) (select g') TwinStatement := by
  refine .expecting (k := 0) (by decide) Outlook.steps_blank fun _ _ _ _ _ => ?_
  refine (hg.expression _ _ 0).bind fun e e' _ he => .skip ?_
  refine .expecting (k := 0) (by decide) Outlook.steps_blank fun _ _ _ _ _ => ?_
  refine (echoes_matchArms hg hlast).bind fun arms arms' _ harms =>
    .closing (k := 0) (by decide) Outlook.steps_blank fun _ _ _ => .pure ?_
  rw [TwinStatement, Statement.skeleton, Statement.skeleton,
    show e'.skeleton true = e.skeleton true from he, harms]

/-! ### Guest code -/

omit hg hlast

theorem constructFor?_stop {table : LanguageTable} {name : String} {kind : Kind} {b : Bool}
    (hkind : kind.isStop = true) : table.constructFor? name kind b = none := by
  unfold LanguageTable.constructFor?
  split
  · rfl
  · split
    · rfl
    · rcases Kind.cases_of_isStop hkind with rfl | rfl | rfl | rfl <;> rfl

/-- The look-ahead for names in parentheses and a brace. -/
theorem echoes_capturesThenBrace (hend : κ 0 ≠ .endOfInput) :
    Echoes P ν False κ d d capturesThenBrace capturesThenBrace fun b b' κ' =>
      b' = b ∧ κ' = κ := by
  have hbrace : ∀ κ, Echoes P (.blank ν.outer) False κ 0 0 (check .leftBrace) (check .leftBrace)
      fun b b' _ => b' = b := fun _ => .check (fun _ => by decide) rfl
  refine .lookahead scans_capturesThenBrace (.taking (k := 0) hend Outlook.steps_blank
    fun _ _ _ _ => .ite_check (fun _ => by decide) (fun hopen => ?_) fun _ => hbrace _)
      fun _ => ⟨rfl, rfl⟩
  refine .taking (k := 0) (by rw [hopen]; decide) Outlook.steps_blank fun _ _ _ _ => ?_
  refine Echoes.bind (k := 0) (R := fun _ _ _ => True) ?_ fun _ _ _ _ =>
    .ite_check (fun _ => by decide) (fun hclose => ?_) fun _ => .pure rfl
  · refine .loop (I := fun _ _ => True) trivial nofun fun _ _ κ _ =>
      .peekEnd (fun _ kind hkind => ?_) fun hend => .ite (fun _ => ?_) fun _ =>
        .pure (.inr ⟨_, _, rfl, rfl, trivial⟩)
    · rcases Kind.cases_of_isStop hkind with rfl | rfl | rfl | rfl <;>
        exact .pure (.inr ⟨_, _, rfl, rfl, trivial⟩)
    · exact .taking (k := 0) hend Outlook.steps_blank fun _ _ _ _ =>
        .pure (.inl ⟨_, _, rfl, rfl, trivial⟩)
  · exact .taking (k := 0) (by rw [hclose]; decide) Outlook.steps_blank fun _ _ _ _ => hbrace _

/-- The look-ahead for guest code, from the tag on. -/
theorem echoes_codeBlockAhead (hend : κ 0 ≠ .endOfInput) :
    Echoes P ν False κ d d codeBlockAhead codeBlockAhead fun b b' κ' => b' = b ∧ κ' = κ := by
  refine .current hend ?_
  rintro ⟨kind, text, position, stop⟩ ⟨kind', text', position', stop'⟩ hsame (hkind : kind = κ 0)
  obtain rfl : kind' = kind := hsame.kind
  obtain rfl : text' = text := hsame.text
  have hdone : ∀ b : Bool, Echoes P ν False κ d d (pure b) (pure b) fun b b' κ' =>
      b' = b ∧ κ' = κ := fun b => .pure ⟨rfl, rfl⟩
  refine .peekNext hend (fun _ kind hstop => .languages fun table => ?_) fun _ =>
    .languages fun table => ?_
  -- What ends the passage is no token that a construct looks for.
  · rw [constructFor?_stop hstop, constructFor?_stop rfl]
    cases kind' with
    | language =>
        refine .ite (fun _ => hdone true) fun _ => .ite (fun _ => hdone false) fun _ => ?_
        rcases Kind.cases_of_isStop hstop with rfl | rfl | rfl | rfl <;> exact hdone false
    | identifier => exact .ite (fun _ => echoes_capturesThenBrace hend) fun _ => hdone false
    | _ => exact hdone false
  · cases kind' with
    | language =>
        exact .ite (fun _ => hdone true) fun _ => .ite (fun _ => hdone false) fun _ =>
          .ite (fun _ => .throw) fun _ => hdone false
    | identifier => exact .ite (fun _ => echoes_capturesThenBrace hend) fun _ => hdone false
    | _ => exact hdone false

/-- The names in parentheses behind a tag. -/
theorem echoes_captures :
    Echoes P (.blank true) False κ 0 0 captures captures fun a b _ => b = a := by
  refine .ite_check (fun _ => by decide) (fun hopen => ?_) fun _ => .pure rfl
  refine .taking (k := 0) (by rw [hopen]; decide) Outlook.steps_blank fun _ _ _ _ => ?_
  refine Echoes.bind (k := 0) (R := fun a b _ => b = a) (.loop (I := fun a b => b = a) rfl nofun
    fun acc acc' κ hacc => ?_) ?_
  · subst hacc
    refine .ite_check (fun _ => by decide) (fun hname => ?_) fun _ =>
      .pure (.inr ⟨_, _, rfl, rfl, rfl⟩)
    refine .taking (k := 0) (by rw [hname]; decide) Outlook.steps_blank fun t u hsame _ => ?_
    rw [hsame.text]
    refine .ite_check (fun _ => by decide) (fun hcomma => ?_) fun _ =>
      .pure (.inr ⟨_, _, rfl, rfl, rfl⟩)
    exact .taking (k := 0) (by rw [hcomma]; decide) Outlook.steps_blank fun _ _ _ _ =>
      .pure (.inl ⟨_, _, rfl, rfl, rfl⟩)
  · rintro names _ κ rfl
    exact .closing (k := 0) (by decide) Outlook.steps_blank fun _ _ _ => .pure rfl

/-- Guest code depends on what is behind its brace. -/
theorem guestCodeAt?_of_stands {source : String} {c : Cursor} (h : c.Stands source.toList) :
    guestCodeAt? source c.here.offset = (guestCode 0 none false c.rest).map fun code =>
      (String.ofList code, c.here.advanceAll (code ++ ['\x7d'])) := by
  rcases c with ⟨rest, here⟩
  rcases h with ⟨before, hsource, rfl⟩
  simp only at hsource
  rw [guestCodeAt?, hsource, Position.offset_after, Text.splitBytes?_append]
  simp only [Position.after, Position.advanceAll_append]

/-- Reading on at a place of the text. -/
theorem State.At.restarted {source : String} {s : State} {lx : Lexer} (h : s.At lx)
    (hs : s.Sound source) (hlx : lx.Within source) {c : Cursor}
    (hc : c.Stands source.toList) :
    ({ s with buffer := s.buffer.restart s.cursor c.here } : State).At { lx with cursor := c } := by
  have hat := hs.at_restart c.here
  have hcursor : (s.buffer.lexer.resetTo c.here).cursor = c :=
    Lexer.resetTo_cursor (by rw [hs.buffer.source_eq]; exact hc)
  have hsource : (s.buffer.lexer.resetTo c.here).source = lx.source :=
    hs.buffer.source_eq.trans hlx.1.symm
  have hmode : (s.buffer.lexer.resetTo c.here).sizeMode = lx.sizeMode := h.mode
  generalize s.buffer.lexer.resetTo c.here = mx at hat hcursor hsource hmode
  rcases mx with ⟨source, cursor, sizeMode⟩
  cases hcursor
  cases hsource
  cases hmode
  exact hat

/-- The body of guest code, at the end of the passage. It is found in the text by bytes, not by
    tokens: the same characters stand behind the brace in both texts, so the same brace closes
    the block, and the lexers go on in step behind it. -/
theorem echoes_guestBody (hlast : P.tail = []) (language : String) (names : List String)
    (p p' : Position) :
    Echoes P (.blank true) False κ 0 0 (guestBody language names p)
      (guestBody language names p') TwinAnswer := by
  rintro s s' a t ⟨lx, mx, h⟩ hs hrun
  by_cases hbrace : s.token.kind = .leftBrace
  · have hend : s.token.kind ≠ .endOfInput := by rw [hbrace]; decide
    have hlexed : ∃ lx', lx.next = (.ok s.token, lx') := by
      rcases h.next with ⟨lx', _, _, hnext, -⟩ | ⟨hkind, -⟩
      · exact ⟨lx', hnext⟩
      · exact absurd hkind hend
    rcases hlexed with ⟨lx', hnext⟩
    rcases h.copies.next_ok P.parts h.within h.within' hnext hend with
      ⟨w, u, mx', hnext', hw, hw', hcopies, hline, hrest⟩
    have hu : s'.token = u := h.second.token_ok h.sound' hnext'
    have hbrace' : u.kind = .leftBrace := by rw [hw'.kind, ← hw.kind, hbrace]
    have hstands := (h.within.next_ok hnext).2
    have hstands' := (h.within'.next_ok hnext').2
    rw [hlast, List.append_nil] at hrest
    have hcode := guestCodeAt?_of_stands hstands
    have hcode' := guestCodeAt?_of_stands hstands'
    have hplace : s.token.stop = lx'.cursor.here.offset :=
      Lexer.next_stop hnext (by rw [hbrace]; decide)
    have hplace' : u.stop = mx'.cursor.here.offset :=
      Lexer.next_stop hnext' (by rw [hbrace']; decide)
    rw [← hplace] at hcode
    rw [← hplace', hrest] at hcode'
    rw [guestBody_run language names p hbrace] at hrun
    cases hguest : guestCode 0 none false lx'.cursor.rest with
    | none =>
        rw [hcode, hguest] at hrun
        cases hrun
    | some code =>
        rw [hguest] at hcode hcode'
        simp only [Option.map_some] at hcode hcode'
        rw [hcode] at hrun
        cases hrun
        -- Reading goes on behind the brace, where both lexers have the same ahead.
        rcases guestCode_append hguest with ⟨rest, hsplit⟩
        have hbehind : ∀ {c : Cursor}, c.rest = code ++ '\x7d' :: rest →
            c.Leads ⟨rest, c.here.advanceAll (code ++ ['\x7d'])⟩ := fun hc =>
          ⟨code ++ ['\x7d'], by rw [hc, List.append_assoc, List.singleton_append], rfl⟩
        have hc := (hbehind hsplit).stands hstands
        have hc' := (hbehind (hrest.trans hsplit)).stands hstands'
        have hnot : s.token.isEnd = false := decide_eq_false hend
        have hnot' : u.isEnd = false := by
          rw [Token.isEnd, hbrace']
          rfl
        refine .inr ⟨some (.codeBlock language names (String.ofList code) p'), _, _, ?_,
          ⟨_, _, {
            first := (h.first.advanced h.sound hnext hnot).restarted h.sound.advanced
              (h.within.next_ok hnext) hc
            second := (h.second.advanced h.sound' hnext' hnot').restarted h.sound'.advanced
              (h.within'.next_ok hnext') hc'
            sound := h.sound.guest hbrace hcode
            sound' := h.sound'.guest (by rw [hu, hbrace']) (by rw [hu]; exact hcode')
            within := ⟨(h.within.next_ok hnext).1, hc⟩
            within' := ⟨(h.within'.next_ok hnext').1, hc'⟩
            copies := ?_
            tidy := fun hne => absurd hlast hne
            loopDepth := h.loopDepth
            relaxed := h.relaxed
            sees := fun _ _ _ => trivial
            plain := fun _ => ?_ }⟩, State.sees _, rfl⟩
        · rw [guestBody_run language names p' (by rw [hu, hbrace']), hu, hcode']
        · have hmem : ∀ c ∈ rest, c ∈ lx'.cursor.rest := fun c hc => by
            rw [hsplit]
            exact List.mem_append_right code (List.mem_cons_of_mem _ hc)
          refine Lexer.copies_of_cursor P.parts hcopies.mode (fun hc => hline (hmem _ hc))
            (fun hne => absurd hlast hne) ?_
          rw [hlast, List.append_nil]
        · rcases Lexer.next_ok hnext with ⟨hlx, -⟩
          rw [hlx]
          exact h.plain rfl
  · exfalso
    unfold guestBody at hrun
    rw [bind_run, expect_run, if_neg hbrace] at hrun
    cases hrun

/-- A block of guest code, at the end of the passage. -/
theorem echoes_codeBlock (hlast : P.tail = []) (hend : κ 0 ≠ .endOfInput) :
    Echoes P (.blank true) False κ 0 0 codeBlock codeBlock TwinAnswer := by
  rw [codeBlock_eq]
  refine (echoes_codeBlockAhead hend).bind ?_
  rintro ahead _ κ' ⟨rfl, hκ'⟩
  rw [hκ']
  refine .ite (fun _ => ?_) fun _ => echoes_decline
  refine .current hend fun t u hsame _ => .languages fun table => ?_
  rw [hsame.text]
  cases hlanguage : table.resolveAt t.text t.position with
  | error e => exact .throw
  | ok language =>
      rw [LanguageTable.resolveAt_ok hlanguage]
      refine .taking (k := 0) hend Outlook.steps_blank fun _ _ _ _ => ?_
      refine echoes_captures.bind ?_
      rintro names _ κ rfl
      exact echoes_guestBody hlast _ _ _ _

end Parse

end PolyScript
