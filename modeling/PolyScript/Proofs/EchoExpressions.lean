import PolyScript.Proofs.Echoes

/-!
# Expressions in a Passage

The rules for expressions give the same tree in a passage, apart from the places. Each rule
has one lemma, in the order in which the parser is read.

The brackets that the look-ahead for an assignment counts are opened and closed by the rules
themselves, and a comma is taken between brackets only. So every rule leads from some
brackets to the same brackets, and an operand never takes anything at which the look-ahead
would stop.

Segments of bit strings are the only rules that may lose their copy. They lose it at the end
of the text, where the bit string is still open.

## Main definitions

* `Parse.TwinExpr`: The same expression, apart from the places.
* `Grammar.EchoesExpressions`: The parts of two grammars that expressions are made of.

## Theorems

* `Parse.echoes_segment`, `Parse.echoes_bitstring`: Bit strings.
* `Parse.echoes_reference`, `Parse.echoes_operand`, `Parse.echoes_expression`: Expressions.
* `Parse.echoes_pipeExpression`: Pipes, where no pipe operator follows the text.
-/

namespace PolyScript

/-- What a name stands for does not depend on the place. -/
theorem LanguageTable.resolveAt_ok {table : LanguageTable} {name language : String} {p : Position}
    (h : table.resolveAt name p = .ok language) (q : Position) :
    table.resolveAt name q = .ok language := by
  unfold resolveAt at h ⊢
  split at h
  · exact h
  · cases h

namespace Parse

/-- The same expression, apart from the places. -/
def TwinExpr (a b : Expr) (_ : Nat → Kind) : Prop := b.skeleton true = a.skeleton true

end Parse

/-- Expressions and operands are the same in a passage, whichever brackets are open. -/
structure Grammar.EchoesExpressions (P : Passage) (g g' : Grammar) : Prop where
  stops : g.StopsAtEnd
  expression : ∀ ν κ depth,
    Parse.Echoes P ν False κ depth depth g.expression g'.expression Parse.TwinExpr
  operand : ∀ ν κ depth,
    Parse.Echoes P ν False κ depth depth g.operand g'.operand Parse.TwinExpr

namespace Parse

variable {P : Passage} {ν : Outlook} {κ : Nat → Kind} {d : Nat} {g g' : Grammar} {α : Type}

/-! ### Kinds -/

theorem glance_literal {isRelaxed : Bool} {kind : Kind} (h : kind.isLiteral = true) :
    glance isRelaxed d kind = .deeper d := by
  cases kind <;> first | rfl | cases h

theorem glance_memberName {isRelaxed : Bool} {kind : Kind} (h : isMemberName kind = true) :
    glance isRelaxed d kind = .deeper d := by
  cases kind <;> first | rfl | cases h

theorem glance_binary {isRelaxed : Bool} {kind : Kind} {op : BinaryOp}
    (h : BinaryOp.ofKind? kind = some op) : glance isRelaxed d kind = .deeper d := by
  cases kind <;> first | rfl | cases h

theorem glance_unary {isRelaxed : Bool} {kind : Kind} {op : UnaryOp}
    (h : UnaryOp.ofKind? kind = some op) : glance isRelaxed d kind = .deeper d := by
  cases kind <;> first | rfl | cases h

/-! ### Literals -/

theorem kindIsLiteral_of_literalOf {source : String} {t : Token} {e : Expr}
    (h : literalOf source t = .ok e) : t.kind.isLiteral = true := by
  unfold literalOf at h
  split at h
  all_goals first | cases h; done | (rename_i hkind; rw [hkind]; rfl)

/-- A token of the passage is the same literal as the token of the text, up to its place. -/
theorem literalOf_same {t u : Token} {e : Expr} (hsame : P.Same t u)
    (h : literalOf P.alone.source t = .ok e) :
    ∃ e', literalOf P.whole.source u = .ok e' ∧ e'.skeleton true = e.skeleton true := by
  unfold literalOf at h ⊢
  rw [hsame.kind, hsame.text, hsame.slice]
  split at h
  · split at h
    · cases h
      exact ⟨_, rfl, rfl⟩
    · cases h
  all_goals cases h
  all_goals exact ⟨_, rfl, rfl⟩

/-- A literal is one token, and its value is in the token's own text or in its slice of the
    source. -/
theorem echoes_literal : Echoes P ν False κ d d literal literal TwinExpr := by
  intro s s' e t hpair hs hrun
  rw [literal_run] at hrun ⊢
  cases hliteral : literalOf P.alone.source s.token with
  | error err =>
      rw [hliteral] at hrun
      cases hrun
  | ok expr =>
      rw [hliteral] at hrun
      cases hrun
      have hkind := kindIsLiteral_of_literalOf hliteral
      have hend : s.token.kind ≠ .endOfInput := by
        intro hend
        rw [hend] at hkind
        cases hkind
      rcases literalOf_same (hpair.same hend) hliteral with ⟨expr', hliteral', hsame⟩
      exact .inr ⟨expr', s'.advanced, _, by rw [hliteral'],
        hpair.advanced hend (.inr (glance_literal hkind)), State.sees _, hsame⟩

/-! ### Lists -/

/-- Items in brackets, with commas between them. -/
theorem echoes_commaList {closer : Kind} {start start' : α} {item item' : α → Parse α}
    {I : α → α → Prop} (hcloser : closer ≠ .endOfInput ∧ closer.isStop = false)
    (hstart : I start start') (hitem : ∀ a b κ, I a b →
      Echoes P ν False κ (d + 1) (d + 1) (item a) (item' b) fun a b _ => I a b) :
    Echoes P ν False κ (d + 1) (d + 1) (commaList closer start item)
      (commaList closer start' item') fun a b _ => I a b := by
  refine .skip (.loop hstart nofun fun a b κ hab => .ite_check (fun _ => hcloser)
    (fun _ => .pure (.inr ⟨a, b, rfl, rfl, hab⟩)) fun _ => ?_)
  refine (hitem a b κ hab).bind fun a b κ hab => .skip ?_
  refine .ite_check (fun _ => by decide) (fun hcomma => ?_) fun _ =>
    .pure (.inr ⟨a, b, rfl, rfl, hab⟩)
  refine .taking (by rw [hcomma]; decide) (.inr (by rw [hcomma]; rfl)) fun _ _ _ _ => .skip ?_
  exact .pure (.inl ⟨a, b, rfl, rfl, hab⟩)

/-- Expressions that differ in places only, one by one. -/
theorem skeletonExprs_concat {es es' : List Expr} {e e' : Expr}
    (h : skeletonExprs true es' = skeletonExprs true es)
    (he : e'.skeleton true = e.skeleton true) :
    skeletonExprs true (es' ++ [e']) = skeletonExprs true (es ++ [e]) := by
  rw [skeletonExprs_eq, skeletonExprs_eq] at h ⊢
  rw [List.map_append, List.map_append, h, List.map_singleton, List.map_singleton, he]

/-! ### References and calls -/

theorem echoes_identifier (hκ : (κ 0).shape = .piece) :
    Echoes P ν False κ d d identifier identifier TwinExpr :=
  .taking (Kind.ne_of_piece hκ).2 (.inr (glance_piece hκ)) fun t u hsame _ =>
    .pure (by rw [TwinExpr, Expr.skeleton, Expr.skeleton, hsame.text])

theorem echoes_memberName :
    Echoes P ν False κ d d memberName memberName fun t u _ => P.Same t u := by
  refine .peekEnd (fun _ kind hkind => .unexpected _) fun hend => ?_
  split
  · rename_i hname
    exact .take hend (.inr (glance_memberName hname)) fun t u hsame _ => hsame
  · exact .unexpected _

theorem echoes_memberAhead :
    Echoes P ν False κ d d memberAhead memberAhead fun b b' κ' =>
      b' = b ∧ κ' = κ ∧ (b = true → κ 0 = .dot ∧ isMemberName (κ 1) = true) := by
  refine .ite_check (fun _ => by decide) (fun hdot => ?_) fun _ => .pure ⟨rfl, rfl, nofun⟩
  refine .peekNext (by rw [hdot]; decide) (fun hend kind hkind => ?_) fun _ =>
    .pure ⟨rfl, rfl, fun h => ⟨hdot, h⟩⟩
  rcases Kind.cases_of_isStop hkind with rfl | rfl | rfl | rfl <;> exact .pure ⟨rfl, rfl, nofun⟩

/-- The look along a chain stops at the first token that does not belong to it, so it stays
    within the text. -/
theorem echoes_chainEndsInCall (hκ : (κ 0).shape = .piece) {Q : Bool → Bool → (Nat → Kind) → Prop}
    (hQ : ∀ b, Q b b κ) :
    Echoes P ν False κ d d chainEndsInCall chainEndsInCall Q := by
  refine .lookahead scans_chainEndsInCall (.taking (k := 0) (Kind.ne_of_piece hκ).2
    (.inl fun _ _ => trivial) fun _ _ _ _ => .loop (I := fun _ _ => True) trivial nofun
    fun _ _ κ₁ _ => echoes_memberAhead.bind ?_) hQ
  rintro _ member κ₂ ⟨rfl, rfl, hmember⟩
  cases member with
  | true =>
      rcases hmember rfl with ⟨hdot, hname⟩
      refine .taking (k := 0) (by rw [hdot]; decide) (.inl fun _ _ => trivial) fun _ _ _ _ => ?_
      refine .taking (k := 0) (fun hend => ?_) (.inl fun _ _ => trivial) fun _ _ _ _ => ?_
      · rw [show κ₂ 1 = .endOfInput from hend] at hname
        cases hname
      · exact .pure (.inl ⟨(), (), rfl, rfl, trivial⟩)
  | false =>
      exact .bind (.check (Q := fun b b' _ => b' = b) (fun _ => by decide) rfl) fun b b' _ hb =>
        .pure (.inr ⟨b, b', rfl, rfl, hb⟩)

variable (hg : g.EchoesExpressions P g')
include hg

/-- An argument that stands alone is one at which the text does not end. -/
theorem echoes_argument :
    Echoes P ν False κ d d (argument g) (argument g') TwinExpr := by
  refine .live (stopsAtEnd_argument hg.stops).trails fun hend => ?_
  have hexpression := hg.expression ν κ d
  refine .peekNext hend (fun _ kind hkind => ?_) fun _ =>
    .peekKind hend (.ite (fun _ => echoes_literal) fun _ => .ite (fun hname => ?_) fun _ =>
      hexpression)
  · rcases Kind.cases_of_isStop hkind with rfl | rfl | rfl | rfl <;>
      exact .peekKind hend hexpression
  · rw [Bool.and_eq_true, decide_eq_true_eq] at hname
    exact echoes_identifier (by rw [hname.2]; rfl)

theorem echoes_callArguments :
    Echoes P ν False κ d d (callArguments g) (callArguments g') fun es es' _ =>
      skeletonExprs true es' = skeletonExprs true es := by
  refine .expecting (k := d + 1) (by decide) (.inr rfl) fun o o' _ _ _ => ?_
  refine (echoes_commaList (I := fun es es' => skeletonExprs true es' = skeletonExprs true es)
    (by decide) rfl fun es es' κ hes => ?_).bind fun es es' _ hes =>
    .closing (by decide) (.inr rfl) fun _ _ _ => .pure hes
  exact (echoes_argument hg).bind fun e e' _ he => .pure (skeletonExprs_concat hes he)

omit hg in
theorem echoes_segments :
    Echoes P ν False κ d d segments segments fun names names' _ => names' = names := by
  refine .loop (I := fun names names' => names' = names) rfl nofun fun names names' κ₁ hnames => ?_
  subst hnames
  refine .ite_check (fun _ => by decide) (fun hdot => ?_) fun _ =>
    .pure (.inr ⟨_, _, rfl, rfl, rfl⟩)
  refine .taking (by rw [hdot]; decide) (.inr (by rw [hdot]; rfl)) fun _ _ _ _ => ?_
  exact echoes_memberName.bind fun t u _ hsame =>
    .pure (.inl ⟨_, _, rfl, rfl, by rw [hsame.text]⟩)

/-- A chain of names behind the tag of a language, and the call at its end if there is one. -/
theorem echoes_guestChain (hκ : (κ 0).shape = .piece) :
    Echoes P ν False κ d d (guestChain g) (guestChain g') TwinExpr := by
  refine .taking (Kind.ne_of_piece hκ).2 (.inr (glance_piece hκ)) fun t u hsame _ =>
    .languages fun table => ?_
  rw [hsame.text]
  cases hlanguage : table.resolveAt t.text t.position with
  | error e => exact .throw
  | ok language =>
      rw [LanguageTable.resolveAt_ok hlanguage]
      refine echoes_segments.bind fun names names' κ₁ hnames => ?_
      subst hnames
      refine .ite_check (fun _ => by decide) (fun _ => ?_) fun _ => ?_
      · exact (echoes_callArguments hg).bind fun es es' _ hes =>
          .pure (by rw [TwinExpr, Expr.skeleton, Expr.skeleton, hes])
      · split
        · exact .pure rfl
        · exact .unexpected _

/-- A name, a call of it, or a chain that it begins. At the end of the text there is neither a
    dot nor a parenthesis, and what stands behind the text is neither. -/
theorem echoes_reference (hκ : κ 0 = .identifier ∨ κ 0 = .language) :
    Echoes P ν False κ d d (reference g) (reference g') TwinExpr := by
  have hpiece : (κ 0).shape = .piece := by rcases hκ with h | h <;> rw [h] <;> rfl
  have hend := (Kind.ne_of_piece hpiece).2
  refine .current hend fun head head' hsame hkind => .languages fun table => ?_
  rw [hsame.kind, hsame.text]
  -- The next token does not have to be the same, as long as a call is a call.
  have hrest : ∀ {kind kind' : Kind}, (kind' = .leftParen ↔ kind = .leftParen) →
      Echoes P ν False κ d d
        (if (decide (kind = .leftParen) && decide (head.kind = .identifier)) = true then do
          let name ← consume
          let arguments ← callArguments g
          return .builtinCall name.text arguments name.position
        else if head.kind = .language then
          consume >>= fun _ => unexpected ("'.' after language tag '" ++ head.text ++ "'")
        else identifier)
        (if (decide (kind' = .leftParen) && decide (head.kind = .identifier)) = true then do
          let name ← consume
          let arguments ← callArguments g'
          return .builtinCall name.text arguments name.position
        else if head.kind = .language then
          consume >>= fun _ => unexpected ("'.' after language tag '" ++ head.text ++ "'")
        else identifier) TwinExpr := by
    intro kind kind' hiff
    simp only [hiff]
    refine .ite (fun _ => ?_) fun _ => .ite (fun _ => ?_) fun _ => echoes_identifier hpiece
    · exact .taking hend (.inr (glance_piece hpiece)) fun t u hsame _ =>
        (echoes_callArguments hg).bind fun es es' _ hes =>
          .pure (by rw [TwinExpr, Expr.skeleton, Expr.skeleton, hes, hsame.text])
    · exact .taking hend (.inr (glance_piece hpiece)) fun _ _ _ _ => .unexpected _
  refine .peekNext hend (fun _ kind hkind => ?_) fun _ => ?_
  · rcases Kind.cases_of_isStop hkind with rfl | rfl | rfl | rfl <;> exact hrest (by decide)
  · cases κ 1 with
    | dot =>
        refine .ite (fun _ => echoes_guestChain hg hpiece) fun _ => ?_
        refine (echoes_chainEndsInCall (Q := fun b b' κ' => b' = b ∧ κ' = κ) hpiece
          fun _ => ⟨rfl, rfl⟩).bind ?_
        rintro b _ _ ⟨rfl, rfl⟩
        exact .ite (fun _ => .throw) fun _ => echoes_identifier hpiece
    | _ => exact hrest Iff.rfl

theorem echoes_grouped : Echoes P ν False κ d d (grouped g) (grouped g') TwinExpr :=
  .expecting (k := d + 1) (by decide) (.inr rfl) fun _ _ _ _ _ => .skip <|
    (hg.expression ν _ (d + 1)).bind fun e e' _ he => .skip <|
      .closing (by decide) (.inr rfl) fun _ _ _ =>
        .pure (by simp only [TwinExpr, Expr.skeleton, if_true, show e'.skeleton true = _ from he])

/-! ### Bit strings -/

/-- The value of a segment. In a pattern a name or a string is looked at with the token behind
    it. -/
theorem echoes_segmentValue (inPattern : Bool) :
    Echoes P ν False κ d d (segmentValue g inPattern) (segmentValue g' inPattern) TwinExpr := by
  have hstops : StopsAtEnd (segmentValue g inPattern) := by
    intro t ht
    refine stopsAt_current ?_
    rw [ht]
    exact stopsAt_throw rfl
  -- At the end of the text the rule fails, so from here on both see the same token.
  refine .live hstops.trails fun hend => .current hend ?_
  rintro ⟨kind, text, position, stop⟩ ⟨kind', text', position', stop'⟩ hsame (hkind : kind = κ 0)
  obtain rfl : kind' = kind := hsame.kind
  cases kind' with
  | number | string => exact echoes_literal
  | minus =>
      refine .peekNext hend (fun _ kind hkind => .throw) fun _ => .ite (fun _ => ?_) fun _ => .throw
      refine .taking hend (.inr (by rw [← hkind]; rfl)) fun _ _ _ _ => ?_
      exact echoes_literal.bind fun e e' _ he =>
        .pure (by rw [TwinExpr, Expr.skeleton, Expr.skeleton, show e'.skeleton true = _ from he])
  | identifier =>
      refine .ite (fun _ => ?_) fun _ => echoes_reference hg (.inl hkind.symm)
      have hname : Echoes P ν False κ d d identifier identifier TwinExpr :=
        echoes_identifier (by rw [← hkind]; rfl)
      refine .peekNext hend (fun _ kind hstop => ?_) fun _ =>
        .ite (fun _ => echoes_reference hg (.inl hkind.symm)) fun _ => hname
      rcases Kind.cases_of_isStop hstop with rfl | rfl | rfl | rfl <;> exact hname
  | language => exact echoes_reference hg (.inr hkind.symm)
  | leftParen => exact echoes_grouped hg
  | underscore =>
      exact .ite (fun _ => .taking hend (.inr (by rw [← hkind]; rfl)) fun _ _ _ _ => .pure rfl)
        fun _ => .throw
  | _ => exact .throw

omit hg in
theorem stopsAtEnd_segmentSize : StopsAtEnd (segmentSize g) := by
  intro t ht
  refine stopsAt_current ?_
  rw [ht]
  exact stopsAt_throw rfl

theorem echoes_segmentSize :
    Echoes P ν False κ d d (segmentSize g) (segmentSize g') TwinExpr := by
  refine .live (stopsAtEnd_segmentSize).trails fun hend => .current hend ?_
  rintro ⟨kind, text, position, stop⟩ ⟨kind', text', position', stop'⟩ hsame (hkind : kind = κ 0)
  obtain rfl : kind' = kind := hsame.kind
  cases kind' with
  | number => exact echoes_literal
  | identifier => exact echoes_reference hg (.inl hkind.symm)
  | language => exact echoes_reference hg (.inr hkind.symm)
  | leftParen => exact echoes_grouped hg
  | _ => exact .throw

omit hg in
/-- Specifiers with dashes between them. A text that ends within a bit string fails, so nothing
    is said of what it leaves. -/
theorem echoes_specifierList (start : List String) :
    Echoes P ν True κ d d (specifierList start) (specifierList start) fun a b _ => b = a := by
  refine .loop (I := fun a b => b = a) rfl (fun _ acc => ?_) fun acc acc' κ hacc => ?_
  · exact (StopsAtEnd.bind (stopsAtEnd_expect (by decide)) _).trails
  subst hacc
  -- What stands behind an atom or its parameter: a dash takes the loop on.
  have hrest : ∀ κ names, Echoes P ν True κ d d
      (Parse.check .minus >>= fun b => if b = true then
        consume >>= fun _ => pure (.inl (acc' ++ names)) else pure (.inr (acc' ++ names)))
      (Parse.check .minus >>= fun b => if b = true then
        consume >>= fun _ => pure (.inl (acc' ++ names)) else pure (.inr (acc' ++ names)))
      fun (r r' : List String ⊕ List String) _ =>
        (∃ a b, r = .inl a ∧ r' = .inl b ∧ b = a) ∨ ∃ c c', r = .inr c ∧ r' = .inr c' ∧ c' = c := by
    intro κ names
    refine .ite_check (fun _ => by decide) (fun hminus => ?_) fun _ =>
      .pure (.inr ⟨_, _, rfl, rfl, rfl⟩)
    exact .taking (by rw [hminus]; decide) (.inr (by rw [hminus]; rfl)) fun _ _ _ _ =>
      .pure (.inl ⟨_, _, rfl, rfl, rfl⟩)
  refine .expecting (by decide) (.inr rfl) fun t u hsame _ _ => ?_
  rw [hsame.text]
  -- An atom may be the last of the text. What follows it in the passage is then neither colon nor
  -- dash.
  refine .live (.check_ne (by decide) (.check_ne (by decide) (.pure _))) fun hend => ?_
  refine .ite_check (fun h => absurd h hend) (fun hcolon => ?_) fun _ => hrest _ _
  refine .taking hend (.inr (by rw [hcolon]; rfl)) fun _ _ _ _ => ?_
  refine .live (fun env s a t hs hrun => ?_) fun hend => .current hend fun v w hsame hkind => ?_
  · rw [bind_run, current_run] at hrun
    simp only [hs, reduceCtorEq, decide_false, Bool.or_self, Bool.false_eq_true, if_false] at hrun
    cases hrun
  · rw [hsame.kind, hsame.text]
    refine .ite (fun hvalue => ?_) fun _ => .throw
    refine .taking hend (.inr ?_) fun _ _ _ _ => hrest _ _
    rw [← hkind]
    rw [Bool.or_eq_true, decide_eq_true_eq, decide_eq_true_eq] at hvalue
    rcases hvalue with h | h <;> rw [h] <;> rfl

theorem echoes_sizeClause :
    Echoes P ν True κ d d (sizeClause g) (sizeClause g') fun a b _ =>
      skeletonSize true b = skeletonSize true a := by
  refine .live (.check_ne (by decide) (.pure none)) fun hend => ?_
  refine .ite_check (fun h => absurd h hend) (fun hcolon => ?_) fun _ => .pure rfl
  refine .taking hend (.inr (by rw [hcolon]; rfl)) fun _ _ _ _ => ?_
  refine (Echoes.inSizeMode (R := fun a b => b.skeleton true = a.skeleton true)
    (stopsAtEnd_segmentSize) fun κ' => echoes_segmentSize hg).bindLost
    (fun _ _ => .pure _) fun a b _ hab => .pure ?_
  rw [skeletonSize, skeletonSize, hab]

omit hg in
theorem trails_specifierLists : Trails True specifierLists :=
  .loop (fun _ => .check_ne (by decide) (.pure _)) []

omit hg in
theorem echoes_specifierLists :
    Echoes P ν True κ d d specifierLists specifierLists fun a b _ => b = a := by
  refine .loop (I := fun a b => b = a) rfl (fun _ acc => .check_ne (by decide) (.pure _))
    fun acc acc' κ hacc => ?_
  subst hacc
  refine .ite_check (fun _ => by decide) (fun hslash => ?_) fun _ =>
    .pure (.inr ⟨_, _, rfl, rfl, rfl⟩)
  refine .taking (by rw [hslash]; decide) (.inr (by rw [hslash]; rfl)) fun _ _ _ _ => ?_
  refine (echoes_specifierList acc').bindLost (fun _ _ => .pure _) ?_
  rintro a _ _ rfl
  exact .pure (.inl ⟨_, _, rfl, rfl, rfl⟩)

theorem echoes_segment (inPattern : Bool) :
    Echoes P ν True κ d d (segment g inPattern) (segment g' inPattern) fun a b _ =>
      b.skeleton true = a.skeleton true := by
  refine (echoes_segmentValue hg inPattern).bind fun e e' κ he => ?_
  refine (echoes_sizeClause hg).bindLost (fun _ size => .bind trails_specifierLists
    fun _ => .pure _) fun size size' κ hsize => ?_
  refine echoes_specifierLists.bindLost (fun _ _ => .pure _) ?_
  rintro specifiers _ κ rfl
  refine .pure ?_
  rw [BitSegment.skeleton, BitSegment.skeleton, show e'.skeleton true = _ from he, hsize,
    dynamic_of_skeletonSize hsize]

/-- Segments with commas between them, up to the closing bracket, which is not behind the
    text. -/
theorem echoes_segmentList (inPattern : Bool) :
    Echoes P ν True κ (d + 1) (d + 1) (segmentList g inPattern) (segmentList g' inPattern)
      fun a b _ => skeletonSegments true b = skeletonSegments true a := by
  refine .skip (.ite_check (fun _ => by decide) (fun _ => .pure rfl) fun _ => ?_)
  refine .loop (I := fun a b => skeletonSegments true b = skeletonSegments true a) rfl
    (fun _ _ => (StopsAtEnd.bind (stopsAtEnd_segment g inPattern) _).trails) fun a b κ hab => ?_
  refine (echoes_segment hg inPattern).bindLost (fun _ next => .skip (.check_ne (by decide)
    (.pure _))) fun next next' κ hnext => .skip ?_
  have hall : skeletonSegments true (b ++ [next']) = skeletonSegments true (a ++ [next]) := by
    rw [skeletonSegments_eq, skeletonSegments_eq] at hab ⊢
    rw [List.map_append, List.map_append, hab, List.map_singleton, List.map_singleton, hnext]
  refine .ite_check (fun _ => by decide) (fun hcomma => ?_) fun _ =>
    .pure (.inr ⟨_, _, rfl, rfl, hall⟩)
  refine .taking (by rw [hcomma]; decide) (.inr (by rw [hcomma]; rfl)) fun _ _ _ _ => .skip ?_
  exact .ite_check (fun _ => by decide) (fun _ => .unexpected _) fun _ =>
    .pure (.inl ⟨_, _, rfl, rfl, hall⟩)

/-- A bit string that is closed has not lost its copy. -/
theorem echoes_bitstring (inPattern : Bool) :
    Echoes P ν False κ d d (bitstring g inPattern) (bitstring g' inPattern) fun a b _ =>
      skeletonSegments true b.1 = skeletonSegments true a.1 := by
  refine .expecting (k := d + 1) (by decide) (.inr rfl) fun o o' _ _ _ => .nested ?_
  have hopen : ∀ segments : List BitSegment, StopsAtEnd (do
      let found ← Parse.current
      if (decide (found.kind = .bitClose) || decide (found.kind = .endOfInput)) = true then
        let _ ← expectClosing o .bitClose
        return (segments, o.position)
      else throw (.unexpectedToken "',' or '>>'" found)) := by
    intro segments t ht
    refine stopsAt_current ?_
    simp only [ht, decide_true, Bool.or_true, if_true]
    exact (stopsAtEnd_expectClosing (by decide) t ht).bind _
  refine (echoes_segmentList hg inPattern).bindLost (fun _ segments => (hopen segments).trails)
    fun segments segments' κ hsegments => .live (hopen segments).trails fun hend =>
      .current hend fun t u hsame _ => ?_
  rw [hsame.kind]
  exact .ite (fun _ => .closing (by decide) (.inr rfl) fun _ _ _ => .pure hsegments) fun _ => .throw

/-! ### Operands -/

theorem echoes_arrayLiteral :
    Echoes P ν False κ d d (arrayLiteral g) (arrayLiteral g') TwinExpr := by
  refine .expecting (k := d + 1) (by decide) (.inr rfl) fun o o' _ _ _ => ?_
  refine (echoes_commaList (I := fun es es' => skeletonExprs true es' = skeletonExprs true es)
    (by decide) rfl fun es es' κ hes => ?_).bind fun es es' _ hes =>
    .closing (by decide) (.inr rfl) fun _ _ _ =>
      .pure (by rw [TwinExpr, Expr.skeleton, Expr.skeleton, hes])
  exact (hg.expression ν κ _).bind fun e e' _ he => .pure (skeletonExprs_concat hes he)

/-- An entry of an object: a key of one token, a colon and an expression. -/
theorem echoes_objectEntry :
    Echoes P ν False κ d d (objectEntry g) (objectEntry g') fun a b _ =>
      b.skeleton true = a.skeleton true := by
  refine .live (stopsAtEnd_objectEntry g).trails fun hend => .current hend ?_
  rintro ⟨kind, text, position, stop⟩ ⟨kind', text', position', stop'⟩ hsame (hkind : kind = κ 0)
  obtain rfl : kind' = kind := hsame.kind
  obtain rfl : text' = text := hsame.text
  -- The key has been looked at already, so every entry goes on in the same way.
  have hentry : glance true d (κ 0) = .deeper d → ∀ key, Echoes P ν False κ d d
      (do
        let _ ← consume
        let _ ← expect .colon
        let _ ← skipNewlines
        let value ← g.expression
        return ObjectEntry.mk key value)
      (do
        let _ ← consume
        let _ ← expect .colon
        let _ ← skipNewlines
        let value ← g'.expression
        return ObjectEntry.mk key value) fun a b _ => b.skeleton true = a.skeleton true :=
    fun hglance key => .taking hend (.inr hglance) fun _ _ _ _ =>
      .expecting (by decide) (.inr rfl) fun _ _ _ _ _ => .skip <|
        (hg.expression ν _ d).bind fun e e' _ he =>
          .pure (by
            rw [ObjectEntry.skeleton, ObjectEntry.skeleton, show e'.skeleton true = _ from he])
  cases kind' with
  | identifier | language | string => exact hentry (by rw [← hkind]; rfl) _
  | _ => exact .throw

theorem echoes_objectLiteral :
    Echoes P ν False κ d d (objectLiteral g) (objectLiteral g') TwinExpr := by
  refine .expecting (k := d + 1) (by decide) (.inr rfl) fun o o' _ _ _ => ?_
  refine (echoes_commaList
    (I := fun es es' => skeletonEntries true es' = skeletonEntries true es)
    (by decide) rfl fun es es' κ hes => ?_).bind fun es es' _ hes =>
    .closing (by decide) (.inr rfl) fun _ _ _ =>
      .pure (by rw [TwinExpr, Expr.skeleton, Expr.skeleton, hes])
  refine (echoes_objectEntry hg).bind fun e e' _ he => .pure ?_
  rw [skeletonEntries_eq, skeletonEntries_eq] at hes ⊢
  rw [List.map_append, List.map_append, hes, List.map_singleton, List.map_singleton, he]

/-- An operand without suffixes. Its first token is there, since the text does not begin with
    what stands behind it. -/
theorem echoes_primary : Echoes P ν False κ d d (primary g) (primary g') TwinExpr := by
  have hstops : StopsAtEnd (primary g) := fun t ht => stopsAt_primary (.inl ht) g
  refine .live hstops.trails fun hend => .current hend ?_
  rintro ⟨kind, text, position, stop⟩ ⟨kind', text', position', stop'⟩ hsame (hkind : kind = κ 0)
  obtain rfl : kind' = kind := hsame.kind
  cases kind' with
  | number | string | kwTrue | kwFalse | kwNil => exact echoes_literal
  | identifier => exact echoes_reference hg (.inl hkind.symm)
  | language => exact echoes_reference hg (.inr hkind.symm)
  | leftParen => exact echoes_grouped hg
  | leftBracket => exact echoes_arrayLiteral hg
  | leftBrace => exact echoes_objectLiteral hg
  | bitOpen =>
      exact (echoes_bitstring hg false).bind fun a b _ hab =>
        .pure (by rw [TwinExpr, Expr.skeleton, Expr.skeleton, hab])
  | _ => exact .throw

/-- Indexes and fields, as long as there are brackets and dots. Neither is a kind at which a
    passage stops. -/
theorem echoes_suffixes {e e' : Expr} (he : e'.skeleton true = e.skeleton true) :
    Echoes P ν False κ d d (suffixes g e) (suffixes g' e') TwinExpr := by
  refine .loop (I := fun e e' => e'.skeleton true = e.skeleton true) he nofun
    fun e e' κ he => ?_
  -- Any other token leaves the expression as it is.
  have hdone : ∀ κ, Echoes P ν False κ d d (pure (.inr e) : Parse (Expr ⊕ Expr)) (pure (.inr e'))
      fun r r' κ' => (∃ a b, r = .inl a ∧ r' = .inl b ∧ b.skeleton true = a.skeleton true) ∨
        ∃ c c', r = .inr c ∧ r' = .inr c' ∧ TwinExpr c c' κ' :=
    fun _ => .pure (.inr ⟨_, _, rfl, rfl, he⟩)
  refine .peekEnd (fun _ kind hkind => ?_) fun hend => ?_
  · rcases Kind.cases_of_isStop hkind with rfl | rfl | rfl | rfl <;> exact hdone κ
  generalize hkind : κ 0 = kind
  cases kind with
  | leftBracket =>
      refine .taking (k := d + 1) hend (.inr (by rw [hkind]; rfl)) fun _ _ _ _ => .skip ?_
      refine (hg.expression ν _ (d + 1)).bind fun index index' _ hindex => .skip ?_
      refine .closing (by decide) (.inr rfl) fun _ _ _ => .pure (.inl ⟨_, _, rfl, rfl, ?_⟩)
      rw [Expr.skeleton, Expr.skeleton, he, show index'.skeleton true = _ from hindex]
  | dot =>
      refine .taking hend (.inr (by rw [hkind]; rfl)) fun _ _ _ _ => ?_
      refine echoes_memberName.bind fun field field' κ hfield => ?_
      refine .ite_check (fun _ => by decide) (fun _ => .throw) fun _ =>
        .pure (.inl ⟨_, _, rfl, rfl, ?_⟩)
      rw [Expr.skeleton, Expr.skeleton, he, hfield.text]
  | _ => exact hdone κ

theorem echoes_operand : Echoes P ν False κ d d (operand g) (operand g') TwinExpr := by
  have hstops : StopsAtEnd (operand g) := fun t ht => stopsAt_operand (.inl ht) g
  refine .live hstops.trails fun hend => .peekKind hend ?_
  cases hop : UnaryOp.ofKind? (κ 0) with
  | some op =>
      refine .taking hend (.inr (glance_unary hop)) fun _ _ _ _ => ?_
      exact (Echoes.nested (hg.operand ν _ d)).bind fun e e' _ he =>
        .pure (by rw [TwinExpr, Expr.skeleton, Expr.skeleton, show e'.skeleton true = _ from he])
  | none => exact (echoes_primary hg).bind fun e e' _ he => echoes_suffixes hg he

/-! ### Operators -/

/-- Operators, by induction on the levels that are left. No operator stands behind the text, so
    both parses have the same operands. -/
theorem echoes_binary (levels least : Nat) :
    Echoes P ν False κ d d (binary g levels least) (binary g' levels least) TwinExpr := by
  induction levels generalizing κ least with
  | zero => exact echoes_operand hg
  | succ levels ih =>
      refine (echoes_operand hg).bind fun e e' κ he => ?_
      refine .loop (I := fun e e' => e'.skeleton true = e.skeleton true)
        (show e'.skeleton true = e.skeleton true from he) nofun fun e e' κ he => ?_
      refine .peekEnd (fun _ kind hkind => ?_) fun hend => ?_
      · rcases Kind.cases_of_isStop hkind with rfl | rfl | rfl | rfl <;>
          exact .pure (.inr ⟨_, _, rfl, rfl, he⟩)
      cases hop : BinaryOp.ofKind? (κ 0) with
      | none => exact .pure (.inr ⟨_, _, rfl, rfl, he⟩)
      | some op =>
          refine .ite (fun _ => .pure (.inr ⟨_, _, rfl, rfl, he⟩)) fun _ => ?_
          refine .taking hend (.inr (glance_binary hop)) fun _ _ _ _ => .skip ?_
          refine (ih _).bind fun right right' _ hright => .pure (.inl ⟨_, _, rfl, rfl, ?_⟩)
          rw [Expr.skeleton, Expr.skeleton, he, show right'.skeleton true = _ from hright]

/-- What follows a condition. A question mark behind the text would belong to the expression, and
    it is no kind at which a passage stops. -/
theorem echoes_conditionalTail {e e' : Expr} (he : e'.skeleton true = e.skeleton true) :
    Echoes P ν False κ d d (conditionalTail g e) (conditionalTail g' e') TwinExpr := by
  have hexpression : StopsAtEnd g.expression := fun t ht => (hg.stops t ht).expression
  refine .ite_check (fun _ => by decide) (fun hquestion => ?_) fun _ => .pure he
  refine .taking (by rw [hquestion]; decide) (.inr (by rw [hquestion]; rfl)) fun _ _ _ _ => ?_
  refine .live (StopsAtEnd.trails fun t ht => stopsAt_check_ne (by rw [ht]; decide)
    (stopsAtEnd_skip (hexpression.bind _) t ht)) fun hend => ?_
  refine .ite_check (fun h => absurd h hend) (fun hcolon => ?_) fun _ => .skip ?_
  · refine .taking hend (.inr (by rw [hcolon]; rfl)) fun _ _ _ _ => .skip ?_
    refine (hg.expression ν _ d).bind fun fallback fallback' _ hfallback => .pure ?_
    rw [TwinExpr, Expr.skeleton, Expr.skeleton, he, show fallback'.skeleton true = _ from hfallback]
  · refine (hg.expression ν _ d).bind fun yes yes' _ hyes => .skip ?_
    refine .expecting (by decide) (.inr rfl) fun _ _ _ _ _ => .skip ?_
    refine (hg.expression ν _ d).bind fun no no' _ hno => .pure ?_
    rw [TwinExpr, Expr.skeleton, Expr.skeleton, he, show yes'.skeleton true = _ from hyes,
      show no'.skeleton true = _ from hno]

theorem echoes_expression :
    Echoes P ν False κ d d (expression g) (expression g') TwinExpr :=
  .nested ((echoes_binary hg 7 1).bind fun _ _ _ he => echoes_conditionalTail hg he)

/-- A pipe goes on as long as pipe operators follow. -/
theorem echoes_pipeExpression (hstop : P.stop ≠ .pipe) :
    Echoes P ν False κ d d (pipeExpression g) (pipeExpression g') TwinExpr := by
  refine (hg.expression ν κ d).bind fun e e' κ he => ?_
  -- Stages are compared without places, and operators, too.
  let I : List Expr × List Token → List Expr × List Token → Prop := fun a b =>
    skeletonExprs true b.1 = skeletonExprs true a.1 ∧
      b.2.map Token.skeleton = a.2.map Token.skeleton
  have hstart : I ([e], []) ([e'], []) := by
    refine ⟨?_, rfl⟩
    rw [skeletonExprs, skeletonExprs, show e'.skeleton true = _ from he]
    rfl
  refine Echoes.bind (R := fun a b _ => I a b) (.loop (I := I) hstart nofun ?_) ?_
  · rintro ⟨stages, operators⟩ ⟨stages', operators'⟩ κ hI
    refine .ite_ahead (fun _ => ⟨by decide, hstop⟩) (fun hpipe => .skip ?_) fun _ =>
      .pure (.inr ⟨_, _, rfl, rfl, hI⟩)
    refine .taking (by rw [hpipe]; decide) (.inr (by rw [hpipe]; rfl)) fun t u hsame _ => .skip ?_
    refine (hg.expression ν _ d).bind fun stage stage' _ hstage =>
      .pure (.inl ⟨_, _, rfl, rfl, skeletonExprs_concat hI.1 hstage, ?_⟩)
    rw [List.map_append, List.map_append, hI.2, List.map_singleton, List.map_singleton,
      hsame.skeleton]
  · rintro ⟨stages, operators⟩ ⟨stages', operators'⟩ κ ⟨hstages, hoperators⟩
    have hempty : operators'.isEmpty = operators.isEmpty := by
      have hlength := congrArg List.length hoperators
      rw [List.length_map, List.length_map] at hlength
      cases operators <;> cases operators' <;> first | rfl | cases hlength
    simp only [hempty]
    refine .ite (fun _ => .pure he) fun _ => .pure ?_
    rw [TwinExpr, Expr.skeleton, Expr.skeleton, hstages, hoperators]

end Parse

namespace Grammar

/-- Expressions are the same in a passage, whatever the levels that are left. -/
theorem echoesExpressions_level {P : Passage} {registry : Registry} (hbuiltin : registry.IsBuiltin)
    {n n' : Nat} (hle : n ≤ n') :
    (level registry n).EchoesExpressions P (level registry n') := by
  induction n generalizing n' with
  | zero =>
      exact ⟨stopsAtEnd_level hbuiltin 0, fun _ _ _ => .fails fun _ _ _ _ => nofun,
        fun _ _ _ => .fails fun _ _ _ _ => nofun⟩
  | succ n ih =>
      obtain ⟨m, rfl⟩ : ∃ m, n' = m + 1 := ⟨n' - 1, by omega⟩
      have hbelow : n ≤ m := by omega
      have hg := ih hbelow
      exact ⟨stopsAtEnd_level hbuiltin (n + 1), fun _ _ _ => Parse.echoes_expression hg,
        fun _ _ _ => Parse.echoes_operand hg⟩

end Grammar

end PolyScript
