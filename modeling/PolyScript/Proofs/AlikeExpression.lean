import PolyScript.Proofs.Alike

/-!
# The Composition of Expressions and Patterns

The derivations for the rules of expressions and patterns, one for each rule and
in the order of the rules. A rule that another one enters only at certain tokens
is derived for those tokens.

## Theorems

* `Parse.alike_reference`, `Parse.alike_bitstring`, `Parse.alike_primary`,
  `Parse.alike_operand`, `Parse.alike_expression`: Expressions.
* `Parse.alike_pattern`: Patterns.
-/

namespace PolyScript

namespace Parse

variable {P : Position → Prop} {C : Prop} {δ : Shift} {g g' : Grammar} {γ : View}
  {κ : Nat → Kind}

/-! ### References and calls -/

theorem alike_identifier (hκ : (κ 0).shape = .piece) :
    Alike P C δ g g' (γ.seeing κ) (Expr.shift δ) identifier identifier
      (Settled γ (Expr.Within P)) := by
  refine .taking (.inr hκ) fun t _ hP => .pure rfl ⟨?_, _, rfl⟩
  intro p hp
  rw [List.mem_singleton.1 hp]
  exact hP

theorem shape_of_memberName {kind : Kind} (h : isMemberName kind = true) : kind.shape = .piece := by
  revert h
  cases kind <;> decide

theorem alike_memberName :
    Alike P C δ g g' (γ.seeing κ) (Token.shift δ) memberName memberName
      (Settled γ fun t => P t.position) := by
  refine .peekKind (fun _ => .inr rfl) ?_
  rw [View.kind_seeing]
  split
  · rename_i hname
    exact .take rfl (.inr ⟨shape_of_memberName hname, rfl⟩) fun t _ hP => ⟨hP, _, rfl⟩
  · exact alike_unexpected _

/-- An argument at the last token of a text may be taken for another form than in a
    text that goes on, but then nothing closes its list. -/
theorem alike_argument (hg : g.Proper) (hκ : κ 0 ≠ .newline) :
    Alike P C δ g g' (γ.seeing κ) (Expr.shift δ) (argument g) (argument g')
      (Ended γ (Expr.Within P)) := by
  have hexpression : ∀ κ, Alike P C δ g g' (γ.seeing κ) (Expr.shift δ) g.expression g'.expression
      (Ended γ (Expr.Within P)) := fun κ =>
    .expression (γ.live_seeing κ) fun e κ' he => ⟨he, .inr ⟨κ', rfl⟩⟩
  -- The argument may begin at the end of the text, at the last token, or before that. Only in the
  -- third case both sides see the same two tokens.
  by_cases hend : κ 0 = .endOfInput
  · refine .giveUp hend (.peek 1 (.inl rfl) (fun _ => .inl rfl) (.peekKind (fun _ => .inl rfl) ?_))
    exact .stop rfl (fun t ht => (hg.stops t ht).expression) fun κ _ => hexpression κ
  · by_cases hlast : κ 1 = .endOfInput
    -- The argument takes the last token, behind which nothing closes its list, so the counterpart
    -- need not do the same.
    · refine .exhaust (n := Expr.shift δ)
        (r := peekKind 1 >>= fun _ => peekKind 0 >>= fun _ => g'.expression)
        (R := Ended γ (Expr.Within P)) rfl hend hlast (exhausts_argument hg.exhausts) ?_ ?_
      · refine .peekNext ⟨hκ, hend⟩ (fun _ => rfl) ?_
        rw [hlast]
        exact .peekKind (fun h => absurd h hend) (hexpression κ)
      · rintro e _ ⟨he, rfl | ⟨κ', rfl⟩⟩
        · exact ⟨he, .inl rfl⟩
        · exact ⟨he, .inl rfl⟩
    · refine .peekNext ⟨hκ, hend⟩ (fun h => absurd h hlast) ?_
      refine .peekKind (fun h => absurd h hend) ?_
      rw [View.kind_seeing]
      split
      · rename_i hliteral
        rw [Bool.and_eq_true] at hliteral
        exact .literal rfl hliteral.2 fun e he => ⟨he, .inr ⟨_, rfl⟩⟩
      · split
        · rename_i hname
          rw [Bool.and_eq_true, decide_eq_true_eq] at hname
          refine .weaken (alike_identifier (by rw [hname.2]; rfl)) ?_
          rintro e _ ⟨he, κ', rfl⟩
          exact ⟨he, .inr ⟨κ', rfl⟩⟩
        · exact hexpression κ

/-- The arguments of a call, from its opening parenthesis to the closing one. -/
theorem alike_callArguments (hg : g.Proper) :
    Alike P C δ g g' (γ.seeing κ) (List.map (Expr.shift δ)) (callArguments g) (callArguments g')
      (Settled γ (ExprsWithin P)) := by
  unfold callArguments
  refine .expectingOpener (by decide) fun opening ho => ?_
  refine .bind (alike_commaList (m := List.map (Expr.shift δ))
    (V := ExprsWithin P) (by decide) _ rfl (by intro p hp; cases hp)
    (fun acc => (stopsAtEnd_argument hg.stops).bind _) fun acc κ' hκ' hacc => ?_) ?_
  · refine (alike_argument hg hκ').bind ?_
    rintro e γ' ⟨he, hγ'⟩
    exact .pure (by simp) ⟨hacc.concat he, hγ'⟩
  · rintro arguments γ' ⟨harguments, hγ'⟩
    exact .closed (by decide) (View.inside_of_ended hγ') ho fun κ' =>
        .pure rfl ⟨harguments, κ', rfl⟩

theorem alike_segments :
    Alike P C δ g g' (γ.seeing κ) id segments segments (Settled γ fun _ => True) := by
  refine .loop (m := id) (I := Settled γ fun _ => True) rfl ⟨trivial, κ, rfl⟩ ?_
  rintro acc _ ⟨-, κ, rfl⟩
  refine .ite_check (by decide) (fun hdot => ?_) fun _ => .pure rfl ⟨trivial, κ, rfl⟩
  refine .taking (.inl (by rw [View.kind_seeing] at hdot; rw [hdot]; rfl)) fun t _ _ => ?_
  refine alike_memberName.bind ?_
  rintro name _ ⟨-, κ', rfl⟩
  exact .pure rfl ⟨trivial, κ', rfl⟩

/-- A chain of names behind the tag of a language. Its length is not bounded, so the rule is a
    loop, and only its end decides whether it is a call or a value. -/
theorem alike_guestChain (hg : g.Proper) (hκ : (κ 0).shape = .piece) :
    Alike P C δ g g' (γ.seeing κ) (Expr.shift δ) (guestChain g) (guestChain g')
      (Settled γ (Expr.Within P)) := by
  refine .taking (.inr hκ) fun head _ hP =>
    .languages (fun table table' hsame => ?_) fun table => ?_
  · simp only [hsame.resolveAt]
  unfold LanguageTable.resolveAt
  rw [Token.shift_text]
  -- A tag without a language is an error at the tag itself.
  cases table.resolve? head.text with
  | none => exact .throw (by simpa [ParseError.Ordinary, ParseError.Within, ParseError.positions,
      ParseError.position] using hP)
  | some language =>
      refine alike_segments.bind ?_
      rintro names _ ⟨-, κ', rfl⟩
      refine .ite_check (by decide) (fun _ => ?_) fun _ => ?_
      · refine (alike_callArguments hg).bind ?_
        rintro arguments _ ⟨harguments, κ'', rfl⟩
        exact .pure (by simp [Expr.shift]) ⟨List.forall_mem_cons.2 ⟨hP, harguments⟩, κ'', rfl⟩
      · cases hlast : names.getLast? with
        | none =>
            simp only [id_eq, hlast]
            exact alike_unexpected _
        | some name =>
            simp only [id_eq, hlast]
            exact .pure rfl ⟨by simpa [Expr.Within, Expr.positions] using hP, κ', rfl⟩

/-- A name, what it qualifies and what it calls. Whether a dot or a parenthesis comes next is
    looked at before anything is taken, so both parses go the same way. -/
theorem alike_reference (hg : g.Proper) (hκ : κ 0 = .identifier ∨ κ 0 = .language) :
    Alike P C δ g g' (γ.seeing κ) (Expr.shift δ) (reference g) (reference g')
      (Settled γ (Expr.Within P)) := by
  have hpiece : (κ 0).shape = .piece := by rcases hκ with h | h <;> rw [h] <;> rfl
  have hproper := Kind.ne_of_piece hpiece
  refine .glance hproper.2 fun head hhead hP =>
    .languages (fun table table' hsame => ?_) fun table => ?_
  · simp only [hsame.isLanguage]
  -- A call needs its own name and parentheses only, so it is the same for both kinds.
  have hcall : Alike P C δ g g' (γ.seeing κ) (Expr.shift δ)
      (do
        let name ← consume
        let arguments ← callArguments g
        return .builtinCall name.text arguments name.position)
      (do
        let name ← consume
        let arguments ← callArguments g'
        return .builtinCall name.text arguments name.position) (Settled γ (Expr.Within P)) := by
    refine .taking (.inr hpiece) fun name _ hP => (alike_callArguments hg).bind ?_
    rintro arguments _ ⟨harguments, κ', rfl⟩
    exact .pure (by simp [Expr.shift]) ⟨List.forall_mem_cons.2 ⟨hP, harguments⟩, κ', rfl⟩
  refine .peekNext hproper (fun _ => rfl) ?_
  -- A dot makes it a member of guest code or a name that is called there, and anything else a
  -- call or a name.
  cases κ 1 with
  | dot =>
      refine .ite (fun _ => alike_guestChain hg hpiece) fun _ => ?_
      refine .bind (.scan (Q := fun _ γ' => γ' = γ.seeing κ) rfl (.call hpiece) fun _ _ => rfl) ?_
      rintro b _ rfl
      refine .ite (fun _ => .throw ?_) fun _ => alike_identifier hpiece
      simpa [ParseError.Ordinary, ParseError.Within, ParseError.positions, ParseError.position]
        using hP
  | _ =>
      refine .ite (fun _ => hcall) fun _ => .ite (fun _ => ?_) fun _ => alike_identifier hpiece
      exact .taking (.inr hpiece) fun _ _ _ => alike_unexpected _

/-! ### Bit strings -/

theorem alike_grouped (hg : g.Proper) :
    Alike P C δ g g' (γ.seeing κ) (Expr.shift δ) (grouped g) (grouped g')
      (Settled γ (Expr.Within P)) := by
  unfold grouped
  refine .expectingOpener (by decide) fun opening ho => .skip _ (fun _ => ?_) fun _ κ₁ _ =>
      .parsing ?_
  · exact StopsAtEnd.bind (fun t ht => (hg.stops t ht).expression) _
  · intro inner κ₂ hinner
    refine .skip _ (fun _ => ?_) fun _ κ₃ _ =>
        .closed (γ := γ) (by decide) ⟨rfl, rfl, rfl⟩ ho fun κ₄ => ?_
    · exact StopsAtEnd.bind (stopsAtEnd_expectClosing (by decide)) _
    · exact .pure rfl ⟨List.forall_mem_cons.2 ⟨ho, hinner⟩, κ₄, rfl⟩

/-- The value of a segment is an operand, a literal or a pattern's name. In a pattern a string
    may stand where an expression would read on. -/
theorem alike_segmentValue (hg : g.Proper) (inPattern : Bool) :
    Alike P C δ g g' (γ.seeing κ) (Expr.shift δ) (segmentValue g inPattern)
      (segmentValue g' inPattern) (Settled γ (Expr.Within P)) := by
  refine .look ?_ ?_
  · rintro ⟨kind, text, position, stop⟩ rfl
    exact ⟨_, rfl, ParseError.standsAt_unexpectedToken _ _⟩
  · rintro hend ⟨kind, text, position, stop⟩ (hkind : kind = κ 0) hP
    have hname : ∀ p ∈ [position], P p := List.forall_mem_singleton.2 hP
    -- The form of the value is settled by the kind of the first token, which is the same on both
    -- sides.
    cases kind with
    | number | string =>
        exact .literal rfl (by rw [← hkind]; rfl) fun e he => ⟨he, _, rfl⟩
    | minus =>
        refine .peekNext ⟨by rw [← hkind]; decide, hend⟩ (fun _ => rfl) (.ite (fun hnumber => ?_)
          fun _ => .throw (ParseError.ordinary_unexpectedToken hP _))
        refine .taking (.inr (by rw [← hkind]; rfl)) fun t _ _ => ?_
        refine .bind (.literal (Q := Settled γ (Expr.Within P)) rfl (by rw [hnumber]; rfl)
          fun e he => ⟨he, _, rfl⟩) ?_
        rintro e _ ⟨he, κ', rfl⟩
        exact .pure rfl ⟨List.forall_mem_cons.2 ⟨hP, he⟩, κ', rfl⟩
    | identifier =>
        have hpiece : (κ 0).shape = .piece := by rw [← hkind]; rfl
        refine .ite (fun _ => ?_) fun _ => alike_reference hg (.inl hkind.symm)
        refine .peekNext ⟨by rw [← hkind]; decide, hend⟩ (fun _ => rfl) ?_
        exact .ite (fun _ => alike_reference hg (.inl hkind.symm)) fun _ => alike_identifier hpiece
    | language => exact alike_reference hg (.inr hkind.symm)
    | leftParen => exact alike_grouped hg
    | underscore =>
        refine .ite (fun _ => ?_) fun _ => .throw (ParseError.ordinary_unexpectedToken hP _)
        exact .taking (.inr (by rw [← hkind]; rfl)) fun t _ _ => .pure rfl ⟨hname, _, rfl⟩
    | _ => exact .throw (ParseError.ordinary_unexpectedToken hP _)

theorem alike_segmentSize (hg : g.Proper) :
    Alike P C δ g g' (γ.seeing κ) (Expr.shift δ) (segmentSize g) (segmentSize g')
      (Settled γ (Expr.Within P)) := by
  refine .look ?_ ?_
  · rintro ⟨kind, text, position, stop⟩ rfl
    exact ⟨_, rfl, ParseError.standsAt_unexpectedToken _ _⟩
  · rintro - ⟨kind, text, position, stop⟩ (hkind : kind = κ 0) hP
    cases kind with
    | number => exact .literal rfl (by rw [← hkind]; rfl) fun e he => ⟨he, _, rfl⟩
    | identifier => exact alike_reference hg (.inl hkind.symm)
    | language => exact alike_reference hg (.inr hkind.symm)
    | leftParen => exact alike_grouped hg
    | _ => exact .throw (ParseError.ordinary_unexpectedToken hP _)

/-- A size, and what follows it, in view of a dash that may have been split off. -/
theorem alike_sizeClause (hg : g.Proper) (hstage : γ.stage ≠ .free) :
    Alike P C δ g g' (γ.seeing κ) (Option.map (Expr.shift δ)) (sizeClause g) (sizeClause g')
      fun size γ' => (∀ e ∈ size, e.Within P) ∧ γ.Loosely γ' := by
  refine .ite_check (by decide) (fun hcolon => ?_) fun _ => .pure rfl ⟨by simp, .inr ⟨κ, .inl rfl⟩⟩
  rw [View.kind_seeing] at hcolon
  refine .taking (.inl (by rw [hcolon]; rfl)) fun t _ _ => ?_
  refine .bind (.size (V := Expr.Within P)
    (Q := fun e γ' => e.Within P ∧ ∃ κ', γ' = { γ.seeing κ' with loose := true })
    (View.live_seeing _ _) hstage (fun κ' => alike_segmentSize hg) fun e κ' he => ⟨he, κ', rfl⟩) ?_
  rintro e _ ⟨he, κ', rfl⟩
  exact .pure rfl ⟨by simpa using he, .inr ⟨κ', .inr rfl⟩⟩

/-- Specifiers with dashes between them, which size mode reads as signs. The names are the same
    in both parses, since they are no trees with positions. -/
theorem alike_specifierList (start : List String) :
    Alike P C δ g g' (γ.seeing κ) id (specifierList start) (specifierList start)
      (Settled γ fun _ => True) := by
  refine .loop (m := id) (I := Settled γ fun _ => True) rfl ⟨trivial, κ, rfl⟩ ?_
  rintro acc _ ⟨-, κ, rfl⟩
  -- What follows an atom, with or without a parameter: a dash takes the loop on, anything else
  -- ends it.
  have hrest : ∀ (names : List String) κ', Alike P C δ g g' (γ.seeing κ') (Sum.map id id)
      (check .minus >>= fun minus =>
        if minus = true then consume >>= fun _ => pure (Sum.inl (acc ++ names))
        else pure (Sum.inr (acc ++ names)))
      (check .minus >>= fun minus =>
        if minus = true then consume >>= fun _ => pure (Sum.inl (acc ++ names))
        else pure (Sum.inr (acc ++ names)))
      fun r γ' => Sum.elim (fun c => Settled γ (fun _ => True) c γ')
        (fun c => Settled γ (fun _ => True) c γ') r := by
    intro names κ'
    refine .ite_check (by decide) (fun hminus => ?_) fun _ => .pure rfl ⟨trivial, κ', rfl⟩
    rw [View.kind_seeing] at hminus
    exact .taking (.inr (by rw [hminus]; rfl)) fun t _ _ => .pure rfl ⟨trivial, _, rfl⟩
  -- The atom itself, then the parameter if a colon follows.
  refine .expecting (by decide) fun atom _ _ => .ite_check (by decide) (fun hcolon => ?_) fun _ =>
      hrest _ _
  rw [View.kind_seeing] at hcolon
  refine .taking (.inl (by rw [hcolon]; rfl)) fun t _ _ => ?_
  refine .look (fun value hvalue => ?_) fun _ value hvalue hP => ?_
  · simp only [hvalue]
    exact ⟨_, rfl, ParseError.standsAt_unexpectedToken value _⟩
  · refine .ite (fun hparam => ?_) fun _ => .bind (m := id) (R := fun _ _ => False)
      (.throw (ParseError.ordinary_unexpectedToken hP _)) fun _ _ h => h.elim
    refine .taking ?_ fun t _ _ => hrest _ _
    rw [Bool.or_eq_true, decide_eq_true_eq, decide_eq_true_eq, hvalue] at hparam
    exact hparam.imp (fun h => by rw [View.kind_seeing] at h; rw [h]; rfl)
      fun h => by rw [View.kind_seeing] at h; rw [h]; rfl

/-- The specifiers of a segment. Where a dash may have been split off a name, a
    slash has to come first. -/
theorem alike_specifierLists {γ' : View} (hγ' : γ.Loosely γ') :
    Alike P C δ g g' γ' id specifierLists specifierLists fun _ γ'' => γ.Loosely γ'' := by
  refine .loop (m := id) (I := fun _ γ'' => γ.Loosely γ'') rfl hγ' ?_
  intro acc γ₁ hγ₁
  refine .ite_check (by decide) (fun hslash => ?_) fun _ => .pure rfl hγ₁
  refine .takingMark (by decide) hγ₁ hslash fun κ t => (alike_specifierList acc).bind ?_
  rintro names _ ⟨-, κ₂, rfl⟩
  exact .pure rfl (.inr ⟨κ₂, .inl rfl⟩)

/-- One segment. Its size is read in another mode, so what is foreseen behind it holds loosely
    only. -/
theorem alike_segment (hg : g.Proper) (hstage : γ.stage ≠ .free) (inPattern : Bool) :
    Alike P C δ g g' (γ.seeing κ) (BitSegment.shift δ) (segment g inPattern) (segment g' inPattern)
      fun s γ' => SegmentsWithin P [s] ∧ γ.Loosely γ' := by
  refine (alike_segmentValue hg inPattern).bind ?_
  rintro value _ ⟨hvalue, κ₁, rfl⟩
  refine (alike_sizeClause hg hstage).bind ?_
  rintro size γ₂ ⟨hsize, hγ₂⟩
  refine (alike_specifierLists hγ₂).bind fun specifiers γ₃ hγ₃ => .pure ?_ ⟨?_, hγ₃⟩
  · cases size <;> simp [BitSegment.shift]
  · have hparts : ∀ p ∈ value.positions ++ optionalPositions size, P p := by
      refine List.forall_mem_append.2 ⟨hvalue, ?_⟩
      cases size with
      | none => intro p hp; cases hp
      | some e => exact hsize e rfl
    intro p hp
    simp only [segmentPositions, List.append_nil] at hp
    exact List.forall_mem_cons.2 ⟨hvalue.position, hparts⟩ p hp

/-- Segments with commas between them. Each leaves a view that is looser than the one before, and
    the loop starts the next segment from there. -/
theorem alike_segmentList (hg : g.Proper) (hstage : γ.stage ≠ .free) (inPattern : Bool) :
    Alike P C δ g g' (γ.seeing κ) (List.map (BitSegment.shift δ)) (segmentList g inPattern)
      (segmentList g' inPattern) fun ss γ' => SegmentsWithin P ss ∧ γ.Loosely γ' := by
  refine alike_skipNewlines.bind fun _ γ₁ hskipped => ?_
  rcases hskipped.ended (.inr ⟨κ, rfl⟩) with ⟨-, hγ₁⟩
  refine .ite_check (by decide) (fun _ =>
      .pure rfl ⟨(by intro p hp; cases hp), View.loosely_of_ended hγ₁⟩) fun _ => ?_
  -- What was read so far keeps the property, and each round adds a segment or is the last.
  refine .loop (m := List.map (BitSegment.shift δ)) (I := Ended γ (SegmentsWithin P)) rfl
    ⟨(by intro p hp; cases hp), hγ₁⟩ ?_
  rintro acc γ₂ ⟨hacc, hγ₂⟩
  refine .revived hγ₂ ((stopsAtEnd_segment g inPattern).bind _) fun κ₂ _ => ?_
  refine (alike_segment hg hstage inPattern).bind ?_
  rintro next γ₃ ⟨hnext, hγ₃⟩
  refine alike_skipNewlines.bind fun _ γ₄ hskipped => ?_
  have hγ₄ := hskipped.loosely hγ₃
  refine .ite_check (by decide) (fun hcomma => .takingMark (by decide) hγ₄ hcomma fun κ₅ t =>
      ?_) fun _ => .pure (by simp) ⟨hacc.concat hnext, hγ₄⟩
  refine alike_skipNewlines.bind fun _ γ₆ hskipped => ?_
  refine .ite_check (by decide) (fun _ => alike_unexpected _) fun _ =>
      .pure (by simp) ⟨hacc.concat hnext, ?_⟩
  exact (hskipped.ended (.inr ⟨κ₅, rfl⟩)).2

/-- A bit string with its brackets. Behind the closing bracket the mode is what it was in front
    of the opening one, so the view is no looser there. -/
theorem alike_bitstring (hg : g.Proper) (inPattern : Bool) :
    Alike P C δ g g' (γ.seeing κ) (Prod.map (List.map (BitSegment.shift δ)) (Position.shift δ))
      (bitstring g inPattern) (bitstring g' inPattern)
      (Settled γ fun r => SegmentsWithin P r.1 ∧ P r.2) := by
  unfold bitstring
  refine .expectingOpener (by decide) fun opening ho => .nested (stopsAtEnd_bits g inPattern) ?_
  -- Sizes are read between such brackets only, so the stage must no longer be `free`.
  have hstage : (γ.entering .bitOpen).stage ≠ .free := by
    change γ.stage.entering .bitOpen ≠ .free
    cases γ.stage <;> decide
  refine (alike_segmentList hg hstage inPattern).bind ?_
  rintro segments γ₁ ⟨hsegments, hγ₁⟩
  have hinside : γ.Inside .bitOpen γ₁ := by
    rcases hγ₁ with rfl | ⟨κ₁, rfl | rfl⟩ <;> exact ⟨rfl, rfl, rfl⟩
  -- The closing bracket leads back to the view before the opening one, whatever was passed
  -- inside.
  have hclose : ∀ γ₂, γ.Inside .bitOpen γ₂ → ∀ found : Token,
      (found.kind ≠ .endOfInput → P found.position) → Alike P C δ g g' γ₂ (Prod.map (List.map
          (BitSegment.shift δ)) (Position.shift δ))
      (if found.kind = .bitClose || found.kind = .endOfInput then do
        let _ ← expectClosing opening .bitClose
        return (segments, opening.position)
      else throw (.unexpectedToken "',' or '>>'" found))
      (if found.kind = .bitClose || found.kind = .endOfInput then do
        let _ ← expectClosing (opening.shift δ) .bitClose
        return (segments.map (BitSegment.shift δ), (opening.shift δ).position)
      else throw (.unexpectedToken "',' or '>>'" (found.shift δ)))
      (Settled γ fun r => SegmentsWithin P r.1 ∧ P r.2) := by
    intro γ₂ hγ₂ found hP
    refine .ite (fun _ => .closed (by decide) hγ₂ ho fun κ' =>
        .pure rfl ⟨⟨hsegments, ho⟩, κ', rfl⟩) fun hnot => ?_
    refine .throw (ParseError.ordinary_unexpectedToken (hP fun hend => hnot ?_) _)
    rw [hend]
    rfl
  -- If the segments ended at the end of the text, the counterpart need not be there too.
  by_cases hend : γ₁.kind 0 = .endOfInput
  · exact .giveUp hend (.current (fun _ => .inl rfl) fun found _ hP =>
        hclose γ₁.spent hinside found hP)
  · exact .glance hend fun found _ hP => hclose _ hinside found fun _ => hP

/-! ### Operands and operators -/

/-- An array, whose elements are parsed one level further up in the grammar. -/
theorem alike_arrayLiteral (hg : g.Proper) :
    Alike P C δ g g' (γ.seeing κ) (Expr.shift δ) (arrayLiteral g) (arrayLiteral g')
      (Settled γ (Expr.Within P)) := by
  unfold arrayLiteral
  refine .expectingOpener (by decide) fun opening ho => ?_
  refine .bind (alike_commaList (m := List.map (Expr.shift δ)) (V := ExprsWithin P)
      (by decide) _ rfl
    (by intro p hp; cases hp) (fun acc => StopsAtEnd.bind (fun t ht =>
        (hg.stops t ht).expression) _)
    fun acc κ' _ hacc => .parsing fun e κ'' he =>
      .pure (by simp) ⟨hacc.concat he, .inr ⟨κ'', rfl⟩⟩) ?_
  rintro elements γ' ⟨helements, hγ'⟩
  refine .closed (by decide) (View.inside_of_ended hγ') ho fun κ' =>
      .pure (by simp [Expr.shift]) ⟨?_, κ', rfl⟩
  exact List.forall_mem_cons.2 ⟨ho, helements⟩

/-- An entry of an object. A key is a name, a word or a string, and the colon behind it is
    expected in either case. -/
theorem alike_objectEntry (hg : g.Proper) :
    Alike P C δ g g' (γ.seeing κ) (ObjectEntry.shift δ) (objectEntry g) (objectEntry g')
      (Settled γ fun e => e.value.Within P) := by
  -- The key is taken first, by its kind; then all entries go on alike.
  have hentry : ∀ key κ', Alike P C δ g g' (γ.seeing κ') (ObjectEntry.shift δ)
      (do
        let _ ← expect .colon
        let _ ← skipNewlines
        let value ← g.expression
        return .mk key value)
      (do
        let _ ← expect .colon
        let _ ← skipNewlines
        let value ← g'.expression
        return .mk key value) (Settled γ fun e => e.value.Within P) := by
    intro key κ'
    refine .expecting (by decide) fun _ _ _ => .skip _ (fun _ => ?_) fun _ κ₁ _ =>
        .parsing fun e κ₂ he =>
      .pure rfl ⟨he, κ₂, rfl⟩
    exact StopsAtEnd.bind (fun t ht => (hg.stops t ht).expression) _
  refine .look ?_ ?_
  · rintro ⟨kind, text, position, stop⟩ rfl
    exact ⟨_, rfl, ParseError.standsAt_unexpectedToken _ _⟩
  · rintro - ⟨kind, text, position, stop⟩ (hkind : kind = κ 0) hP
    cases kind with
    | identifier | language =>
        exact .taking (.inr (by rw [← hkind]; rfl)) fun t _ _ => hentry _ _
    | string => exact .taking (.inl (by rw [← hkind]; rfl)) fun t _ _ => hentry _ _
    | _ => exact .throw (ParseError.ordinary_unexpectedToken hP _)

/-- An object, whose entries are parsed one level further up in the grammar. -/
theorem alike_objectLiteral (hg : g.Proper) :
    Alike P C δ g g' (γ.seeing κ) (Expr.shift δ) (objectLiteral g) (objectLiteral g')
      (Settled γ (Expr.Within P)) := by
  unfold objectLiteral
  refine .expectingOpener (by decide) fun opening ho => ?_
  refine .bind (alike_commaList (m := List.map (ObjectEntry.shift δ)) (V := EntriesWithin P)
      (by decide) _ rfl
    (by intro p hp; cases hp) (fun acc => (stopsAtEnd_objectEntry g).bind _)
    fun acc κ' _ hacc => (alike_objectEntry hg).bind ?_) ?_
  · rintro ⟨key, value⟩ _ ⟨he, κ'', rfl⟩
    exact .pure (by simp [ObjectEntry.shift]) ⟨hacc.concat he, .inr ⟨κ'', rfl⟩⟩
  · rintro entries γ' ⟨hentries, hγ'⟩
    refine .closed (by decide) (View.inside_of_ended hγ') ho fun κ' =>
      .pure (by simp [Expr.shift]) ⟨?_, κ', rfl⟩
    exact List.forall_mem_cons.2 ⟨ho, hentries⟩

/-- An operand without its suffixes. Its first token decides which rule reads it. -/
theorem alike_primary (hg : g.Proper) :
    Alike P C δ g g' (γ.seeing κ) (Expr.shift δ) (primary g) (primary g')
      (Settled γ (Expr.Within P)) := by
  refine .look ?_ ?_
  · rintro ⟨kind, text, position, stop⟩ rfl
    exact ⟨_, rfl, ParseError.standsAt_unexpectedToken _ _⟩
  · rintro - ⟨kind, text, position, stop⟩ (hkind : kind = κ 0) hP
    cases kind with
    | number | string | kwTrue | kwFalse | kwNil =>
        exact .literal rfl (by rw [← hkind]; rfl) fun e he => ⟨he, _, rfl⟩
    | identifier => exact alike_reference hg (.inl hkind.symm)
    | language => exact alike_reference hg (.inr hkind.symm)
    | leftParen => exact alike_grouped hg
    | leftBracket => exact alike_arrayLiteral hg
    | leftBrace => exact alike_objectLiteral hg
    | bitOpen =>
        refine (alike_bitstring hg false).bind ?_
        rintro ⟨segments, p⟩ _ ⟨⟨hsegments, hp⟩, κ', rfl⟩
        refine .pure (by simp [Expr.shift]) ⟨?_, κ', rfl⟩
        exact List.forall_mem_cons.2 ⟨hp, hsegments⟩
    | _ => exact .throw (ParseError.ordinary_unexpectedToken hP _)

/-- Indexes and fields behind an operand. Each round of the loop takes the tree so far, so the
    tree stays among the positions that are known. -/
theorem alike_suffixes (hg : g.Proper) {start : Expr} (hstart : start.Within P) :
    Alike P C δ g g' (γ.seeing κ) (Expr.shift δ) (suffixes g start) (suffixes g' (start.shift δ))
      (Settled γ (Expr.Within P)) := by
  refine .loop (m := Expr.shift δ) (I := Settled γ (Expr.Within P)) rfl ⟨hstart, κ, rfl⟩ ?_
  rintro e _ ⟨he, κ, rfl⟩
  -- A newline ends the suffixes as the end of the text does, so it does not matter which of them
  -- the counterpart sees.
  refine .peekKind (fun _ => .inr rfl) ?_
  rw [View.kind_seeing]
  cases hκ : κ 0 with
  | leftBracket =>
      refine .opening (by decide) hκ fun opening ho => .skip _ (fun _ => ?_) fun _ κ₁ _ =>
          .parsing ?_
      · exact StopsAtEnd.bind (fun t ht => (hg.stops t ht).expression) _
      · intro index κ₂ hindex
        refine .skip _ (fun _ =>
            StopsAtEnd.bind (stopsAtEnd_expectClosing (by decide)) _) fun _ κ₃ _ =>
          .closed (by decide) (show γ.Inside .leftBracket _ from ⟨rfl, rfl, rfl⟩) ho fun κ₄ =>
          .pure (by simp [Expr.shift]) ⟨?_, κ₄, rfl⟩
        exact List.forall_mem_cons.2 ⟨he.position, List.forall_mem_append.2 ⟨he, hindex⟩⟩
  | dot =>
      refine .taking (.inl (by rw [hκ]; rfl)) fun _ _ _ => alike_memberName.bind ?_
      rintro field _ ⟨hfield, κ₁, rfl⟩
      refine .ite_check (by decide) (fun _ => .throw ?_) fun _ =>
          .pure (by simp [Expr.shift]) ⟨?_, κ₁, rfl⟩
      · exact List.forall_mem_singleton.2 hfield
      · exact List.forall_mem_cons.2 ⟨he.position, he⟩
  | _ => exact .pure rfl ⟨he, κ, rfl⟩

theorem shape_of_unaryOp {kind : Kind} {op : UnaryOp} (h : UnaryOp.ofKind? kind = some op) :
    kind.shape = .mark ∨ kind.shape = .piece := by
  cases kind <;> first | exact .inl rfl | exact .inr rfl | cases h

theorem shape_of_binaryOp {kind : Kind} {op : BinaryOp} (h : BinaryOp.ofKind? kind = some op) :
    kind.shape = .mark ∨ kind.shape = .piece := by
  cases kind <;> first | exact .inl rfl | exact .inr rfl | cases h

/-- An operand with the sign in front of it. A sign before a number becomes part of the number,
    in both parses alike. -/
theorem alike_operand (hg : g.Proper) :
    Alike P C δ g g' (γ.seeing κ) (Expr.shift δ) (operand g) (operand g')
      (Settled γ (Expr.Within P)) := by
  refine .peekKind (fun _ => .inr rfl) ?_
  rw [View.kind_seeing]
  cases hop : UnaryOp.ofKind? (κ 0) with
  | some op =>
      refine .taking (shape_of_unaryOp hop) fun t _ hP => ?_
      refine .bind (.nested (fun t ht => (hg.stops t ht).operand)
        (.operand (Q := Settled γ (Expr.Within P)) (View.live_seeing _ _)
          fun e κ' he => ⟨he, κ', rfl⟩)) ?_
      rintro e _ ⟨he, κ', rfl⟩
      exact .pure rfl ⟨List.forall_mem_cons.2 ⟨hP, he⟩, κ', rfl⟩
  | none =>
      refine (alike_primary hg).bind ?_
      rintro e _ ⟨he, κ', rfl⟩
      exact alike_suffixes hg he

/-- Operators of one precedence and of those that bind more strongly, by induction on the levels
    that are left. -/
theorem alike_binary (hg : g.Proper) (levels least : Nat) :
    Alike P C δ g g' (γ.seeing κ) (Expr.shift δ) (binary g levels least) (binary g' levels least)
      (Settled γ (Expr.Within P)) := by
  induction levels generalizing κ least with
  | zero => exact alike_operand hg
  | succ levels ih =>
      refine (alike_operand hg).bind ?_
      rintro first _ ⟨hfirst, κ₁, rfl⟩
      refine .loop (m := Expr.shift δ) (I := Settled γ (Expr.Within P)) rfl ⟨hfirst, κ₁, rfl⟩ ?_
      rintro left _ ⟨hleft, κ₂, rfl⟩
      refine .peekKind (fun _ => .inr rfl) ?_
      rw [View.kind_seeing]
      cases hop : BinaryOp.ofKind? (κ₂ 0) with
      | none => exact .pure rfl ⟨hleft, κ₂, rfl⟩
      | some op =>
          refine .ite (fun _ => .pure rfl ⟨hleft, κ₂, rfl⟩) fun _ => ?_
          refine .taking (shape_of_binaryOp hop) fun _ _ _ => .skip _ (fun _ => ?_) fun _ κ₃ _ => ?_
          · exact StopsAtEnd.bind (stopsAtEnd_binary g levels _) _
          · refine (ih _).bind ?_
            rintro right _ ⟨hright, κ₄, rfl⟩
            refine .pure (by simp [Expr.shift]) ⟨?_, κ₄, rfl⟩
            exact List.forall_mem_cons.2 ⟨hleft.position, List.forall_mem_append.2 ⟨hleft, hright⟩⟩

/-- What may follow a condition: nothing, a fallback, or two branches. -/
theorem alike_conditionalTail (hg : g.Proper) {condition : Expr} (hcondition : condition.Within P) :
    Alike P C δ g g' (γ.seeing κ) (Expr.shift δ) (conditionalTail g condition)
      (conditionalTail g' (condition.shift δ)) (Settled γ (Expr.Within P)) := by
  have hexpression : StopsAtEnd g.expression := fun t ht => (hg.stops t ht).expression
  refine .ite_check (by decide) (fun hquestion => ?_) fun _ => .pure rfl ⟨hcondition, κ, rfl⟩
  rw [View.kind_seeing] at hquestion
  refine .taking (.inl (by rw [hquestion]; rfl)) fun _ _ _ =>
      .ite_check (by decide) (fun hcolon => ?_) fun _ => ?_
  -- `?:` is two tokens, and one operand follows.
  · rw [View.kind_seeing] at hcolon
    refine .taking (.inl (by rw [hcolon]; rfl)) fun _ _ _ => .skip _ (fun _ => hexpression.bind _)
      fun _ κ₁ _ => .parsing fun fallback κ₂ hfallback =>
      .pure (by simp [Expr.shift]) ⟨?_, κ₂, rfl⟩
    exact List.forall_mem_cons.2 ⟨hcondition.position,
      List.forall_mem_append.2 ⟨hcondition, hfallback⟩⟩
  -- Otherwise there are two operands, with a colon between them.
  · refine .skip _ (fun _ => hexpression.bind _) fun _ κ₁ _ => .parsing fun onTrue κ₂ honTrue => ?_
    refine .skip _ (fun _ => StopsAtEnd.bind (stopsAtEnd_expect (by decide)) _) fun _ κ₃ _ =>
        .expecting (by decide) fun _ _ _ => ?_
    refine .skip _ (fun _ => hexpression.bind _) fun _ κ₄ _ => .parsing fun onFalse κ₅ honFalse =>
      .pure (by simp [Expr.shift]) ⟨?_, κ₅, rfl⟩
    exact List.forall_mem_cons.2 ⟨hcondition.position, List.forall_mem_append.2
      ⟨List.forall_mem_append.2 ⟨hcondition, honTrue⟩, honFalse⟩⟩

theorem alike_expression (hg : g.Proper) :
    Alike P C δ g g' (γ.seeing κ) (Expr.shift δ) (expression g) (expression g')
      (Settled γ (Expr.Within P)) := by
  refine .nested (fun t ht => (stopsAt_operation (.inl ht) g).bind _) ?_
  refine (alike_binary hg 7 1).bind ?_
  rintro condition _ ⟨hcondition, κ', rfl⟩
  exact alike_conditionalTail hg hcondition

/-! ### Patterns -/

theorem within_normalizeLiteral {e : Expr} (h : e.Within P) : (normalizeLiteral e).Within P := by
  unfold normalizeLiteral
  split
  · exact List.forall_mem_singleton.2 h.position
  · exact h

theorem within_negateLiteral {p : Position} {e : Expr} (hp : P p) (h : e.Within P) :
    (negateLiteral p e).Within P := by
  unfold negateLiteral
  split
  · exact List.forall_mem_singleton.2 hp
  · exact List.forall_mem_singleton.2 hp
  · exact h

/-- The rest of an array pattern. It is the last element, so the text may end behind it and the
    counterpart may be left behind. -/
theorem alike_restPattern (hκ : (κ 0).shape = .mark) :
    Alike P C δ g g' (γ.seeing κ) id restPattern restPattern (Ended γ fun _ => True) := by
  -- Behind the name there may only be the bracket, with a comma in front of it or not.
  have hrest : ∀ (name : Token) (dots : Token) γ₁, P dots.position →
      (γ₁ = γ.spent ∨ ∃ κ, γ₁ = γ.seeing κ) → Alike P C δ g g' γ₁ id
      (check .rightBracket >>= fun closed => if closed = true then pure name.text else
        throw (.unsupported "rest pattern"
          "'...' may only bind the last element of an array pattern" dots.position))
      (check .rightBracket >>= fun closed => if closed = true then pure (name.shift δ).text else
        throw (.unsupported "rest pattern"
          "'...' may only bind the last element of an array pattern" (dots.shift δ).position))
      (Ended γ fun _ => True) := by
    intro name dots γ₁ hdots hγ₁
    refine .ite_check (by decide) (fun _ => .pure rfl ⟨trivial, hγ₁⟩) fun _ => .throw ?_
    exact List.forall_mem_singleton.2 hdots
  refine .taking (.inl hκ) fun dots _ hdots => .expecting (by decide) fun name _ _ => ?_
  refine alike_skipNewlines.bind fun _ γ₁ hskipped => ?_
  rcases hskipped.ended (.inr ⟨_, rfl⟩) with ⟨-, hγ₁⟩
  refine .ite_check (by decide) (fun hcomma => .takingMark (by decide)
    (View.loosely_of_ended hγ₁) hcomma fun _ _ => ?_) fun _ => hrest name dots γ₁ hdots hγ₁
  refine alike_skipNewlines.bind fun _ γ₂ hskipped => hrest name dots γ₂ hdots ?_
  exact (hskipped.ended (.inr ⟨_, rfl⟩)).2

/-- What an array pattern has so far, moved by a distance. -/
def ArrayPattern.shift (δ : Shift) (p : ArrayPattern) : ArrayPattern :=
  ⟨p.elements.map (Pattern.shift δ), p.rest⟩

/-- An array pattern with its rest. The rest ends the loop over the elements, and only the
    closing bracket may follow. -/
theorem alike_arrayPattern (hg : g.Proper) :
    Alike P C δ g g' (γ.seeing κ) (Pattern.shift δ) (arrayPattern g) (arrayPattern g')
      (Settled γ (Pattern.Within P)) := by
  unfold arrayPattern
  refine .expectingOpener (by decide) fun opening ho => ?_
  refine alike_skipNewlines.bind fun _ γ₁ hskipped => ?_
  rcases hskipped.ended (.inr ⟨_, rfl⟩) with ⟨-, hγ₁⟩
  -- Rounds of the loop may begin at the end of the text too, where newlines have been skipped.
  refine .bind (m := ArrayPattern.shift δ)
    (R := Ended (γ.entering .leftBracket) fun p => PatternsWithin P p.elements)
    (.loop (m := List.map (Pattern.shift δ))
      (I := Ended (γ.entering .leftBracket) (PatternsWithin P)) rfl
      ⟨(by intro p hp; cases hp), hγ₁⟩ ?_) ?_
  · rintro acc γ₂ ⟨hacc, hγ₂⟩
    refine .ite_check (by decide) (fun _ => .pure rfl ⟨hacc, hγ₂⟩) fun _ =>
        .ite_check (by decide) (fun hdots => ?_) fun _ => ?_
    · rcases hγ₂ with rfl | ⟨κ₂, rfl⟩
      · cases hdots
      · rw [View.kind_seeing] at hdots
        refine (alike_restPattern (by rw [hdots]; rfl)).bind ?_
        rintro name γ₃ ⟨-, hγ₃⟩
        exact .pure rfl ⟨hacc, hγ₃⟩
    · refine .revived hγ₂ (StopsAtEnd.bind (fun t ht => (hg.stops t ht).pattern) _)
        fun κ₂ _ => ?_
      refine .bind (.pattern (Q := Settled (γ.entering .leftBracket) (Pattern.Within P))
        (View.live_seeing _ _) fun p κ' hp => ⟨hp, κ', rfl⟩) ?_
      rintro element _ ⟨helement, κ₃, rfl⟩
      refine alike_skipNewlines.bind fun _ γ₄ hskipped => ?_
      rcases hskipped.ended (.inr ⟨_, rfl⟩) with ⟨-, hγ₄⟩
      refine .ite_check (by decide) (fun hcomma => .takingMark (by decide)
        (View.loosely_of_ended hγ₄) hcomma fun _ _ => ?_) fun _ =>
          .pure (by simp [ArrayPattern.shift]) ⟨hacc.concat helement, hγ₄⟩
      refine alike_skipNewlines.bind fun _ γ₅ hskipped =>
        .pure (by simp) ⟨hacc.concat helement, ?_⟩
      exact (hskipped.ended (.inr ⟨_, rfl⟩)).2
  · rintro result γ₂ ⟨hresult, hγ₂⟩
    refine .closed (by decide) (View.inside_of_ended hγ₂) ho fun κ' =>
      .pure (by simp [Pattern.shift, ArrayPattern.shift]) ⟨?_, κ', rfl⟩
    exact List.forall_mem_cons.2 ⟨ho, hresult⟩

/-- A field of an object pattern. A field whose key was used before is refused, and this depends
    on the keys alone, which are not moved. -/
theorem alike_patternField (hg : g.Proper) {fields : List PatternField}
    (hfields : ∀ p ∈ fieldPositions fields, P p) :
    Alike P C δ g g' (γ.seeing κ) (List.map (PatternField.shift δ)) (patternField g fields)
      (patternField g' (fields.map (PatternField.shift δ)))
      (Settled γ fun fields => ∀ p ∈ fieldPositions fields, P p) := by
  refine .look (fun key hkey => ?_) fun _ key hkey hP => .ite (fun hname => ?_)
    fun _ => .throw (ParseError.ordinary_unexpectedToken hP _)
  · simp only [hkey]
    exact ⟨_, rfl, ParseError.standsAt_unexpectedToken key _⟩
  -- A key is a name or a string, so the token that is taken is no bracket and no newline.
  · rw [View.kind_seeing] at hkey
    have hshape : (κ 0).shape = .mark ∨ (κ 0).shape = .piece := by
      rw [hkey] at hname
      revert hname
      cases κ 0 <;> decide
    refine .taking hshape fun _ _ _ => .expecting (by decide) fun _ _ _ => .skip _ (fun _ =>
        ?_) fun _ κ₁ _ => ?_
    · exact StopsAtEnd.bind (fun t ht => (hg.stops t ht).pattern) _
    · refine .bind (.pattern (Q := Settled γ (Pattern.Within P)) (View.live_seeing _ _)
        fun p κ' hp => ⟨hp, κ', rfl⟩) ?_
      rintro pattern _ ⟨hpattern, κ₂, rfl⟩
      -- Moving a key does not change how it compares with the keys before it.
      rw [Token.shift_text, PatternField.insert?_shift]
      cases hinsert : PatternField.insert? key.text pattern fields with
      | none => exact .throw (List.forall_mem_singleton.2 hP)
      | some result =>
          refine .pure rfl ⟨fun p hp => ?_, κ₂, rfl⟩
          rcases mem_fieldPositions_insert? hinsert hp with hp | hp
          · exact hpattern p hp
          · exact hfields p hp

/-- An object pattern, whose fields are put in the order of their keys while they are read. -/
theorem alike_objectPattern (hg : g.Proper) :
    Alike P C δ g g' (γ.seeing κ) (Pattern.shift δ) (objectPattern g) (objectPattern g')
      (Settled γ (Pattern.Within P)) := by
  unfold objectPattern
  refine .expectingOpener (by decide) fun opening ho => ?_
  refine .bind (alike_commaList (m := List.map (PatternField.shift δ))
    (V := fun fields => ∀ p ∈ fieldPositions fields, P p) (by decide) _ rfl
        (by intro p hp; cases hp)
    (stopsAtEnd_patternField g) fun acc κ' _ hacc => .weaken (alike_patternField hg hacc) ?_) ?_
  · rintro fields _ ⟨hfields, κ'', rfl⟩
    exact ⟨hfields, .inr ⟨κ'', rfl⟩⟩
  · rintro fields γ' ⟨hfields, hγ'⟩
    refine .closed (by decide) (View.inside_of_ended hγ') ho fun κ' =>
      .pure (by simp [Pattern.shift]) ⟨?_, κ', rfl⟩
    exact List.forall_mem_cons.2 ⟨ho, hfields⟩

/-- Patterns. Their first token decides which rule reads them, and a sign must stand before a
    number. -/
theorem alike_pattern (hg : g.Proper) :
    Alike P C δ g g' (γ.seeing κ) (Pattern.shift δ) (pattern g) (pattern g')
      (Settled γ (Pattern.Within P)) := by
  have hliteral : ∀ κ', (κ' 0).isLiteral = true →
      Alike P C δ g g' (γ.seeing κ') (Expr.shift δ) literal literal (Settled γ (Expr.Within P)) :=
    fun κ' hκ' => .literal rfl hκ' fun e he => ⟨he, _, rfl⟩
  refine .nested ?_ (.look ?_ ?_)
  -- At the end of the text a pattern fails, as nesting asks for.
  · intro t ht
    refine stopsAt_current ?_
    rw [ht]
    exact stopsAt_throw rfl
  · rintro ⟨kind, text, position, stop⟩ rfl
    exact ⟨_, rfl, ParseError.standsAt_unexpectedToken _ _⟩
  -- One case for each kind that begins a pattern.
  · rintro hend ⟨kind, text, position, stop⟩ (hkind : kind = κ 0) hP
    have hplace : ∀ p ∈ [position], P p := List.forall_mem_singleton.2 hP
    cases kind with
    | number | string | kwTrue | kwFalse | kwNil =>
        refine (hliteral κ (by rw [← hkind]; rfl)).bind ?_
        rintro value _ ⟨hvalue, κ', rfl⟩
        refine .pure (by simp [Pattern.shift]) ⟨?_, κ', rfl⟩
        exact List.forall_mem_cons.2 ⟨hP, within_normalizeLiteral hvalue⟩
    | minus =>
        refine .peekNext ⟨by rw [← hkind]; decide, hend⟩ (fun _ => rfl) (.ite (fun hnumber => ?_)
          fun _ => .throw (ParseError.ordinary_unexpectedToken hP _))
        refine .taking (.inr (by rw [← hkind]; rfl)) fun _ _ _ => ?_
        refine (hliteral _ (by rw [hnumber]; rfl)).bind ?_
        rintro value _ ⟨hvalue, κ', rfl⟩
        refine .pure (by simp [Pattern.shift]) ⟨?_, κ', rfl⟩
        exact List.forall_mem_cons.2 ⟨hP, within_negateLiteral hP (within_normalizeLiteral hvalue)⟩
    | underscore | identifier =>
        exact .taking (.inr (by rw [← hkind]; rfl)) fun _ _ _ => .pure rfl ⟨hplace, _, rfl⟩
    | leftBracket => exact alike_arrayPattern hg
    | leftBrace => exact alike_objectPattern hg
    | bitOpen =>
        refine (alike_bitstring hg true).bind ?_
        rintro ⟨segments, p⟩ _ ⟨⟨hsegments, hp⟩, κ', rfl⟩
        refine .pure (by simp [Pattern.shift]) ⟨?_, κ', rfl⟩
        exact List.forall_mem_cons.2 ⟨hp, hsegments⟩
    | _ => exact .throw (ParseError.ordinary_unexpectedToken hP _)

end Parse

end PolyScript
