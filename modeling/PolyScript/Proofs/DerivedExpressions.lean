import PolyScript.Proofs.Derivation

/-!
# Expressions Are Derived

The rules for expressions and patterns compute derivations. Each rule has one lemma: on a
tape it ends, if it succeeds, in front of another tape, and the tree that it yields is
derived from the tokens between them.

A rule hands parts of the tape on to the other parts of the grammar, but only parts that
begin behind its own first token. So the lemmas ask nothing of the grammar in front of it.
That is what the levels of a grammar are counted by later on.

## Main definitions

* `Parse.Covers`: The parts of expressions and patterns are derived behind the first token
  of a tape.

## Theorems

* `Parse.runs_chainEndsInCall`: What a look along a dotted chain tells.
* `Parse.runs_reference`, `Parse.runs_bitstring`, `Parse.runs_operand`: Operands.
* `Parse.runs_binary`: Chains of operators.
* `Parse.runs_expression`: The rule for whole expressions.
* `Parse.runs_pattern`: The rule for patterns.
-/

namespace PolyScript

namespace Parse

/-- The parts of expressions and patterns are derived wherever a tape begins behind the first
    token of this one. -/
structure Covers (env : Env) (short : Prop) (τ : Tape env.source) (g : Grammar) : Prop where
  expression : ∀ {υ : Tape env.source}, τ.Before υ →
    Runs env short υ g.expression fun e χ => Derives env υ (.expression e) χ
  operand : ∀ {υ : Tape env.source}, τ.Before υ →
    Runs env short υ g.operand fun e χ => Derives env υ (.operand e) χ
  pattern : ∀ {υ : Tape env.source}, τ.Before υ →
    Runs env short υ g.pattern fun p χ => DerivesPattern env υ (.pattern p) χ
  guard : env.guard.enabled = true → short

variable {α : Type} {env : Env} {short : Prop} {g : Grammar} {τ υ : Tape env.source}
  {Q : α → Tape env.source → Prop}

theorem Covers.upTo (hg : Covers env short τ g) (h : τ.UpTo υ) : Covers env short υ g where
  expression hυ := hg.expression (h.before hυ)
  operand hυ := hg.operand (h.before hυ)
  pattern hυ := hg.pattern (h.before hυ)
  guard := hg.guard

/-! ### Names -/

/-- Whether a member is ahead is a matter of two tokens, a dot and a name behind it. -/
theorem runs_memberAhead {f : Bool → Parse α}
    (h : ∀ b, (b = true ↔ τ.head.kind = .dot ∧ isMemberName τ.tail.head.kind = true) →
      Runs env short τ (f b) Q) : Runs env short τ (memberAhead >>= f) Q := by
  refine Runs.bind (R := fun b υ => υ = τ ∧
    (b = true ↔ τ.head.kind = .dot ∧ isMemberName τ.tail.head.kind = true)) ?_ ?_
  · refine Runs.ite_check (fun hdot => Runs.peekKind 1 (Runs.pure ⟨rfl, ?_⟩))
      fun hdot => Runs.pure ⟨rfl, ?_⟩
    · exact (and_iff_right hdot).symm
    · simp [hdot]
  · rintro b _ ⟨rfl, hb⟩
    exact h b hb

/-- A look along a dotted chain tells whether it ends in a call. -/
theorem runs_chainEndsInCall {f : Bool → Parse α}
    (h : ∀ b, (b = true ↔ τ.tail.Calls) → Runs env short τ (f b) Q) :
    Runs env short τ (chainEndsInCall >>= f) Q := by
  refine Runs.bind (R := fun b υ => υ = τ ∧ (b = true ↔ τ.tail.Calls)) ?_ ?_
  · refine Runs.lookahead scans_chainEndsInCall (Runs.consume ?_)
    refine Runs.loop (I := fun _ υ => υ.Calls ↔ τ.tail.Calls) .rfl fun _ υ hυ => ?_
    refine runs_memberAhead fun b hb => Runs.ite (fun hmember => ?_) fun hother => ?_
    · rcases hb.1 hmember with ⟨hdot, hname⟩
      have hcalls := (Tape.calls_member hdot hname).symm.trans hυ
      refine Runs.consume (Runs.consume (Runs.pure ⟨?_, hcalls⟩))
      exact (Tape.before_tail hdot (by decide)).trans υ.tail.upTo_tail
    · refine Runs.check .leftParen (Runs.pure ⟨rfl, ?_⟩)
      rw [decide_eq_true_eq, ← Tape.calls_other (hother ∘ hb.2)]
      exact hυ
  · rintro b _ ⟨rfl, hb⟩
    exact h b hb

theorem runs_memberName {f : Token → Parse α}
    (h : isMemberName τ.head.kind = true → Runs env short τ.tail (f τ.head) Q) :
    Runs env short τ (memberName >>= f) Q := by
  refine Runs.bind (R := fun t υ => isMemberName τ.head.kind = true ∧ t = τ.head ∧ υ = τ.tail)
    ?_ ?_
  · exact Runs.peekKind 0 (Runs.ite (fun hmember => Runs.taken ⟨hmember, rfl, rfl⟩)
      fun _ => Runs.unexpected _)
  · rintro _ _ ⟨hmember, rfl, rfl⟩
    exact h hmember

/-- The segments of a chain that leads to a call end where the call begins. -/
theorem runs_segments {f : List String → Parse α}
    (h : ∀ names (υ : Tape env.source), τ.UpTo υ → (τ.Calls ↔ υ.head.kind = .leftParen) →
      Runs env short υ (f names) Q) : Runs env short τ (segments >>= f) Q := by
  refine Runs.bind (R := fun _ υ => τ.UpTo υ ∧ (τ.Calls ↔ υ.head.kind = .leftParen)) ?_
    fun names υ hυ => h names υ hυ.1 hυ.2
  refine Runs.loop (I := fun _ υ => τ.UpTo υ ∧ (τ.Calls ↔ υ.Calls)) ⟨.refl τ, .rfl⟩ ?_
  rintro names υ ⟨hle, hcalls⟩
  refine Runs.ite_check (fun hdot => Runs.consume (runs_memberName fun hmember => Runs.pure ?_))
    fun hdot => Runs.pure ⟨hle, ?_⟩
  · have hbefore := (Tape.before_tail hdot (by decide)).trans υ.tail.upTo_tail
    exact ⟨hbefore, hle.trans hbefore.upTo, hcalls.trans (Tape.calls_member hdot hmember)⟩
  · exact hcalls.trans (Tape.calls_other fun h => hdot h.1)

/-! ### References and calls -/

theorem argument_end {kind : Kind}
    (h : (kind = .comma || kind = .rightParen || kind = .newline) = true) :
    BinaryOp.ofKind? kind = none ∧ kind ≠ .leftParen ∧ kind ≠ .dot := by
  revert h
  cases kind <;> decide

/-- An argument that stands alone is the expression that it would be anyway. -/
theorem runs_argument
    (h : Runs env short τ g.expression fun e υ => Derives env τ (.expression e) υ) :
    Runs env short τ (argument g) fun e υ => Derives env τ (.expression e) υ := by
  refine Runs.peekKind 1 (Runs.peekKind 0 (Runs.ite (fun hliteral => ?_) fun _ =>
    Runs.ite (fun hname => ?_) fun _ => h))
  · rw [Bool.and_eq_true] at hliteral
    exact Runs.literal fun e he =>
      .chain (.operand (.suffixed (.literal he))) (argument_end hliteral.1).1
  -- What ends an argument is no operator and begins no call.
  · rw [Bool.and_eq_true, decide_eq_true_eq] at hname
    rcases argument_end hname.1 with ⟨hop, hparen, hdot⟩
    have hcalls : ¬τ.tail.Calls := fun hcalls => hcalls.head.elim hparen hdot
    exact Runs.consume (Runs.pure (.chain (.operand (.suffixed (.name hname.2 hcalls))) hop))

/-- Lists of expressions. -/
theorem runs_expressions {item : Parse Expr} {closer : Kind}
    (h : ∀ υ : Tape env.source, τ.UpTo υ →
      Runs env short υ item fun e χ => Derives env υ (.expression e) χ) :
    Runs env short τ (commaList closer [] fun acc => return acc ++ [← item])
      fun es υ => Derives env τ (.expressions es) υ := by
  refine Runs.commaList (fun υ hυ => .noExpressions hυ) fun es υ hυ hes => ?_
  exact (h υ hυ).bind fun e χ he => Runs.pure ⟨he.before, fun ω hω => .expressions hes he hω⟩

theorem runs_callArguments (hg : Covers env short τ g) {f : List Expr → Parse α}
    (h : ∀ es (υ χ : Tape env.source), τ.Before υ → Derives env υ (.expressions es) χ →
      Runs env short χ.tail (f es) Q) : Runs env short τ (callArguments g >>= f) Q := by
  refine Runs.bind (R := fun es ω => ∃ υ χ : Tape env.source, τ.Before υ ∧
    Derives env υ (.expressions es) χ ∧ ω = χ.tail) ?_ ?_
  · refine Runs.expect fun hkind => ?_
    have hbefore := Tape.before_tail hkind (by decide)
    refine (runs_expressions fun υ hυ => runs_argument (hg.expression (hbefore.trans hυ))).bind
      fun es χ hes => Runs.expectClosing fun _ => Runs.pure ⟨τ.tail, χ, hbefore, hes, rfl⟩
  · rintro es _ ⟨υ, χ, hbefore, hes, rfl⟩
    exact h es υ χ hbefore hes

theorem resolveAt_error {table : LanguageTable} {name : String} {p : Position} {e : ParseError}
    (h : table.resolveAt name p = .error e) : ¬e.IsTooDeep := by
  rw [LanguageTable.resolveAt] at h
  split at h
  · cases h
  · cases h
    rintro ⟨_, _, hdeep⟩
    cases hdeep

/-- A chain behind the tag of a language is a value or a call, by whether a parenthesis ends it.
    The names before the last are its path. -/
theorem runs_guestChain (hg : Covers env short τ g) (hname : isMemberName τ.head.kind = true) :
    Runs env short τ (guestChain g) fun e υ => Derives env τ (.suffixed e) υ := by
  have hbefore : τ.Before τ.tail := Tape.before_tail_of_ne (ne_end_of_isMemberName hname)
  refine Runs.consume (Runs.languages ?_)
  cases hresolved : env.languages.resolveAt τ.head.text τ.head.position with
  | error e => exact Runs.throw (resolveAt_error hresolved)
  | ok language =>
      refine runs_segments fun names υ hυ hcalls => Runs.ite_check (fun _ => ?_) fun hparen => ?_
      · refine runs_callArguments (hg.upTo (hbefore.upTo.trans hυ)) fun es χ ω hχ hes => ?_
        exact Runs.pure (.languageCall hname hresolved ((hbefore.trans hυ).trans hχ.upTo) hes
          ω.upTo_tail)
      · cases names.getLast? with
        | none => exact Runs.unexpected _
        -- The chain has been read up to its end, and no call begins there.
        | some name =>
            exact Runs.pure (.qualified hname hresolved (hparen ∘ hcalls.1) (hbefore.trans hυ))

/-- A name that stands for itself. -/
theorem runs_identifier (hname : τ.head.kind = .identifier) (hcalls : ¬τ.tail.Calls) :
    Runs env short τ identifier fun e υ => Derives env τ (.suffixed e) υ :=
  Runs.consume (Runs.pure (.name hname hcalls))

/-- A name alone, a call of it, or a chain that it begins. -/
theorem runs_reference (hg : Covers env short τ g) (hname : isMemberName τ.head.kind = true) :
    Runs env short τ (reference g) fun e υ => Derives env τ (.suffixed e) υ := by
  have hplain : τ.head.kind ≠ .language → τ.head.kind = .identifier := by
    intro htag
    simpa [isMemberName, htag] using hname
  refine Runs.current (Runs.languages (Runs.peekKind 1 ?_))
  split
  · refine Runs.ite (fun _ => runs_guestChain hg hname) fun hguest => ?_
    rw [Bool.or_eq_true, not_or, decide_eq_true_eq] at hguest
    refine runs_chainEndsInCall fun b hb => Runs.ite (fun _ => Runs.throw nofun) fun hcalls => ?_
    exact runs_identifier (hplain hguest.1) (hcalls ∘ hb.2)
  · rename_i next hdot
    refine Runs.ite (fun hcall => ?_) fun hcall => Runs.ite (fun _ => ?_) fun htag => ?_
    · rw [Bool.and_eq_true, decide_eq_true_eq, decide_eq_true_eq] at hcall
      have hbefore := Tape.before_tail hcall.2 (by decide)
      refine Runs.consume (runs_callArguments (hg.upTo τ.upTo_tail) fun es χ ω hχ hes => ?_)
      exact Runs.pure (.builtinCall hcall.2 hcall.1 (hbefore.trans hχ.upTo) hes ω.upTo_tail)
    · exact Runs.consume (Runs.unexpected _)
    -- A plain name, with nothing behind it that would make it a call.
    · refine runs_identifier (hplain htag) fun hcalls => ?_
      rcases hcalls.head with hparen | hdot'
      · exact hcall (by simp [show (τ.token 1).kind = .leftParen from hparen, hplain htag])
      · exact hdot hdot'

/-! ### Bit strings -/

theorem runs_grouped (hg : Covers env short τ g) :
    Runs env short τ (grouped g) fun e υ => Derives env τ (.suffixed e) υ := by
  refine Runs.expect fun hkind => Runs.skipNewlines fun k _ => ?_
  have hbefore := (Tape.before_tail hkind (by decide)).trans (τ.tail.upTo_drop k)
  refine (hg.expression hbefore).bind fun e υ he => Runs.skipNewlines fun l _ => ?_
  exact Runs.expectClosing fun _ => Runs.pure
    (.grouped hkind hbefore he ((υ.upTo_drop l).trans (υ.drop l).upTo_tail))

/-- In a pattern a plain name need not stand for itself. -/
theorem runs_segmentValue (hg : Covers env short τ g) (inPattern : Bool) :
    Runs env short τ (segmentValue g inPattern)
      fun e υ => Derives env τ (.value inPattern e) υ := by
  have hliteral : Runs env short τ literal fun e υ => Derives env τ (.value inPattern e) υ :=
    Runs.literal fun e he => .value (.literal he)
  -- A name that something follows is a reference, also in a pattern.
  have hreference (hname : isMemberName τ.head.kind = true) :
      Runs env short τ (reference g) fun e υ => Derives env τ (.value inPattern e) υ :=
    (runs_reference hg hname).imp fun e υ he => .value he
  -- The kind of the first token settles what the value is.
  refine Runs.current ?_
  split
  · exact hliteral
  · exact hliteral
  · rename_i hkind
    refine Runs.peekKind 1 (Runs.ite (fun _ => ?_) fun _ => Runs.throw nofun)
    exact Runs.consume ((Runs.literal fun e he => .negative hkind he).bind
      fun e υ he => Runs.pure he)
  · rename_i hkind
    have hname : isMemberName τ.head.kind = true := by rw [hkind]; rfl
    cases inPattern with
    | false => exact hreference hname
    | true => exact Runs.peekKind 1 (Runs.ite (fun _ => hreference hname) fun _ =>
        Runs.consume (Runs.pure (.segmentName hkind)))
  · rename_i hkind
    exact hreference (by rw [hkind]; rfl)
  · exact (runs_grouped hg).imp fun e υ he => .value he
  · rename_i hkind
    cases inPattern with
    | false => exact Runs.throw nofun
    | true => exact Runs.consume (Runs.pure (.underscore hkind))
  · exact Runs.throw nofun

theorem runs_segmentSize (hg : Covers env short τ g) :
    Runs env short τ (segmentSize g) fun e υ => Derives env τ (.suffixed e) υ := by
  refine Runs.current ?_
  split
  · exact Runs.literal fun e he => .literal he
  · rename_i hkind
    exact runs_reference hg (by rw [hkind]; rfl)
  · rename_i hkind
    exact runs_reference hg (by rw [hkind]; rfl)
  · exact runs_grouped hg
  · exact Runs.throw nofun

/-- Sizes are read on a tape of their own. -/
theorem runs_sizeClause (hg : Covers env short τ g) :
    Runs env short τ (sizeClause g) fun size υ => Derives env τ (.size size) υ := by
  refine Runs.ite_check (fun hcolon => Runs.consume ?_) fun _ => Runs.pure .noSize
  have hbefore := Tape.before_tail hcolon (by decide)
  refine (Runs.inSizeMode fun υ hυ => ?_).bind fun e υ he => Runs.pure he
  have hstart : τ.Before υ := hbefore.trans hυ
  exact (runs_segmentSize (hg.upTo hstart.upTo)).imp fun e χ he ω hω => .size hstart he hω

/-- Specifiers take their names and dashes and are no trees, so only the tokens that they take
    are told. -/
theorem runs_specifierList (start : List String) :
    Runs env short τ (specifierList start) fun _ υ => τ.UpTo υ := by
  refine Runs.loop (I := fun _ υ => τ.UpTo υ) (.refl τ) fun acc υ hυ => ?_
  have hrest (names : List String) {χ : Tape env.source} (hχ : υ.Before χ) :
      Runs env short χ (check .minus >>= fun minus =>
        if minus = true then consume >>= fun _ => pure (Sum.inl (acc ++ names))
        else pure (Sum.inr (acc ++ names)))
        (Sum.elim (fun _ ω => υ.Before ω ∧ τ.UpTo ω) fun _ ω => τ.UpTo ω) := by
    refine Runs.ite_check (fun _ => Runs.consume (Runs.pure ?_)) fun _ =>
      Runs.pure (hυ.before hχ).upTo
    have hnext := hχ.trans χ.upTo_tail
    exact ⟨hnext, (hυ.before hnext).upTo⟩
  refine Runs.expect fun hname => ?_
  have hafter : υ.Before υ.tail := Tape.before_tail hname (by decide)
  refine Runs.ite_check (fun _ => Runs.consume (Runs.current (Runs.ite (fun _ => Runs.consume ?_)
    fun _ => ?_))) fun _ => hrest _ hafter
  · exact hrest _ ((hafter.trans υ.tail.upTo_tail).trans (Tape.upTo_tail _))
  · exact Runs.bind (R := fun _ _ => False) (Runs.throw nofun) fun _ _ h => h.elim

theorem runs_specifierLists : Runs env short τ specifierLists fun _ υ => τ.UpTo υ := by
  refine Runs.loop (I := fun _ υ => τ.UpTo υ) (.refl τ) fun names υ hυ => ?_
  refine Runs.ite_check (fun hslash => Runs.consume ?_) fun _ => Runs.pure hυ
  refine (runs_specifierList names).bind fun names' χ hχ => Runs.pure ?_
  have hnext := (Tape.before_tail hslash (by decide)).trans hχ
  exact ⟨hnext, (hυ.before hnext).upTo⟩

/-- A segment is added to those before it. -/
theorem runs_segment (hg : Covers env short υ g) {inPattern : Bool} {ss : List BitSegment}
    (hss : Derives env τ (.segments inPattern ss) υ) :
    Runs env short υ (segment g inPattern) fun s ω => υ.Before ω ∧ ∀ ρ, ω.UpTo ρ →
      Derives env τ (.segments inPattern (ss ++ [s])) ρ := by
  refine (runs_segmentValue hg inPattern).bind fun e χ he => ?_
  have hbefore : υ.Before χ := he.advances
  refine (runs_sizeClause (hg.upTo hbefore.upTo)).bind fun size ψ hsize => ?_
  refine runs_specifierLists.bind fun names ω hω => Runs.pure ⟨?_, fun ρ hρ => ?_⟩
  · exact (hbefore.trans hsize.advances).trans hω
  · exact .segments hss he hsize (hω.trans hρ)

/-- Segments, one for each round of the loop, up to the closing bracket. -/
theorem runs_segmentList (hg : Covers env short τ g) (inPattern : Bool) :
    Runs env short τ (segmentList g inPattern)
      fun ss υ => Derives env τ (.segments inPattern ss) υ := by
  refine Runs.skipNewlines fun k _ => ?_
  refine Runs.ite_check (fun _ => Runs.pure (.noSegments (τ.upTo_drop k))) fun _ => ?_
  refine Runs.loop (I := fun ss υ => τ.UpTo υ ∧ Derives env τ (.segments inPattern ss) υ)
    ⟨τ.upTo_drop k, .noSegments (τ.upTo_drop k)⟩ ?_
  rintro ss υ ⟨hυ, hss⟩
  refine (runs_segment (hg.upTo hυ) hss).bind ?_
  rintro s χ ⟨hbefore, hmore⟩
  refine Runs.skipNewlines fun l _ => Runs.ite_check (fun _ => ?_) fun _ =>
    Runs.pure (hmore _ (χ.upTo_drop l))
  refine Runs.consume (Runs.skipNewlines fun m _ => Runs.ite_check (fun _ => Runs.unexpected _)
    fun _ => Runs.pure ?_)
  have hnext : χ.UpTo ((χ.drop l).tail.drop m) :=
    ((χ.upTo_drop l).trans (χ.drop l).upTo_tail).trans ((χ.drop l).tail.upTo_drop m)
  exact ⟨hbefore.trans hnext, (hυ.before (hbefore.trans hnext)).upTo, hmore _ hnext⟩

/-- A bit string and what is done with it behind its closing bracket. Expressions and patterns
    share this rule. -/
theorem runs_bitstring (hg : Covers env short τ g) {inPattern : Bool}
    {f : List BitSegment × Position → Parse α}
    (h : ∀ ss (υ χ : Tape env.source), τ.head.kind = .bitOpen → τ.Before υ →
      Derives env υ (.segments inPattern ss) χ →
      Runs env short χ.tail (f (ss, τ.head.position)) Q) :
    Runs env short τ (bitstring g inPattern >>= f) Q := by
  refine Runs.bind (R := fun r ω => ∃ ss, ∃ υ χ : Tape env.source, τ.head.kind = .bitOpen ∧
    τ.Before υ ∧ Derives env υ (.segments inPattern ss) χ ∧ r = (ss, τ.head.position) ∧
    ω = χ.tail) ?_ ?_
  · refine Runs.expect fun hkind => Runs.nested ?_ hg.guard
    refine (runs_segmentList (hg.upTo τ.upTo_tail) inPattern).bind fun ss χ hss => ?_
    refine Runs.current (Runs.ite (fun _ => Runs.expectClosing fun _ => Runs.pure ?_)
      fun _ => Runs.throw nofun)
    exact ⟨ss, τ.tail, χ, hkind, Tape.before_tail hkind (by decide), hss, rfl, rfl⟩
  · rintro _ _ ⟨ss, υ, χ, hkind, hbefore, hss, rfl, rfl⟩
    exact h ss υ χ hkind hbefore hss

/-! ### Operands -/

theorem runs_arrayLiteral (hg : Covers env short τ g) :
    Runs env short τ (arrayLiteral g) fun e υ => Derives env τ (.suffixed e) υ := by
  refine Runs.expect fun hkind => ?_
  have hbefore := Tape.before_tail hkind (by decide)
  refine (runs_expressions fun υ hυ => hg.expression (hbefore.trans hυ)).bind fun es χ hes => ?_
  exact Runs.expectClosing fun _ => Runs.pure (.array hkind hbefore hes χ.upTo_tail)

theorem objectKey_error {token : Token} {e : ParseError} (h : objectKey token = .error e) :
    ¬e.IsTooDeep := by
  unfold objectKey at h
  split at h
  all_goals cases h
  exact nofun

/-- An entry is added to those before it. -/
theorem runs_objectEntry (hg : Covers env short υ g) {es : List ObjectEntry}
    (hes : Derives env τ (.entries es) υ) :
    Runs env short υ (objectEntry g) fun e ω => υ.Before ω ∧ ∀ ρ, ω.UpTo ρ →
      Derives env τ (.entries (es ++ [e])) ρ := by
  refine Runs.current ?_
  cases hkey : objectKey υ.head with
  | error e => exact Runs.throw (objectKey_error hkey)
  | ok key =>
      refine Runs.consume (Runs.expect fun hcolon => Runs.skipNewlines fun k _ => ?_)
      have hbefore := (υ.upTo_tail.before (Tape.before_tail hcolon (by decide))).trans
        (υ.tail.tail.upTo_drop k)
      refine (hg.expression hbefore).bind fun e χ he => Runs.pure ⟨?_, fun ρ hρ => ?_⟩
      · exact hbefore.trans he.before.upTo
      · exact .entries hes hbefore he hρ

theorem runs_objectLiteral (hg : Covers env short τ g) :
    Runs env short τ (objectLiteral g) fun e υ => Derives env τ (.suffixed e) υ := by
  refine Runs.expect fun hkind => ?_
  have hbefore := Tape.before_tail hkind (by decide)
  refine Runs.bind (R := fun es υ => Derives env τ.tail (.entries es) υ) ?_ fun es χ hes =>
    Runs.expectClosing fun _ => Runs.pure (.object hkind hbefore hes χ.upTo_tail)
  refine Runs.commaList (fun υ hυ => .noEntries hυ) fun es υ hυ hes => ?_
  exact (runs_objectEntry (hg.upTo (hbefore.trans hυ).upTo) hes).bind fun e χ he => Runs.pure he

/-- An operand without suffixes, by its first token. -/
theorem runs_primary (hg : Covers env short τ g) :
    Runs env short τ (primary g) fun e υ => Derives env τ (.suffixed e) υ := by
  have hliteral : Runs env short τ literal fun e υ => Derives env τ (.suffixed e) υ :=
    Runs.literal fun e he => .literal he
  have hreference (hname : isMemberName τ.head.kind = true) := runs_reference hg hname
  refine Runs.current ?_
  split
  · exact hliteral
  · exact hliteral
  · exact hliteral
  · exact hliteral
  · exact hliteral
  · rename_i hkind
    exact hreference (by rw [hkind]; rfl)
  · rename_i hkind
    exact hreference (by rw [hkind]; rfl)
  · exact runs_grouped hg
  · exact runs_arrayLiteral hg
  · exact runs_objectLiteral hg
  · exact runs_bitstring hg fun ss υ χ hkind hbefore hss =>
      Runs.pure (.bitstring hkind hbefore hss χ.upTo_tail)
  · exact Runs.throw nofun

/-- Behind an operand each round of the loop takes an index or a field and derives a longer
    operand from the one before. -/
theorem runs_suffixes (hg : Covers env short τ g) {e : Expr}
    (he : Derives env τ (.suffixed e) υ) :
    Runs env short υ (suffixes g e) fun e ω => Derives env τ (.suffixed e) ω := by
  refine Runs.loop (I := fun e υ => Derives env τ (.suffixed e) υ) he fun e υ he => ?_
  have hafter : τ.Before υ := he.advances
  refine Runs.peekKind 0 ?_
  split
  · rename_i hkind
    refine Runs.consume (Runs.skipNewlines fun k _ => ?_)
    have hbefore := (Tape.before_tail hkind (by decide)).trans (υ.tail.upTo_drop k)
    refine (hg.expression (hafter.upTo.before hbefore)).bind fun index χ hindex => ?_
    refine Runs.skipNewlines fun l _ => Runs.expectClosing fun _ => Runs.pure ?_
    have hend := (χ.upTo_drop l).trans (χ.drop l).upTo_tail
    exact ⟨(hbefore.trans hindex.before.upTo).trans hend, .index he hbefore hindex hend⟩
  · rename_i hkind
    have hbefore := (Tape.before_tail hkind (by decide)).trans υ.tail.upTo_tail
    refine Runs.consume (runs_memberName fun _ => Runs.ite_check (fun _ => Runs.throw nofun)
      fun _ => Runs.pure ?_)
    exact ⟨hbefore, .fieldAccess he hbefore⟩
  · exact Runs.pure he

theorem UnaryOp.ne_end {kind : Kind} {op : UnaryOp} (h : UnaryOp.ofKind? kind = some op) :
    kind ≠ .endOfInput := by
  rintro rfl
  cases h

theorem runs_operand (hg : Covers env short τ g) :
    Runs env short τ (operand g) fun e υ => Derives env τ (.operand e) υ := by
  refine Runs.peekKind 0 ?_
  cases hop : UnaryOp.ofKind? (τ.token 0).kind with
  | some op =>
      refine Runs.consume (Runs.bind (Runs.nested (hg.operand ?_) hg.guard) ?_)
      · exact Tape.before_tail_of_ne (UnaryOp.ne_end hop)
      · exact fun e υ he => Runs.pure (.unary hop he)
  | none =>
      refine (runs_primary hg).bind fun e υ he => ?_
      exact (runs_suffixes hg he).imp fun e ω he => .suffixed he

/-! ### Operators -/

theorem BinaryOp.ne_end {kind : Kind} {op : BinaryOp} (h : BinaryOp.ofKind? kind = some op) :
    kind ≠ .endOfInput := by
  rintro rfl
  cases h

/-- A chain ends before an operator that binds less tightly. There are levels enough for
    all precedences. -/
theorem runs_binary (levels : Nat) :
    ∀ {least : Nat} {τ : Tape env.source}, Covers env short τ g → 8 ≤ levels + least →
      Runs env short τ (binary g levels least) fun e υ => Derives env τ (.chain least e) υ ∧
        ∀ next, BinaryOp.ofKind? υ.head.kind = some next → next.precedence < least := by
  induction levels with
  -- No operator binds so tightly that it would be met here.
  | zero =>
      intro least τ hg hleast
      refine (runs_operand hg).imp fun e υ he => ⟨.operand he, fun next _ => ?_⟩
      have hprecedence := next.precedence_le
      omega
  | succ levels ih =>
      intro least τ hg hleast
      refine (runs_operand hg).bind fun e υ he => ?_
      refine Runs.loop (I := fun e υ => Derives env τ (.chain least e) υ) (.operand he) ?_
      intro left υ hleft
      have hafter : τ.Before υ := hleft.advances
      refine Runs.peekKind 0 ?_
      cases hop : BinaryOp.ofKind? (υ.token 0).kind with
      | none =>
          exact Runs.pure ⟨hleft, fun next hnext => absurd (hnext.symm.trans hop) nofun⟩
      | some op =>
          refine Runs.ite (fun hloose => Runs.pure ⟨hleft, fun next hnext => ?_⟩) fun htight => ?_
          -- An operator that binds less tightly is left to a chain around this one.
          · rw [Option.some.inj (hnext.symm.trans hop)]
            exact hloose
          · refine Runs.consume (Runs.skipNewlines fun k _ => ?_)
            have hbefore : υ.Before (υ.tail.drop k) :=
              Tape.Before.trans (Tape.before_tail_of_ne (BinaryOp.ne_end hop)) (υ.tail.upTo_drop k)
            -- The right operand is a chain with a higher least precedence.
            refine (ih (hg.upTo (hafter.upTo.trans hbefore.upTo)) (by omega)).bind ?_
            rintro right ω ⟨hright, hnext⟩
            have hend : υ.Before ω := hbefore.trans (Tape.Before.upTo hright.advances)
            refine Runs.pure ⟨hend, .binary hleft hop (Nat.le_of_not_lt htight) hbefore hright ?_⟩
            exact fun next h => Nat.le_of_lt_succ (hnext next h)

theorem runs_operation (hg : Covers env short τ g) :
    Runs env short τ (operation g) fun e υ => Derives env τ (.chain 1 e) υ ∧
      BinaryOp.ofKind? υ.head.kind = none := by
  refine (runs_binary 7 hg (Nat.le_refl 8)).imp fun e υ he => ⟨he.1, ?_⟩
  cases hop : BinaryOp.ofKind? υ.head.kind with
  | none => rfl
  | some op => exact absurd (he.2 op hop) (Nat.not_lt.2 op.precedence_pos)

/-- What follows a condition derives the whole conditional expression, or leaves the condition as
    it is. -/
theorem runs_conditionalTail (hg : Covers env short τ g) {condition : Expr}
    (hcondition : Derives env τ (.chain 1 condition) υ)
    (hop : BinaryOp.ofKind? υ.head.kind = none) :
    Runs env short υ (conditionalTail g condition)
      fun e ω => Derives env τ (.expression e) ω := by
  have hafter : τ.Before υ := hcondition.advances
  refine Runs.ite_check (fun hquestion => ?_) fun _ => Runs.pure (.chain hcondition hop)
  have hmark := Tape.before_tail hquestion (by decide)
  refine Runs.consume (Runs.ite_check (fun _ => ?_) fun _ => ?_)
  -- A colon right behind the mark: what follows is the fallback.
  · refine Runs.consume (Runs.skipNewlines fun k _ => ?_)
    have hbefore := (hmark.trans υ.tail.upTo_tail).trans (υ.tail.tail.upTo_drop k)
    refine (hg.expression (hafter.upTo.before hbefore)).bind fun fallback ω hfallback => ?_
    exact Runs.pure (.elvis hcondition hbefore hfallback)
  -- Otherwise both branches follow, and each is an expression by itself.
  · refine Runs.skipNewlines fun k _ => ?_
    have hbefore := hmark.trans (υ.tail.upTo_drop k)
    refine (hg.expression (hafter.upTo.before hbefore)).bind fun onTrue ψ htrue => ?_
    refine Runs.skipNewlines fun l _ => Runs.expect fun hcolon => Runs.skipNewlines fun m _ => ?_
    have hcolon := ((ψ.upTo_drop l).before (Tape.before_tail hcolon (by decide))).trans
      ((ψ.drop l).tail.upTo_drop m)
    have hmid := (hafter.upTo.before hbefore).upTo.before (htrue.before.trans hcolon.upTo)
    refine (hg.expression hmid).bind fun onFalse ω hfalse => ?_
    exact Runs.pure (.ternary hcondition hbefore htrue hcolon hfalse)

/-- The rule for whole expressions. -/
theorem runs_expression (hg : Covers env short τ g) :
    Runs env short τ (expression g) fun e υ => Derives env τ (.expression e) υ := by
  refine Runs.nested ((runs_operation hg).bind ?_) hg.guard
  rintro condition υ ⟨hcondition, hop⟩
  exact runs_conditionalTail hg hcondition hop

/-! ### Patterns -/

theorem runs_restPattern : Runs env short τ restPattern fun _ υ => τ.UpTo υ := by
  have hrest (name : String) (dots : Position) {υ : Tape env.source} (hυ : τ.UpTo υ) :
      Runs env short υ (check .rightBracket >>= fun closed => if closed = true then pure name else
        throw (.unsupported "rest pattern"
          "'...' may only bind the last element of an array pattern" dots))
        fun _ χ => τ.UpTo χ :=
    Runs.ite_check (fun _ => Runs.pure hυ) fun _ => Runs.throw nofun
  refine Runs.consume (Runs.expect fun _ => Runs.skipNewlines fun k _ => ?_)
  have hname := (τ.upTo_tail.trans τ.tail.upTo_tail).trans (τ.tail.tail.upTo_drop k)
  refine Runs.ite_check (fun _ => Runs.consume (Runs.skipNewlines fun l _ => hrest _ _ ?_))
    fun _ => hrest _ _ hname
  exact (hname.trans (Tape.upTo_tail _)).trans (Tape.upTo_drop _ l)

/-- An array pattern: elements in any number, then perhaps the rest, then the closing bracket. -/
theorem runs_arrayPattern (hg : Covers env short τ g) :
    Runs env short τ (arrayPattern g) fun p υ => DerivesPattern env τ (.pattern p) υ := by
  refine Runs.expect fun hkind => Runs.skipNewlines fun k _ => ?_
  have hbefore := (Tape.before_tail hkind (by decide)).trans (τ.tail.upTo_drop k)
  refine Runs.bind (R := fun (result : ArrayPattern) υ => ∃ χ : Tape env.source, χ.UpTo υ ∧
    DerivesPattern env (τ.tail.drop k) (.elements result.elements) χ) ?_ ?_
  · refine Runs.loop (I := fun ps υ => DerivesPattern env (τ.tail.drop k) (.elements ps) υ)
      (.noElements (.refl _)) fun ps υ hps => ?_
    have hafter : (τ.tail.drop k).UpTo υ := hps.advances
    refine Runs.ite_check (fun _ => Runs.pure ⟨υ, .refl υ, hps⟩) fun _ => ?_
    refine Runs.ite_check (fun _ => ?_) fun _ => ?_
    -- A rest name comes behind the elements and adds none.
    · exact runs_restPattern.bind fun _ ω hω => Runs.pure ⟨υ, hω, hps⟩
    · refine (hg.pattern (hbefore.trans hafter)).bind fun p χ hp => ?_
      refine Runs.skipNewlines fun l _ => Runs.ite_check (fun _ => ?_) fun _ => ?_
      · refine Runs.consume (Runs.skipNewlines fun m _ => Runs.pure ?_)
        have hend := ((χ.upTo_drop l).trans (χ.drop l).upTo_tail).trans
          ((χ.drop l).tail.upTo_drop m)
        exact ⟨hp.before.trans hend, .elements hps hp hend⟩
      · exact Runs.pure ⟨_, .refl _, .elements hps hp (χ.upTo_drop l)⟩
  · rintro ⟨elements, rest⟩ υ ⟨χ, hχ, helements⟩
    exact Runs.expectClosing fun _ => Runs.pure
      (.array hkind hbefore helements (hχ.trans υ.upTo_tail))

/-- A field is added to those before it. -/
theorem runs_patternField (hg : Covers env short υ g) {fs : List PatternField}
    (hfs : DerivesPattern env τ (.fields fs) υ) :
    Runs env short υ (patternField g fs) fun fs ω => υ.Before ω ∧ ∀ ρ, ω.UpTo ρ →
      DerivesPattern env τ (.fields fs) ρ := by
  refine Runs.current (Runs.ite (fun _ => ?_) fun _ => Runs.throw nofun)
  refine Runs.consume (Runs.expect fun hcolon => Runs.skipNewlines fun k _ => ?_)
  have hbefore := (υ.upTo_tail.before (Tape.before_tail hcolon (by decide))).trans
    (υ.tail.tail.upTo_drop k)
  refine (hg.pattern hbefore).bind fun p ψ hp => ?_
  cases hinsert : PatternField.insert? υ.head.text p fs with
  | none => exact Runs.throw nofun
  | some fs' =>
      exact Runs.pure ⟨hbefore.trans hp.before.upTo, fun ρ hρ => .fields hfs hbefore hp hinsert hρ⟩

theorem runs_objectPattern (hg : Covers env short τ g) :
    Runs env short τ (objectPattern g) fun p υ => DerivesPattern env τ (.pattern p) υ := by
  refine Runs.expect fun hkind => ?_
  have hbefore := Tape.before_tail hkind (by decide)
  refine Runs.bind (R := fun fs υ => DerivesPattern env τ.tail (.fields fs) υ) ?_ fun fs χ hfs =>
    Runs.expectClosing fun _ => Runs.pure (.object hkind hbefore hfs χ.upTo_tail)
  exact Runs.commaList (fun υ hυ => .noFields hυ) fun fs υ hυ hfs =>
    runs_patternField (hg.upTo (hbefore.trans hυ).upTo) hfs

/-- The rule for patterns. -/
theorem runs_pattern (hg : Covers env short τ g) :
    Runs env short τ (pattern g) fun p υ => DerivesPattern env τ (.pattern p) υ := by
  -- The literal is made into a pattern by its value, so what is kept of it is the token.
  have hliteral : Runs env short τ (do
      let value ← literal
      return .literal (normalizeLiteral value) τ.head.position)
      fun p υ => DerivesPattern env τ (.pattern p) υ := by
    refine Runs.bind (R := fun e υ => literalOf env.source τ.head = .ok e ∧ υ = τ.tail)
      (Runs.literal fun e he => ⟨he, rfl⟩) ?_
    rintro e _ ⟨he, rfl⟩
    exact Runs.pure (.literal he)
  refine Runs.nested (Runs.current ?_) hg.guard
  -- The kind of the first token settles what the pattern is.
  split
  · exact hliteral
  · exact hliteral
  · exact hliteral
  · exact hliteral
  · exact hliteral
  · rename_i hkind
    refine Runs.peekKind 1 (Runs.ite (fun hnumber => Runs.consume ?_) fun _ => Runs.throw nofun)
    refine Runs.bind (R := fun e υ => literalOf env.source τ.tail.head = .ok e ∧ υ = τ.tail.tail)
      (Runs.literal fun e he => ⟨he, rfl⟩) ?_
    rintro e _ ⟨he, rfl⟩
    exact Runs.pure (.negative hkind hnumber he)
  · rename_i hkind
    exact Runs.consume (Runs.pure (.wildcard hkind))
  · rename_i hkind
    exact Runs.consume (Runs.pure (.capture hkind))
  · exact runs_arrayPattern hg
  · exact runs_objectPattern hg
  · exact runs_bitstring hg fun ss υ χ hkind hbefore hss =>
      Runs.pure (.bitstring hkind hbefore hss χ.upTo_tail)
  · exact Runs.throw nofun

end Parse

end PolyScript
