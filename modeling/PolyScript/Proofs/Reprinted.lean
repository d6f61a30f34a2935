import PolyScript.Proofs.PiecesReadBack
import PolyScript.Proofs.Precedence

/-!
# Printed Constructs Are Read Back

One case for each construct of the grammar: what is printed for it is read back by the rule
that yielded it, provided that its parts are read back where they stand.

## Main definitions

* `Parse.Speaks`: A canonical name of a guest language.
* `Parse.RegainsOperation`: Where an expression with an operator is read back.

## Theorems

* `Parse.regains_grouped`, `Parse.regains_array`, `Parse.regains_builtinCall`,
  `Parse.regains_languageCall`, `Parse.regains_qualified`: Operands without suffixes.
* `Parse.regainsSuffixed_index`, `Parse.regainsSuffixed_fieldAccess`: Suffixes.
* `Parse.regains_unary`, `Parse.regainsOperation_binary`: Operators.
* `Parse.regains_ternary`, `Parse.regains_elvis`: Conditional tails.
-/

namespace PolyScript

namespace Parse

open Lexer (Suited memberPieces)

variable {P : Parser} {env : Env} {depth n : Nat} {m m' m'' : Bool} {ps qs rs us vs : List Piece}
  {p q : Piece} {r : Nat} {e : Expr} {position : Position}

theorem ReprintsBy.begins {rule : Grammar → Parse Expr} {Follow : List Piece → Prop}
    (h : ReprintsBy rule Follow P depth e m ps m') : Begins m ps := h.printsAs.heads.begins

theorem ne_end_of_begins {kind : Kind} (h : beginsExpression kind = true) :
    kind ≠ .endOfInput := by
  rintro rfl
  cases h

/-! ### Operands without suffixes -/

/-- An expression in parentheses is read back with them. -/
theorem regains_grouped (h : Reprints P depth e m ps m') (Follow : List Piece → Prop) :
    Regains P depth m (.grouped e position)
      (.mark .leftParen "(" :: (ps ++ [Piece.mark .rightParen ")"])) m' grouped Follow := by
  intro source n us hn _
  simp only [List.length_cons, List.length_append] at hn
  simp only [List.cons_append, List.append_assoc, List.nil_append]
  refine (consumes_expect (Piece.suits_mark _ _ _) rfl (by decide)).bind fun opening _ => ?_
  refine (h.begins.append _).skipNewlines.bind fun _ _ => ?_
  refine (h.regains.expression source (by omega) (ceases_mark rfl us)).bind fun a ha => ?_
  refine (consumes_skipNewlines (Piece.suits_mark _ _ _) (by decide)).bind fun _ _ => ?_
  refine (consumes_expectClosing opening (Piece.suits_mark _ _ _) rfl (by decide)).bind
    fun _ _ => consumes_pure ?_
  rw [SameSkeleton, Expr.skeleton, Expr.skeleton, ha]

/-- The items of a list are no longer than the list. -/
theorem Listed.bounded {α : Type} {R : α → Bool → List Piece → Bool → Prop} {as : List α}
    (h : Listed R as m ps m') :
    Listed (fun a m qs m' => R a m qs m' ∧ qs.length ≤ ps.length) as m ps m' :=
  h.imp fun _ _ _ _ hle ha => ⟨ha, hle⟩

/-- An array is read back from its brackets and what its elements are printed as. What follows
    does not matter behind the closing bracket. -/
theorem regains_array {es : List Expr} (h : Listed (Reprints P depth) es m ps m')
    (Follow : List Piece → Prop) :
    Regains P depth m (.array es position)
      (.mark .leftBracket "[" :: (ps ++ [Piece.mark .rightBracket "]"])) m' arrayLiteral
      Follow := by
  intro source n us hn _
  simp only [List.length_cons, List.length_append] at hn
  simp only [List.cons_append, List.append_assoc, List.nil_append]
  refine (consumes_expect (Piece.suits_mark _ _ _) rfl (by decide)).bind fun opening _ => ?_
  refine (consumes_expressions (.inl rfl) (Listed.bounded h) (fun e m qs m' he => he.1.begins)
    fun e m qs m' vs he hvs => ?_).bind fun acc hacc => ?_
  · exact he.1.regains.expression source (by have := he.2; omega) (hvs.ceases (.inl rfl))
  refine (consumes_expectClosing opening (Piece.suits_mark _ _ _) rfl (by decide)).bind
    fun _ _ => consumes_pure ?_
  rw [SameSkeleton, Expr.skeleton, Expr.skeleton, hacc]

theorem consumes_peekAny (n : Nat) :
    Consumes env depth m ps m ps (peekKind n) fun _ => True :=
  fun s hs => ⟨_, _, peekKind_run n env s, trivial, hs.reads ⟨_, rfl⟩⟩

/-- A name or a literal alone is taken directly where it is an argument. -/
theorem consumes_argument_alone (hp : p.Suits m) (hatom : IsAtom e p.word)
    (hus : EndsListed .rightParen us) (g : Grammar) :
    Consumes env depth m (p :: us) m us (argument g) (SameSkeleton e) := by
  rcases hus with ⟨q, vs, rfl, hq, hkind⟩
  have hproper : p.kind ≠ .endOfInput := by
    rcases (Heads.alone hp hatom).begins with ⟨_, _, heq, -, hbegins⟩
    cases heq
    exact ne_end_of_begins hbegins
  refine (consumes_peekNext hp hproper (suits_of_mode hq m)).bind ?_
  rintro _ rfl
  refine (consumes_peekKind hp).bind ?_
  rintro _ rfl
  -- What follows ends an argument, so the name or literal is taken as it is.
  have halone : (decide (q.kind = .comma) || decide (q.kind = .rightParen) ||
      decide (q.kind = .newline)) = true := by
    rcases hkind with hkind | hkind <;> simp [hkind]
  rw [halone]
  rcases hatom with ⟨name, position, rfl, hword⟩ | hliteral
  · have hidentifier : p.kind = .identifier := by rw [Piece.kind, hword]; rfl
    rw [hidentifier]
    exact consumes_identifier hp hproper (by rw [hword]; rfl)
  · have hkind : p.kind.isLiteral = true := by
      rw [Piece.kind]
      generalize p.word = w at hliteral
      cases hliteral <;> rfl
    rw [hkind]
    exact consumes_literal hliteral hp

/-- An argument is printed as pieces and read back from them. -/
structure ReprintsArgument (P : Parser) (depth : Nat) (e : Expr) (m : Bool) (ps : List Piece)
    (m' : Bool) : Prop where
  printsAs : PrintsAs m e ps m'
  regains : ∀ source n us, ps.length < n → EndsListed .rightParen us →
    Consumes (P.env source) depth m (ps ++ us) m' us (argument (Grammar.level P.registry n))
      (SameSkeleton e)

theorem reprintsArgument_alone (h : PrintsAs m e [p] m) (hp : p.Suits m)
    (hatom : IsAtom e p.word) : ReprintsArgument P depth e m [p] m :=
  ⟨h, fun _ _ _ _ hus => consumes_argument_alone hp hatom hus _⟩

/-- An argument of a call is read as an expression, also if it is taken directly. -/
theorem ReprintsBy.argument (h : Reprints P depth e m ps m') :
    ReprintsArgument P depth e m ps m' := by
  refine ⟨h.printsAs, fun source n us hn hus => ?_⟩
  have hread := h.regains.expression source hn (hus.ceases (.inr rfl))
  generalize hheads : ps = all at hread
  have hbegins := h.printsAs.heads
  rw [hheads] at hbegins
  cases hbegins with
  | alone hp hatom => exact consumes_argument_alone hp hatom hus _
  | @joined p ws _ hsuits hkind hjoined =>
      -- Either the first piece is nothing that could stand alone, or the second one goes on.
      rcases hjoined with ⟨hname, hliteral⟩ | ⟨q, xs, rfl, hq, hends⟩
      · refine (consumes_peekAny 1).bind fun next _ => (consumes_peekKind hsuits).bind ?_
        rintro _ rfl
        simpa [hname, hliteral] using hread
      · refine (consumes_peekNext hsuits (ne_end_of_begins hkind) (suits_of_mode hq m)).bind ?_
        rintro _ rfl
        refine (consumes_peekKind hsuits).bind ?_
        rintro _ rfl
        change (decide (q.kind = .comma) || decide (q.kind = .rightParen) ||
          decide (q.kind = .newline)) = false at hends
        rw [hends]
        exact hread

/-- The arguments of a call are read back from their pieces in parentheses. -/
theorem consumes_callArguments {es : List Expr}
    (h : Listed (ReprintsArgument P depth) es m ps m')
    (source : String) (hn : ps.length < n) :
    Consumes (P.env source) depth m
      (.mark .leftParen "(" :: (ps ++ Piece.mark .rightParen ")" :: us)) m' us
      (callArguments (Grammar.level P.registry n))
      fun acc => skeletonExprs true acc = skeletonExprs true es := by
  refine (consumes_expect (Piece.suits_mark _ _ _) rfl (by decide)).bind fun opening _ => ?_
  refine (consumes_expressions (.inr rfl) (Listed.bounded h)
    (fun e m qs m' he => he.1.printsAs.heads.begins) fun e m qs m' vs he hvs => ?_).bind
      fun acc hacc => ?_
  · exact he.1.regains source n vs (by have := he.2; omega) hvs
  exact (consumes_expectClosing opening (Piece.suits_mark _ _ _) rfl (by decide)).bind
    fun _ _ => consumes_pure hacc

/-- A call is read back from its name and its arguments, in parentheses. The name is not that of
    a language, so the rule for plain names reads it. -/
theorem regains_builtinCall {name : String} {es : List Expr}
    (hkind : Kind.ofWord name = .identifier) (hforeign : P.languages.isLanguage name = false)
    (h : Listed (ReprintsArgument P depth) es m ps m') (Follow : List Piece → Prop) :
    Regains P depth m (.builtinCall name es position)
      (.name m name :: .mark .leftParen "(" :: (ps ++ [Piece.mark .rightParen ")"])) m' reference
      Follow := by
  intro source n us hn _
  simp only [List.length_cons, List.length_append] at hn
  simp only [List.cons_append, List.append_assoc, List.nil_append]
  have hsuits := Piece.suits_name m name
  have hproper : (Piece.name m name).kind ≠ .endOfInput := (Lexer.ofWord_proper name).1
  refine (consumes_current hsuits).bind fun head hhead => ?_
  have hidentifier : head.kind = .identifier := hhead.kind.trans hkind
  have htext : head.text = name := hhead.text
  refine consumes_languages.bind ?_
  rintro _ rfl
  -- The name is no tag, neither as a word nor in the table.
  rw [hidentifier, htext, show (P.env source).languages.isLanguage name = false from hforeign]
  refine (consumes_peekNext hsuits hproper (Piece.suits_mark _ _ _)).bind ?_
  rintro _ rfl
  refine (consumes_consume hsuits hproper).bind fun callee hcallee => ?_
  have hname : callee.text = name := hcallee.text
  refine (consumes_callArguments h source (by omega)).bind fun acc hacc => consumes_pure ?_
  rw [SameSkeleton, Expr.skeleton, Expr.skeleton, hacc, hname]

/-- A name that stands for a guest language by that name. -/
structure Speaks (P : Parser) (name : String) : Prop where
  kind : Kind.ofWord name = .language
  resolve? : P.languages.resolve? name = some name

theorem Speaks.resolveAt {language : String} (h : Speaks P language) (source : String)
    (p : Position) : (P.env source).languages.resolveAt language p = .ok language := by
  change P.languages.resolveAt language p = _
  rw [LanguageTable.resolveAt, h.resolve?]

/-- A chain behind a language tag is a guest chain. -/
theorem consumes_guest {language : String} {names : List String} {V : Expr → Prop}
    (hlanguage : Speaks P language) (hne : names ≠ []) (source : String)
    (h : Consumes (P.env source) depth m (.name m language :: (memberPieces m names ++ us)) m' vs
      (guestChain (Grammar.level P.registry n)) V) :
    Consumes (P.env source) depth m (.name m language :: (memberPieces m names ++ us)) m' vs
      (reference (Grammar.level P.registry n)) V := by
  have hsuits := Piece.suits_name m language
  have hproper : (Piece.name m language).kind ≠ .endOfInput := (Lexer.ofWord_proper language).1
  -- There is a name at least, so a dot follows the tag.
  obtain ⟨name, names, rfl⟩ : ∃ n ns, names = n :: ns := by
    cases names with
    | nil => exact absurd rfl hne
    | cons name names => exact ⟨name, names, rfl⟩
  rw [memberPieces, List.flatMap_cons, ← memberPieces] at h ⊢
  refine (consumes_current hsuits).bind fun head hhead => ?_
  have htag : head.kind = .language := hhead.kind.trans hlanguage.kind
  refine consumes_languages.bind ?_
  rintro _ rfl
  rw [htag]
  refine (consumes_peekNext hsuits hproper (Piece.suits_mark _ _ _)).bind ?_
  rintro _ rfl
  exact h

/-- A call of a language is read back from its path and its arguments. The parenthesis behind the
    last name is what makes it a call. -/
theorem regains_languageCall {language : String} {names : List String} {es : List Expr}
    (hlanguage : Speaks P language) (hne : names ≠ [])
    (hnames : ∀ name ∈ names, isMemberName (Kind.ofWord name) = true)
    (h : Listed (ReprintsArgument P depth) es m ps m') (Follow : List Piece → Prop) :
    Regains P depth m (.languageCall language (String.intercalate "." names) es position)
      (.name m language :: (memberPieces m names ++
        Piece.mark .leftParen "(" :: (ps ++ [Piece.mark .rightParen ")"]))) m' reference
      Follow := by
  intro source n us hn _
  simp only [List.length_cons, List.length_append] at hn
  simp only [List.cons_append, List.append_assoc, List.nil_append]
  refine consumes_guest hlanguage hne source ?_
  refine (consumes_consume (Piece.suits_name m language)
    (Lexer.ofWord_proper language).1).bind fun head hhead => ?_
  have htext : head.text = language := hhead.text
  refine consumes_languages.bind ?_
  rintro _ rfl
  rw [htext, hlanguage.resolveAt]
  refine (consumes_segments hnames (Piece.suits_mark _ _ _) (by decide)).bind ?_
  rintro _ rfl
  refine .ite_check .leftParen (Piece.suits_mark _ _ _) (fun _ => ?_) fun hne => absurd rfl hne
  refine (consumes_callArguments h source (by omega)).bind fun acc hacc => consumes_pure ?_
  rw [SameSkeleton, Expr.skeleton, Expr.skeleton, hacc]

/-- A qualified name is read back if what follows neither prolongs the path nor makes it a
    call. -/
theorem regains_qualified {language name : String} {path : List String}
    (hlanguage : Speaks P language)
    (hnames : ∀ n ∈ path ++ [name], isMemberName (Kind.ofWord n) = true) :
    Regains P depth m (.qualified language path name position)
      (.name m language :: memberPieces m (path ++ [name])) m reference
      (Unjoined (.qualified language path name position) m) := by
  intro source n us _ hus
  rcases hus.1.head with ⟨q, vs, rfl, hq, hcall⟩
  -- No dot follows the last name, so the chain ends there.
  have hdot : q.kind ≠ .dot := hus.2 rfl q rfl
  rw [List.cons_append]
  refine consumes_guest hlanguage (by simp) source ?_
  refine (consumes_consume (Piece.suits_name m language)
    (Lexer.ofWord_proper language).1).bind fun head hhead => ?_
  have htext : head.text = language := hhead.text
  refine consumes_languages.bind ?_
  rintro _ rfl
  rw [htext, hlanguage.resolveAt]
  refine (consumes_segments hnames hq hdot).bind ?_
  rintro _ rfl
  refine .ite_check .leftParen hq (fun heq => absurd heq hcall) fun _ => ?_
  rw [List.getLast?_concat]
  refine consumes_pure ?_
  rw [SameSkeleton, Expr.skeleton, Expr.skeleton, List.dropLast_concat]

/-! ### Rules of operands -/

theorem Regains.primary_grouped {Follow : List Piece → Prop}
    (h : Regains P depth m e (.mark .leftParen "(" :: ps) m' grouped Follow) :
    Regains P depth m e (.mark .leftParen "(" :: ps) m' primary Follow := by
  intro source n us hn hus
  refine (consumes_current (Piece.suits_mark _ _ _)).bind fun t ht => ?_
  rw [ht.kind]
  exact h source n us hn hus

theorem Regains.primary_array {Follow : List Piece → Prop}
    (h : Regains P depth m e (.mark .leftBracket "[" :: ps) m' arrayLiteral Follow) :
    Regains P depth m e (.mark .leftBracket "[" :: ps) m' primary Follow := by
  intro source n us hn hus
  refine (consumes_current (Piece.suits_mark _ _ _)).bind fun t ht => ?_
  rw [ht.kind]
  exact h source n us hn hus

theorem isMemberName_cases {kind : Kind} (h : isMemberName kind = true) :
    kind = .identifier ∨ kind = .language := by
  simpa [isMemberName] using h

theorem Regains.primary_reference {Follow : List Piece → Prop} {name : String}
    (hname : isMemberName (Kind.ofWord name) = true)
    (h : Regains P depth m e (.name m name :: ps) m' reference Follow) :
    Regains P depth m e (.name m name :: ps) m' primary Follow := by
  intro source n us hn hus
  refine (consumes_current (Piece.suits_name m name)).bind fun t ht => ?_
  have hkind : t.kind = Kind.ofWord name := ht.kind
  rw [hkind]
  rcases isMemberName_cases hname with hname | hname
  · rw [hname]
    exact h source n us hn hus
  · rw [hname]
    exact h source n us hn hus

/-! ### Suffixes -/

/-- An index is one round of suffixes more than its host. The expression in brackets is read one
    level down, up to the closing bracket. -/
theorem regainsSuffixed_index {host place : Expr} (hhost : RegainsSuffixed P depth m host ps m')
    (hplace : Reprints P depth place m' qs m'') :
    RegainsSuffixed P depth m (.index host place position)
      (ps ++ Piece.mark .leftBracket "[" :: (qs ++ [Piece.mark .rightBracket "]"])) m'' where
  head := by
    rcases hhost.head with ⟨p, us, rfl, hhead⟩
    exact ⟨p, _, rfl, hhead⟩
  launches := by
    intro source n us hn _
    simp only [List.length_append, List.length_cons] at hn ⊢
    rcases hhost.launches source n (.mark .leftBracket "[" ::
      (qs ++ Piece.mark .rightBracket "]" :: us)) (by omega)
      ⟨.stop (Piece.suits_mark _ _ _) (by decide) (by decide), fun _ q hq hdot => by
        cases hq
        cases hdot⟩ with ⟨k, hk, hlaunches⟩
    -- The host is followed by one more suffix, which takes one more round.
    refine ⟨k + 1, by omega, ?_⟩
    simp only [List.append_assoc, List.cons_append, List.nil_append]
    refine hlaunches.round fun a ha => ?_
    refine (consumes_peekKind (Piece.suits_mark _ _ _)).bind ?_
    rintro _ rfl
    refine (consumes_consume (Piece.suits_mark _ _ _) (by decide)).bind fun opening _ => ?_
    refine (hplace.begins.append _).skipNewlines.bind fun _ _ => ?_
    refine (hplace.regains.expression source (by omega) (ceases_mark rfl us)).bind
      fun b hb => ?_
    refine (consumes_skipNewlines (Piece.suits_mark _ _ _) (by decide)).bind fun _ _ => ?_
    refine (consumes_expectClosing opening (Piece.suits_mark _ _ _) rfl (by decide)).bind
      fun _ _ => consumes_pure ⟨_, rfl, ?_⟩
    rw [SameSkeleton, Expr.skeleton, Expr.skeleton, ha, hb]

/-- A field is one round of suffixes more than its host. The host is no qualified name, since
    that would have taken the field into its path. -/
theorem regainsSuffixed_fieldAccess {host : Expr} {field : String}
    (hmember : isMemberName (Kind.ofWord field) = true)
    (hhost : RegainsSuffixed P depth m host ps m') (hqualified : host.isQualified = false) :
    RegainsSuffixed P depth m (.fieldAccess host field position)
      (ps ++ [Piece.mark .dot ".", .name m' field]) m' where
  head := by
    rcases hhost.head with ⟨p, us, rfl, hhead⟩
    exact ⟨p, _, rfl, hhead⟩
  launches := by
    intro source n us hn hus
    simp only [List.length_append, List.length_cons] at hn ⊢
    have hsuits := Piece.suits_name m' field
    -- To the host the member and what follows it are a chain without a call.
    rcases hhost.launches source n (.mark .dot "." :: .name m' field :: us) (by omega)
      ⟨.member rfl rfl hsuits hmember hus.1, fun htrue => by
        rw [hqualified] at htrue
        cases htrue⟩ with ⟨k, hk, hlaunches⟩
    refine ⟨k + 1, by omega, ?_⟩
    simp only [List.append_assoc, List.cons_append, List.nil_append]
    refine hlaunches.round fun a ha => ?_
    refine (consumes_peekKind (Piece.suits_mark _ _ _)).bind ?_
    rintro _ rfl
    refine (consumes_consume (Piece.suits_mark _ _ _) (by decide)).bind fun _ _ => ?_
    have hname : Consumes (P.env source) depth m' (.name m' field :: us) m' us memberName
        ((Piece.name m' field).word.Names source) := by
      refine (consumes_peekKind hsuits).bind ?_
      rintro _ rfl
      rw [Piece.kind_name, hmember]
      exact consumes_consume hsuits (Lexer.ofWord_proper field).1
    refine hname.bind fun t ht => ?_
    have htext : t.text = field := ht.text
    rcases hus.1.head with ⟨q, vs, rfl, hq, hcall⟩
    refine .ite_check .leftParen hq (fun heq => absurd heq hcall) fun _ =>
      consumes_pure ⟨_, rfl, ?_⟩
    rw [SameSkeleton, Expr.skeleton, Expr.skeleton, ha, htext]

/-! ### Operators -/

/-- A prefix operator is read back in front of its operand, which is one level deeper. -/
theorem regains_unary {op : UnaryOp} (hguard : P.guard.Admits depth)
    (h : Regains P (depth + 1) m e ps m' operand (Ceases 8)) :
    Regains P depth m (.unary op e position) (.mark op.kind op.symbol :: ps) m' operand
      (Ceases 8) := by
  intro source n us hn hus
  have hsuits := Piece.suits_mark op.kind op.symbol m
  refine (consumes_peekKind hsuits).bind ?_
  rintro _ rfl
  rw [Piece.kind_mark, UnaryOp.ofKind?_kind]
  refine (consumes_consume hsuits (by cases op <;> decide)).bind fun t _ => ?_
  have hinner := h.nested Grammar.operand (fun _ => rfl) source
    (Nat.lt_of_succ_le hn) hus
  refine (Consumes.nested hguard hinner).bind fun a ha => consumes_pure ?_
  rw [SameSkeleton, Expr.skeleton, Expr.skeleton, ha]

/-- An expression is read back in every chain of operators that admits its own, and as an
    operand if it has none. -/
structure RegainsOperation (P : Parser) (depth : Nat) (m : Bool) (e : Expr) (ps : List Piece)
    (m' : Bool) : Prop where
  chain : ∀ r, (∀ op ∈ e.operator?, r ≤ op.precedence) → RegainsChain P depth r m e ps m'
  operand : e.operator? = none → Regains P depth m e ps m' operand (Ceases 8)

theorem Regains.operation (h : Regains P depth m e ps m' operand (Ceases 8)) :
    RegainsOperation P depth m e ps m' := ⟨fun _ _ => h.chain, fun _ => h⟩

theorem RegainsOperation.chain_one (h : RegainsOperation P depth m e ps m') :
    RegainsChain P depth 1 m e ps m' := h.chain 1 fun op _ => op.precedence_pos

/-- An operator is one round more than its left side, in every chain that admits it. The right
    side is read where only tighter operators are admitted, which is what the nesting says of
    it. -/
theorem regainsOperation_binary {left right : Expr} {op : BinaryOp}
    (hnested : (Expr.binary left op right position).IsNested)
    (hleft : RegainsOperation P depth m left ps m') (hbegins : Begins m' qs)
    (hright : RegainsOperation P depth m' right qs m'') :
    RegainsOperation P depth m (.binary left op right position)
      (ps ++ Piece.mark op.kind op.symbol :: qs) m'' := by
  rcases hnested with ⟨⟨-, hloose⟩, -, htight⟩
  refine ⟨fun r hr => RegainsChain.mono (r := op.precedence) ?_ (hr op rfl), fun hnone => by
    cases hnone⟩
  intro source n us levels least hn hus hleast hlevels
  simp only [List.length_append, List.length_cons] at hn ⊢
  -- The operator ends the left operand, whose own operators bind no more loosely.
  have hceases : Ceases (op.precedence + 1) (.mark op.kind op.symbol :: (qs ++ us)) :=
    ceases_mark (by cases op <;> rfl) _
  rcases hleft.chain op.precedence hloose source n _ levels least (by omega) hceases hleast
    hlevels with ⟨k, hk, hlaunches⟩
  refine ⟨k + 1, by omega, ?_⟩
  simp only [List.append_assoc, List.cons_append]
  have hsuits := Piece.suits_mark op.kind op.symbol m'
  refine hlaunches.round fun a ha => ?_
  refine (consumes_peekKind hsuits).bind ?_
  rintro _ rfl
  rw [Piece.kind_mark, BinaryOp.ofKind?_kind]
  simp only [Nat.not_lt.2 hleast, if_false]
  refine (consumes_consume hsuits (by cases op <;> decide)).bind fun _ _ => ?_
  refine (hbegins.append _).skipNewlines.bind fun _ _ => ?_
  have hread : Consumes (P.env source) depth m' (qs ++ us) m'' us
      (binary (Grammar.level P.registry n) levels (op.precedence + 1)) (SameSkeleton right) := by
    cases levels with
    | zero =>
        -- No operator binds so tightly that it could be the one of the right operand.
        have hnone : right.operator? = none := by
          cases hop : right.operator? with
          | none => rfl
          | some op' =>
              have hlt := htight op' hop
              have hle := op'.precedence_le
              omega
        exact hright.operand hnone source n us (by omega) hus.operand
    | succ levels =>
        exact (hright.chain (op.precedence + 1) htight).consumes_binary source (by omega) hus
          (Nat.le_refl _) (by omega)
  refine hread.bind fun b hb => consumes_pure ⟨_, rfl, ?_⟩
  rw [SameSkeleton, Expr.skeleton, Expr.skeleton, ha, hb]

theorem RegainsOperation.whole (h : RegainsOperation P (depth + 1) m e ps m')
    (hguard : P.guard.Admits depth) : Regains P depth m e ps m' expression (Ceases 0) :=
  h.chain_one.whole (Nat.le_refl 1) hguard

/-! ### Conditional tails -/

/-- A ternary is read back from its parts. The two branches are expressions of their own, one
    level down, and the condition is a chain of operators. -/
theorem regains_ternary {condition onTrue onFalse : Expr} (hguard : P.guard.Admits depth)
    (hcondition : RegainsOperation P (depth + 1) m condition ps m')
    (htrue : Reprints P (depth + 1) onTrue m' qs m'') {k : Bool}
    (hfalse : Reprints P (depth + 1) onFalse m'' rs k) :
    Regains P depth m (.ternary condition onTrue onFalse position)
      (ps ++ Piece.mark .question "?" :: (qs ++ Piece.mark .colon ":" :: rs)) k expression
      (Ceases 0) := by
  intro source n us hn hus
  simp only [List.length_append, List.length_cons] at hn
  simp only [List.append_assoc, List.cons_append]
  refine .nested hguard ?_
  -- The condition, then the branches, each up to the mark in front of the next.
  refine (hcondition.chain_one.consumes_operation (Nat.le_refl 1) source (by omega)
    (ceases_mark rfl _)).bind fun a ha => ?_
  refine .ite_check .question (Piece.suits_mark _ _ _) (fun _ => ?_) fun hne => absurd rfl hne
  refine (consumes_consume (Piece.suits_mark _ _ _) (by decide)).bind fun _ _ => ?_
  refine (htrue.begins.append _).other_check rfl ?_
  refine (htrue.begins.append _).skipNewlines.bind fun _ _ => ?_
  refine (htrue.regains.expression source (by omega) (ceases_mark rfl _)).bind fun b hb => ?_
  refine (consumes_skipNewlines (Piece.suits_mark _ _ _) (by decide)).bind fun _ _ => ?_
  refine (consumes_expect (Piece.suits_mark _ _ _) rfl (by decide)).bind fun _ _ => ?_
  refine (hfalse.begins.append _).skipNewlines.bind fun _ _ => ?_
  refine (hfalse.regains.expression source (by omega) hus).bind fun c hc => consumes_pure ?_
  rw [SameSkeleton, Expr.skeleton, Expr.skeleton, ha, hb, hc]

/-- A default is read back from its parts, where `?` and `:` are two tokens with nothing between
    them. -/
theorem regains_elvis {condition fallback : Expr} (hguard : P.guard.Admits depth)
    (hcondition : RegainsOperation P (depth + 1) m condition ps m')
    (hfallback : Reprints P (depth + 1) fallback m' qs m'') :
    Regains P depth m (.elvis condition fallback position)
      (ps ++ Piece.mark .question "?" :: .mark .colon ":" :: qs) m'' expression (Ceases 0) := by
  intro source n us hn hus
  simp only [List.length_append, List.length_cons] at hn
  simp only [List.append_assoc, List.cons_append]
  refine .nested hguard ?_
  refine (hcondition.chain_one.consumes_operation (Nat.le_refl 1) source (by omega)
    (ceases_mark rfl _)).bind fun a ha => ?_
  refine .ite_check .question (Piece.suits_mark _ _ _) (fun _ => ?_) fun hne => absurd rfl hne
  refine (consumes_consume (Piece.suits_mark _ _ _) (by decide)).bind fun _ _ => ?_
  refine .ite_check .colon (Piece.suits_mark _ _ _) (fun _ => ?_) fun hne => absurd rfl hne
  refine (consumes_consume (Piece.suits_mark _ _ _) (by decide)).bind fun _ _ => ?_
  refine (hfallback.begins.append _).skipNewlines.bind fun _ _ => ?_
  refine (hfallback.regains.expression source (by omega) hus).bind fun b hb => consumes_pure ?_
  rw [SameSkeleton, Expr.skeleton, Expr.skeleton, ha, hb]

end Parse

end PolyScript
