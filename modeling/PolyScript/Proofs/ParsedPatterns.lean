import PolyScript.Proofs.Positions
import PolyScript.Proofs.Moments
import PolyScript.Proofs.PrintedPatterns

/-!
# What Patterns Are Parsed As

Not every pattern is one that a parser returns. A parsed pattern has plain names, spellings
that are lexemes, integers with their decimal digits, and fields in the order of their keys,
no two of which are equal. It is also no deeper than the guard admits, because a parser
enters one level for each pattern in it.

`Parse.Gives` says of a parser what it leaves and returns if it succeeds. It has a rule for
each of the primitives, and the rules of the pattern grammar follow by one case for each
kind of token. Nothing is said about bit strings but that they leave a sound state, which
is known of all parsers.

## Main definitions

* `Guard.Admits`: Another level can be entered.
* `Parse.Gives`: What a parser that succeeds comes to.
* `PatternField.Sorted`: Fields in the order of their keys.
* `Pattern.Canonical`: A pattern as parsers return it.

## Theorems

* `PatternField.Sorted.insert?`: A field is inserted in its place.
* `Parse.gives_patternRule`: The rule for patterns, given patterns one level deeper.
* `Parse.gives_pattern`: Every level of the grammar returns canonical patterns.
* `Parser.canonical_of_parsePattern`: So does a parser for a whole text.
-/

namespace PolyScript

/-- The guard lets a level be entered that has so many around it. -/
def Guard.Admits (guard : Guard) (depth : Nat) : Prop :=
  ∀ position, guard.enter depth position = .ok (depth + 1)

/-- Where a level is entered makes no difference. -/
theorem Guard.admits_of_enter {guard : Guard} {depth next : Nat} {p : Position}
    (h : guard.enter depth p = .ok next) : guard.Admits depth :=
  Parse.enter_of_below (Parse.enter_ok h).2

namespace Parse

/-! ### What successful parses return -/

/-- From a sound state at a depth, a parser that succeeds leaves such a state and comes to
    a value that has a property. -/
def Gives {α : Type} (env : Env) (depth : Nat) (p : Parse α) (V : α → Prop) : Prop :=
  ∀ s a t, s.Sound env.source → s.depth = depth → p env s = .ok a t →
    t.Sound env.source ∧ t.depth = depth ∧ V a

section

variable {α β : Type} {env : Env} {depth : Nat} {p : Parse α} {V : α → Prop}

theorem gives_pure {a : α} (h : V a) : Gives env depth (pure a) V := by
  intro s b t hs hdepth hrun
  cases hrun
  exact ⟨hs, hdepth, h⟩

theorem gives_throw (e : ParseError) : Gives env depth (throw e : Parse α) V := by
  intro s a t _ _ hrun
  cases hrun

theorem Gives.bind {f : α → Parse β} {W : β → Prop} (h : Gives env depth p V)
    (hf : ∀ a, V a → Gives env depth (f a) W) : Gives env depth (p >>= f) W := by
  intro s b t hs hdepth hrun
  rw [bind_run] at hrun
  cases hfirst : p env s with
  | error e u =>
      rw [hfirst] at hrun
      cases hrun
  | ok a u =>
      rw [hfirst] at hrun
      rcases h s a u hs hdepth hfirst with ⟨hu, hdepth, ha⟩
      exact hf a ha u b t hu hdepth hrun

/-- A parser of which only the state matters. -/
theorem Gives.then {f : α → Parse β} {W : β → Prop} (h : Gives env depth p V)
    (hf : ∀ a, Gives env depth (f a) W) : Gives env depth (p >>= f) W :=
  h.bind fun a _ => hf a

theorem Gives.ite {c : Prop} [Decidable c] {q : Parse α} (hp : c → Gives env depth p V)
    (hq : ¬c → Gives env depth q V) : Gives env depth (if c then p else q) V := by
  split
  · exact hp ‹_›
  · exact hq ‹_›

theorem gives_current : Gives env depth current fun t => t.Form env.source := by
  intro s a t hs hdepth hrun
  cases hrun
  exact ⟨hs.filled, hdepth, hs.token.form⟩

theorem gives_peekKind (n : Nat) : Gives env depth (peekKind n) fun _ => True := by
  intro s a t hs hdepth hrun
  cases hrun
  exact ⟨hs.reads ⟨_, rfl⟩, hdepth, trivial⟩

theorem gives_check (kind : Kind) : Gives env depth (check kind) fun _ => True :=
  (gives_peekKind 0).then fun _ => gives_pure trivial

theorem gives_consume : Gives env depth consume fun t => t.Form env.source := by
  intro s a t hs hdepth hrun
  cases hrun
  exact ⟨hs.advanced, hdepth, hs.token.form⟩

theorem gives_unexpected (expected : String) :
    Gives env depth (unexpected expected : Parse α) V :=
  gives_current.then fun _ => gives_throw _

theorem gives_expect (kind : Kind) :
    Gives env depth (expect kind) fun t => t.Form env.source ∧ t.kind = kind := by
  intro s a t hs hdepth hrun
  rw [expect_run, State.token_filled, State.advanced_filled] at hrun
  split at hrun
  · rename_i hkind
    cases hrun
    exact ⟨hs.advanced, hdepth, hs.token.form, hkind⟩
  · cases hrun

theorem gives_expectClosing (opening : Token) (closer : Kind) :
    Gives env depth (expectClosing opening closer) fun _ => True := by
  intro s a t hs hdepth hrun
  rw [expectClosing_run] at hrun
  split at hrun
  · cases hrun
    exact ⟨hs.advanced, hdepth, trivial⟩
  · cases hrun

/-- One level deeper, where the guard admits that. -/
theorem Gives.nested
    (h : env.guard.Admits depth → Gives env (depth + 1) p V) : Gives env depth (nested p) V := by
  intro s a t hs hdepth hrun
  rcases ok_of_nested hrun with ⟨henter, u, hinner, rfl⟩
  rw [hdepth] at henter hinner
  have hentered : (s.filled.atDepth (depth + 1)).Sound env.source :=
    ⟨hs.filled.1, hs.filled.2, hs.filled.3⟩
  rcases h (Guard.admits_of_enter henter) _ a u hentered rfl hinner with ⟨hu, hudepth, ha⟩
  refine ⟨⟨hu.1, hu.2, hu.3⟩, ?_, ha⟩
  rw [State.atDepth, hudepth]
  rfl

/-- A loop with an invariant yields what its last round does. By induction on the rounds. -/
theorem Gives.loop {step : α → Parse (α ⊕ β)} {I : α → Prop} {W : β → Prop} {start : α}
    (hstart : I start) (h : ∀ a, I a → Gives env depth (step a) (Sum.elim I W)) :
    Gives env depth (loop start step) W := by
  have hiterate : ∀ n a, I a → Gives env depth (iterate step n a) W := by
    intro n
    induction n with
    | zero =>
        intro a _ s b t _ _ hrun
        cases hrun
    | succ n ih =>
        intro a ha
        refine (h a ha).bind fun r hr => ?_
        cases r with
        | inl next => exact ih next hr
        | inr b => exact gives_pure hr
  exact fun s b t hs hdepth hrun => hiterate _ start hstart s b t hs hdepth hrun

theorem gives_skipNewlines : Gives env depth skipNewlines fun _ => True :=
  .loop (I := fun _ => True) trivial fun _ _ => (gives_check .newline).then fun _ =>
    .ite (fun _ => gives_consume.then fun _ => gives_pure trivial) fun _ => gives_pure trivial

theorem gives_skipSeparators : Gives env depth skipSeparators fun _ => True :=
  .loop (I := fun _ => True) trivial fun _ _ => (gives_peekKind 0).then fun _ =>
    .ite (fun _ => gives_consume.then fun _ => gives_pure trivial) fun _ => gives_pure trivial

/-- The items of a list are folded, each of them in turn. -/
theorem Gives.commaList {closer : Kind} {item : α → Parse α} {I : α → Prop} {start : α}
    (hstart : I start) (h : ∀ a, I a → Gives env depth (item a) I) :
    Gives env depth (commaList closer start item) I := by
  refine gives_skipNewlines.then fun _ => .loop (I := I) hstart fun a ha => ?_
  refine (gives_check closer).then fun _ => .ite (fun _ => gives_pure ha) fun _ => ?_
  refine (h a ha).bind fun b hb => gives_skipNewlines.then fun _ => ?_
  refine (gives_check .comma).then fun _ => .ite (fun _ => ?_) fun _ => gives_pure hb
  exact gives_consume.then fun _ => gives_skipNewlines.then fun _ => gives_pure hb

theorem Gives.wholeText (h : Gives env depth p V) : Gives env depth (wholeText p) V :=
  gives_skipSeparators.then fun _ => h.bind fun _ ha => gives_skipSeparators.then fun _ =>
    (gives_check .endOfInput).then fun _ =>
      .ite (fun _ => gives_pure ha) fun _ => gives_unexpected _

/-! ### Literals -/

/-- A literal as it is parsed: a number with its spelling, or another one with its
    lexeme. -/
inductive IsParsedLiteral : Expr → Prop
  | number {value : Number} {raw : String} {p : Position} : Lexer.IsNumeral raw.toList →
    Number.ofText? raw = some value → IsParsedLiteral (.number value raw p)
  | other {e : Expr} {w : Word} : e.isNumber = false → LiteralWord e w → Lexer.IsLexeme w →
    IsParsedLiteral e

/-- A token that is a well-formed number, string or word yields a literal that a text can
    hold. -/
theorem isParsedLiteral_of_form {t : Token} {e : Expr} {source : String} (ht : t.Form source)
    (he : literalOf source t = .ok e) : IsParsedLiteral e := by
  have hword : ∀ word ∈ Kind.reserved.map Prod.fst,
      Lexer.IsLexeme (.verbatim (Kind.ofWord word) word) :=
    fun word hword => Lexer.isLexeme_name (Lexer.isName_reserved word hword)
  unfold literalOf at he
  -- One case for each kind of literal: the words for values are reserved, so they are spelled in
  -- one way.
  split at he
  · rename_i hkind
    split at he
    · rename_i value hvalue
      cases he
      exact .number (ht.isNumeral hkind) hvalue
    · cases he
  · rename_i hkind
    cases he
    rcases ht.lexeme hkind with ⟨raw, hslice, hlexeme⟩
    rw [hslice]
    exact .other rfl .string hlexeme
  · cases he
    exact .other rfl .true (hword "true" (by decide))
  · cases he
    exact .other rfl .false (hword "false" (by decide))
  · cases he
    exact .other rfl .nil (hword "nil" (by decide))
  · cases he

theorem gives_literal : Gives env depth literal IsParsedLiteral := by
  intro s e t hs hdepth hrun
  rw [literal_run] at hrun
  cases hliteral : literalOf env.source s.token with
  | error =>
      rw [hliteral] at hrun
      cases hrun
  | ok value =>
      rw [hliteral] at hrun
      cases hrun
      exact ⟨hs.advanced, hdepth, isParsedLiteral_of_form hs.token.form hliteral⟩

end

end Parse

/-! ### Fields in order -/

namespace PatternField

/-- Fields are sorted by their keys. -/
def Sorted (fields : List PatternField) : Prop := fields.Pairwise fun f g => f.key < g.key

/-- A field goes to its place among fields that are sorted. -/
theorem Sorted.insert? {key : String} {pattern : Pattern} {fields result : List PatternField}
    (hsorted : Sorted fields) (h : insert? key pattern fields = some result) :
    Sorted result := by
  fun_induction PatternField.insert? key pattern fields generalizing result with
  | case1 =>
      cases h
      exact List.pairwise_singleton _ _
  | case2 f rest hlt =>
      cases h
      refine List.pairwise_cons.2 ⟨fun g hg => ?_, hsorted⟩
      -- The new key is below the first one, and so below all of them.
      rcases List.mem_cons.1 hg with rfl | hg
      · exact hlt
      · exact String.lt_trans hlt ((List.pairwise_cons.1 hsorted).1 g hg)
  | case3 => cases h
  | case4 f rest hlt hne ih =>
      rcases Option.map_eq_some_iff.1 h with ⟨inserted, hinserted, rfl⟩
      rcases List.pairwise_cons.1 hsorted with ⟨hfirst, hrest⟩
      refine List.pairwise_cons.2 ⟨fun g hg => ?_, ih hrest hinserted⟩
      -- The new field comes behind the first one, whose key is another and not greater.
      rcases mem_insert? hinserted g hg with rfl | hg
      · by_contra hnot
        exact hne (String.le_antisymm (String.not_lt.1 hnot) (String.not_lt.1 hlt))
      · exact hfirst g hg

end PatternField

/-! ### Patterns as parsers return them -/

/-- A pattern as it is returned by a parser that enters it at a depth: the guard admits its
    levels, integers have their decimal digits, names are names, and fields are sorted by
    their keys. Of bit strings nothing is said. -/
inductive Pattern.Canonical (guard : Guard) : Nat → Pattern → Prop
  | literal {depth : Nat} {e : Expr} {w : Word} {p : Position} : guard.Admits depth →
    Parse.LiteralWord e w → Lexer.IsLexeme w → Parse.normalizeLiteral e = e →
    Canonical guard depth (.literal e p)
  | negated {depth : Nat} {value : Number} {raw : String} {p q r : Position} :
    guard.Admits depth → value.IsNormal raw → value ≠ .integer 0 →
    Canonical guard depth (.literal (Parse.negateLiteral q (.number value raw r)) p)
  | capture {depth : Nat} {name : String} {p : Position} : guard.Admits depth →
    Lexer.IsPlain name → Canonical guard depth (.capture name p)
  | wildcard {depth : Nat} {p : Position} : guard.Admits depth →
    Canonical guard depth (.wildcard p)
  | array {depth : Nat} {elements : List Pattern} {rest : Option String} {p : Position} :
    guard.Admits depth → (∀ e ∈ elements, Canonical guard (depth + 1) e) →
    (∀ name ∈ rest, Lexer.IsPlain name) → Canonical guard depth (.array elements rest p)
  | object {depth : Nat} {fields : List PatternField} {p : Position} : guard.Admits depth →
    PatternField.Sorted fields → (∀ f ∈ fields, Canonical guard (depth + 1) f.pattern) →
    Canonical guard depth (.object fields p)
  | bitstring {depth : Nat} {segments : List BitSegment} {p : Position} :
    Canonical guard depth (.bitstring segments p)

namespace Parse

variable {env : Env} {depth : Nat} {guard : Guard} {e : Expr}

/-- A literal without a sign. -/
theorem IsParsedLiteral.normalize (h : IsParsedLiteral e) (hguard : guard.Admits depth)
    (p : Position) : Pattern.Canonical guard depth (.literal (normalizeLiteral e) p) := by
  cases h with
  | @number value raw q hraw hvalue =>
      rcases Number.exists_normal hraw hvalue q with ⟨raw', heq, hnormal⟩
      rw [heq]
      exact .literal hguard (.number hnormal.ofText?_eq) (Lexer.isLexeme_numeral hnormal.isNumeral)
        (hnormal.normalize q)
  | other hnumber hword hlexeme =>
      have heq : normalizeLiteral e = e := by
        cases hword <;> first | rfl | cases hnumber
      rw [heq]
      exact .literal hguard hword hlexeme heq

/-- A literal behind a sign, which only numbers heed. -/
theorem IsParsedLiteral.negate (h : IsParsedLiteral e) (hguard : guard.Admits depth)
    (p q : Position) :
    Pattern.Canonical guard depth (.literal (negateLiteral q (normalizeLiteral e)) p) := by
  cases h with
  | @number value raw r hraw hvalue =>
      rcases Number.exists_normal hraw hvalue r with ⟨raw', heq, hnormal⟩
      rw [heq]
      -- The integer zero has no sign, so it is printed as if there had been none.
      by_cases hzero : value = .integer 0
      · subst hzero
        exact .literal hguard (.number (Number.ofText?_toString 0))
          (Lexer.isLexeme_numeral (Number.isNumeral_toString 0)) rfl
      · exact .negated hguard hnormal hzero
  | other hnumber hword hlexeme =>
      have heq : normalizeLiteral e = e := by
        cases hword <;> first | rfl | cases hnumber
      have hnegate : negateLiteral q e = e := by
        cases hword <;> first | rfl | cases hnumber
      rw [heq, hnegate]
      exact .literal hguard hword hlexeme heq

/-! ### The rules of patterns -/

/-- The name of the rest is one that a text can hold. -/
theorem gives_restPattern : Gives env depth restPattern Lexer.IsPlain := by
  refine gives_consume.then fun dots => (gives_expect .identifier).bind fun name hname => ?_
  have hlast : Gives env depth (do
      if ← check .rightBracket then return name.text
      else
        throw (.unsupported "rest pattern"
          "'...' may only bind the last element of an array pattern" dots.position))
      Lexer.IsPlain :=
    (gives_check .rightBracket).then fun _ =>
      .ite (fun _ => gives_pure (hname.1.isPlain hname.2)) fun _ => gives_throw _
  refine gives_skipNewlines.then fun _ => (gives_check .comma).then fun _ =>
    .ite (fun _ => ?_) fun _ => hlast
  exact gives_consume.then fun _ => gives_skipNewlines.then fun _ => hlast

section

variable {g : Grammar}
  (hpattern : ∀ depth, Gives env depth g.pattern (Pattern.Canonical env.guard depth))

include hpattern

/-- Array patterns are canonical if their elements are, one level below. Elements are appended in
    the order of the text, and the rest stands last. -/
theorem gives_arrayPattern (hguard : env.guard.Admits depth) :
    Gives env (depth + 1) (arrayPattern g) (Pattern.Canonical env.guard depth) := by
  refine (gives_expect .leftBracket).then fun opening => gives_skipNewlines.then fun _ => ?_
  refine Gives.bind (V := fun result : ArrayPattern =>
    (∀ e ∈ result.elements, Pattern.Canonical env.guard (depth + 1) e) ∧
      ∀ name ∈ result.rest, Lexer.IsPlain name) ?_ fun result hresult =>
        (gives_expectClosing _ _).then fun _ => gives_pure (.array hguard hresult.1 hresult.2)
  refine .loop (I := fun elements => ∀ e ∈ elements, Pattern.Canonical env.guard (depth + 1) e)
    (fun e he => by cases he) fun elements helements => ?_
  refine (gives_check .rightBracket).then fun _ => .ite
    (fun _ => gives_pure ⟨helements, fun _ hname => by cases hname⟩) fun _ => ?_
  refine (gives_check .ellipsis).then fun _ => .ite (fun _ => ?_) fun _ => ?_
  · refine gives_restPattern.bind fun name hname => gives_pure ⟨helements, fun _ hmem => ?_⟩
    cases hmem
    exact hname
  · refine (hpattern (depth + 1)).bind fun e he => gives_skipNewlines.then fun _ => ?_
    have hnext : ∀ x ∈ elements ++ [e], Pattern.Canonical env.guard (depth + 1) x := by
      intro x hx
      rcases List.mem_append.1 hx with hx | hx
      · exact helements x hx
      · rwa [List.mem_singleton.1 hx]
    refine (gives_check .comma).then fun _ => .ite (fun _ => ?_) fun _ =>
      gives_pure ⟨hnext, fun _ hname => by cases hname⟩
    exact gives_consume.then fun _ => gives_skipNewlines.then fun _ => gives_pure hnext

/-- Object patterns are canonical if their fields are. The fields are kept sorted by key, which
    an insertion at the place of the key preserves. -/
theorem gives_objectPattern (hguard : env.guard.Admits depth) :
    Gives env (depth + 1) (objectPattern g) (Pattern.Canonical env.guard depth) := by
  refine (gives_expect .leftBrace).then fun opening => ?_
  refine Gives.bind (V := fun fields => PatternField.Sorted fields ∧
    ∀ f ∈ fields, Pattern.Canonical env.guard (depth + 1) f.pattern) ?_ fun fields hfields =>
      (gives_expectClosing _ _).then fun _ => gives_pure (.object hguard hfields.1 hfields.2)
  refine .commaList ⟨.nil, fun f hf => by cases hf⟩ fun fields hfields => ?_
  refine gives_current.then fun key => .ite (fun _ => ?_) fun _ => gives_throw _
  refine gives_consume.then fun _ => (gives_expect .colon).then fun _ =>
    gives_skipNewlines.then fun _ => (hpattern (depth + 1)).bind fun p hp => ?_
  cases hinsert : PatternField.insert? key.text p fields with
  | none => exact gives_throw _
  | some result =>
      refine gives_pure ⟨hfields.1.insert? hinsert, fun f hf => ?_⟩
      rcases PatternField.mem_insert? hinsert f hf with rfl | hf
      · exact hp
      · exact hfields.2 f hf

/-- The rule for patterns yields canonical ones, whichever token begins them. -/
theorem gives_patternRule
    (hbits : ∀ depth, Gives env depth (bitstring g true) fun _ => True) :
    Gives env depth (pattern g) (Pattern.Canonical env.guard depth) := by
  refine .nested fun hguard => gives_current.bind fun t ht => ?_
  -- All kinds of literals are parsed by the same steps.
  have hliteral : ∀ position, Gives env (depth + 1) (do
      let value ← literal
      return .literal (normalizeLiteral value) position)
      (Pattern.Canonical env.guard depth) := fun position =>
    gives_literal.bind fun value hvalue => gives_pure (hvalue.normalize hguard _)
  cases hkind : t.kind with
  | number | string | kwTrue | kwFalse | kwNil => exact hliteral _
  | minus =>
      refine (gives_peekKind 1).then fun _ => .ite (fun _ => ?_) fun _ => gives_throw _
      exact gives_consume.then fun _ => gives_literal.bind fun value hvalue =>
        gives_pure (hvalue.negate hguard _ _)
  | underscore => exact gives_consume.then fun _ => gives_pure (.wildcard hguard)
  | identifier =>
      exact gives_consume.then fun _ => gives_pure (.capture hguard (ht.isPlain hkind))
  | leftBracket => exact gives_arrayPattern hpattern hguard
  | leftBrace => exact gives_objectPattern hpattern hguard
  | bitOpen => exact (hbits _).then fun _ => gives_pure .bitstring
  | _ => exact gives_throw _

end

/-- A bit string leaves a sound state, which is all that is needed of it. -/
theorem gives_bitstring {registry : Registry} (hbuiltin : registry.IsBuiltin) (n : Nat) :
    Gives env depth (bitstring (Grammar.level registry n) true) fun _ => True := by
  intro s a t hs hdepth hrun
  have hkept := ((made_bitstring (Grammar.made_level hbuiltin n) true).kept_ok hrun).depth
  have hsound := Discipline.sound_alone (Discipline.keeps_level (D := placing env) hbuiltin n)
    (alike_bitstring (γ := View.start fun i => (s.buffer.tokenAt (s.cursor + i)).kind)
      (Grammar.proper_level hbuiltin n) true) ⟨hs, s.sees⟩
  rw [hrun] at hsound
  rcases hsound with ⟨_, _, ht, _⟩
  exact ⟨ht, hkept.trans hdepth, trivial⟩

/-- Every level of the grammar returns patterns in this form. -/
theorem gives_pattern {registry : Registry} (hbuiltin : registry.IsBuiltin) (n depth : Nat) :
    Gives env depth (Grammar.level registry n).pattern (Pattern.Canonical env.guard depth) := by
  induction n generalizing depth with
  | zero =>
      intro s a t _ _ hrun
      cases hrun
  | succ n ih => exact gives_patternRule ih fun _ => gives_bitstring hbuiltin n

end Parse

/-- What a parser returns for a text that is a pattern. -/
theorem Parser.canonical_of_parsePattern {s : Settings} {source : String} {p : Pattern}
    (h : (Parser.ofSettings s).parsePattern source = .ok p) :
    p.Canonical ((Parser.ofSettings s).env source).guard 0 := by
  rcases Parse.ok_of_run h with ⟨t, hrun, -⟩
  have hgives : Parse.Gives ((Parser.ofSettings s).env source) 0
      (Grammar.level (Parser.ofSettings s).registry (4 * source.utf8ByteSize + 8)).pattern
      (Pattern.Canonical ((Parser.ofSettings s).env source).guard 0) :=
    Parse.gives_pattern (Registry.isBuiltin_ofSettings s) _ 0
  exact (hgives.wholeText _ p t (Parse.State.sound_initial _) rfl hrun).2.2

end PolyScript
