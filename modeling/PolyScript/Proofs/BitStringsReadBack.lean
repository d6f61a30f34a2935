import PolyScript.Proofs.RecoveredExpressions

/-!
# Printed Bit Strings Are Read Back

What a parser has made of a text is printed and parsed again. For expressions without object
literals this gives the same expression, at other places, and so it does for bit strings, be
they expressions or patterns.

There is one exception, and it is a fault of the printer. It joins all specifiers of a segment
by dashes, also those that were given in lists of their own. Where one of them has a name for a
parameter and the next begins with a letter, the dash is read as a part of that name.

## Main definitions

* `Expr.isObject`, `Expr.segments`: Object literals and bit strings.
* `SpecifierAtom.Joinable`: Atoms that dashes may join.
* `SpecifierAtom.listsText`: Specifiers in any number of lists.

## Theorems

* `Parser.reprints_parsed`: What is parsed as an expression is recovered from print.
* `Parser.parseExpression_reprinted`: An expression that was parsed is read back.
* `Parser.parsePattern_reprinted`: So are the bit strings that were parsed as patterns.
* `SpecifierAtom.parse_lists`: It does not matter how specifiers are divided into lists.
* `printed_bitstrings_read_back`: Bit strings that were parsed are read back.
-/

namespace PolyScript

open SourcePrinter (joinWith plain)

namespace Expr

/-- Whether an expression is an object literal. -/
def isObject : Expr → Bool
  | .object .. => true
  | _ => false

/-- The segments of a bit string. -/
def segments : Expr → List BitSegment
  | .bitstring segments _ => segments
  | _ => []

instance (s : BitSegment) : Decidable s.Unfused :=
  inferInstanceAs (Decidable (List.IsChain _ s.specifiers))

variable {e : Expr}

theorem IsNested.printsWell (h : e.IsNested) (hobject : e.isObject = false)
    (hunfused : ∀ s ∈ e.segments, s.Unfused) : e.PrintsWell := by
  cases e <;> first | exact h | exact hunfused | cases hobject

/-- Only a bit string looks like one without its places. -/
theorem bitstring_of_skeleton {ss : List BitSegment} {p : Position}
    (h : e.skeleton true = .bitstring ss p) :
    ∃ ss' p', e = .bitstring ss' p' ∧ skeletonSegments true ss' = ss := by
  cases e with
  | bitstring ss' p' =>
      injection h with hsegments
      exact ⟨ss', p', rfl, hsegments⟩
  | _ => cases h

end Expr

/-! ### Whole texts -/

namespace Parse

variable {α : Type} {env : Env} {depth : Nat} {m m' : Bool} {τ : Tape env.source}

theorem comes_skipSeparators : Comes env depth m τ skipSeparators fun _ m' _ => m' = m := by
  refine .loop (I := fun _ m' _ => m' = m) rfl ?_
  rintro _ _ υ rfl
  exact .peekKind 0 (.ite (fun _ => .consume (.pure rfl)) fun _ => .pure rfl)

/-- What makes up a whole text has been read on a tape, in the mode that texts begin with. -/
theorem ok_of_wholeText {p : Parse α} {a : α} (h : run (wholeText p) env = .ok a) :
    ∃ (τ : Tape env.source) (s t : State), s.IsOn env 0 false τ ∧ p env s = .ok a t := by
  rcases ok_of_run h with ⟨t, hrun, -⟩
  rcases (State.sound_initial env.source).offers with ⟨τ, hτ⟩
  have hstart : (State.initial env.source).IsOn env 0 false τ :=
    ⟨hτ, rfl, rfl, τ.undashed_false⟩
  rcases ok_of_bind hrun with ⟨_, s, hskip, hbehind⟩
  rcases comes_skipSeparators _ _ _ hstart hskip with ⟨m', υ, hs, rfl⟩
  rcases ok_of_bind hbehind with ⟨b, u, hvalue, hrest⟩
  rcases ok_of_bind hrest with ⟨_, v, -, hend⟩
  rcases ok_of_bind hend with ⟨c, w, -, hlast⟩
  have hsame : b = a := by
    cases c with
    | true => cases hlast; rfl
    | false => cases hlast
  exact ⟨υ, s, u, hs, hsame ▸ hvalue⟩

/-- There are more levels than pieces. -/
theorem length_lt_levels {source : String} {ps : List Piece}
    (h : Lexer.Legible source.toList (ps ++ [.finish])) :
    ps.length < 4 * source.utf8ByteSize + 8 := by
  have hle := Nat.le_trans h.length_le
    (Nat.add_le_add_right (Position.length_le_byteCount source.toList) 1)
  rw [← byteSize_eq, List.length_append, List.length_singleton] at hle
  omega

/-- Pieces that begin an expression may make up a whole text. -/
theorem run_of_begins {p : Parse α} {V : α → Prop} {ps : List Piece}
    (hlegible : Lexer.Legible env.source.toList (ps ++ [.finish])) (hbegins : Begins false ps)
    (h : Consumes env 0 false (ps ++ [.finish]) m [.finish] p V) :
    ∃ a, run (wholeText p) env = .ok a ∧ V a := by
  rcases hbegins with ⟨q, us, rfl, hsuits, hkind⟩
  refine run_of_consumes hlegible hsuits ?_ h
  cases hseparator : isSeparator q.kind with
  | false => rfl
  | true =>
      revert hkind hseparator
      cases q.kind <;> simp [isSeparator, beginsExpression]

/-! ### Patterns -/

variable {P : Parser} {source : String} {g : Grammar} {ps : List Piece}
  {ss : List BitSegment} {position : Position}

/-- A pattern that begins as a bit string is one. -/
theorem comes_pattern_bits (hP : P.languages = .ofList Language.defaults)
    {τ : Tape (P.env source).source} (hkind : τ.head.kind = .bitOpen) (hg : Repeats P source g) :
    Comes (P.env source) depth m τ (pattern g) fun p m' _ => ∃ ss q, p = .bitstring ss q ∧
      P.guard.Admits depth ∧ P.guard.Admits (depth + 1) ∧
        ((∀ x ∈ segmentsWithin ss, x.PrintsWell) → (∀ s ∈ ss, s.Unfused) →
          ∃ ps, Listed (ReprintsSegment P (depth + 2) true) ss m ps m') := by
  refine .nested fun hguard => .current ?_
  rw [hkind]
  exact (comes_bitstring hP hg).bind fun r m' υ hr => .pure ⟨_, _, rfl, hguard, hr⟩

theorem consumes_pattern_bits (hguard : P.guard.Admits depth)
    (hinner : P.guard.Admits (depth + 1))
    (h : Listed (RegainsSegment P (depth + 2) true) ss m ps m') (source : String)
    (us : List Piece) (n : Nat) (hn : ps.length ≤ n) :
    Consumes (P.env source) depth m
      (.mark .bitOpen "<<" :: (ps ++ Piece.mark .bitClose ">>" :: us)) m' us
      (pattern (Grammar.level P.registry n))
      fun p => ∃ ss' q, p = .bitstring ss' q ∧ skeletonSegments true ss' =
        skeletonSegments true ss := by
  refine .nested hguard ((consumes_current (Piece.suits_mark _ _ _)).bind fun t ht => ?_)
  rw [ht.kind]
  exact (consumes_bitstring hinner h source hn).bind fun r hr => consumes_pure ⟨_, _, rfl, hr⟩

/-- As an expression a bit string may stand anywhere. -/
theorem regains_bits (hguard : P.guard.Admits depth) (hinner : P.guard.Admits (depth + 1))
    (h : Listed (RegainsSegment P (depth + 2) false) ss m ps m') :
    Regains P depth m (.bitstring ss position)
      (.mark .bitOpen "<<" :: (ps ++ [Piece.mark .bitClose ">>"])) m' expression (Ceases 0) := by
  have hprimary : Regains P (depth + 1) m (.bitstring ss position)
      (.mark .bitOpen "<<" :: (ps ++ [Piece.mark .bitClose ">>"])) m' primary
      (Unjoined (.bitstring ss position) m') := regains_bitstring hinner h _
  exact (hprimary.suffixed ⟨_, _, rfl, Piece.suits_mark _ _ _, rfl⟩).operand.operation.whole hguard

end Parse

namespace Parser

open Parse

variable {P : Parser} {source : String} {e : Expr} {ss : List BitSegment} {position : Position}
  {ps : List Piece} {m : Bool}

/-- A text whose pieces are read as an expression is parsed into it. -/
theorem parseExpression_of_regains
    (hlegible : Lexer.Legible source.toList (ps ++ [.finish])) (hbegins : Begins false ps)
    (h : Regains P 0 false e ps m Parse.expression (Ceases 0)) :
    ∃ a, P.parseExpression source = .ok a ∧ SameSkeleton e a := by
  have hceases : Ceases 0 [.finish] := ⟨_, _, rfl, rfl, rfl⟩
  have hread := h.expression source (length_lt_levels hlegible) hceases
  exact run_of_begins hlegible hbegins hread

/-- A text whose pieces are those of a bit string is parsed into it, also as a pattern. -/
theorem parsePattern_of_regains (hguard : P.guard.Admits 0) (hinner : P.guard.Admits 1)
    (hlegible : Lexer.Legible source.toList
      (.mark .bitOpen "<<" :: (ps ++ [Piece.mark .bitClose ">>"]) ++ [.finish]))
    (h : Listed (RegainsSegment P 2 true) ss false ps m) :
    ∃ ss' p, P.parsePattern source = .ok (.bitstring ss' p) ∧
      skeletonSegments true ss' = skeletonSegments true ss := by
  have hlength := length_lt_levels hlegible
  simp only [List.length_cons, List.length_append, List.length_nil] at hlength
  have hread := consumes_pattern_bits hguard hinner h source [.finish]
    (4 * source.utf8ByteSize + 7) (by omega)
  have hbegins : Begins false (.mark .bitOpen "<<" :: (ps ++ [Piece.mark .bitClose ">>"])) :=
    ⟨_, _, rfl, Piece.suits_mark _ _ _, rfl⟩
  have hpieces : Piece.mark .bitOpen "<<" :: (ps ++ Piece.mark .bitClose ">>" :: [.finish]) =
      .mark .bitOpen "<<" :: (ps ++ [Piece.mark .bitClose ">>"]) ++ [.finish] := by simp
  rw [hpieces] at hread
  rcases run_of_begins hlegible hbegins hread with ⟨_, hrun, ss', p, rfl, hss⟩
  exact ⟨ss', p, hrun, hss⟩

/-! ### What was parsed -/

/-- What is parsed as an expression is recovered from print. -/
theorem reprints_parsed (hP : P.languages = .ofList Language.defaults)
    (hparse : P.parseExpression source = .ok e) (h : e.Printable) :
    ∃ ps m, Reprints P 0 e false ps m := by
  rcases ok_of_wholeText hparse with ⟨τ, s, t, hs, hrun⟩
  rcases (repeats_level hP _).expression 0 false τ s e t hs hrun with ⟨m, υ, -, he⟩
  rcases he h with ⟨ps, hps⟩
  exact ⟨ps, m, hps⟩

/-- An expression that was parsed is read back from its printed text. -/
theorem parseExpression_reprinted (hP : P.languages = .ofList Language.defaults)
    (hparse : P.parseExpression source = .ok e) (h : e.Printable) :
    ∃ a, P.parseExpression (plain.expr e) = .ok a ∧ SameSkeleton e a := by
  rcases reprints_parsed hP hparse h with ⟨ps, m, hps⟩
  have hlegible := hps.printsAs.prints [] [.finish] Lexer.over_nil .finish
  rw [List.append_nil] at hlegible
  exact parseExpression_of_regains hlegible hps.begins hps.regains

/-- A bit string that was parsed as a pattern is read back as one. -/
theorem parsePattern_reprinted {s : Settings} (hlanguages : s.languages = Language.defaults)
    (hparse : (ofSettings s).parsePattern source = .ok (.bitstring ss position))
    (h : ∀ x ∈ segmentsWithin ss, x.PrintsWell) (hunfused : ∀ x ∈ ss, x.Unfused) :
    ∃ ss' p, (ofSettings s).parsePattern (plain.pattern (.bitstring ss position)) =
      .ok (.bitstring ss' p) ∧ skeletonSegments true ss' = skeletonSegments true ss := by
  have hP : (ofSettings s).languages = .ofList Language.defaults :=
    congrArg LanguageTable.ofList hlanguages
  rcases ok_of_wholeText hparse with ⟨τ, u, t, hs, hrun⟩
  -- No other rule yields a bit string, so the pattern begins with its brackets.
  have hkind : τ.head.kind = .bitOpen := by
    rcases (runs_patternPart (Registry.isBuiltin_ofSettings s) τ).ok hs.offers hrun with
      ⟨υ, -, hderives⟩
    cases hderives
    assumption
  rcases comes_pattern_bits hP hkind (repeats_level hP _) u _ t hs hrun with
    ⟨m, υ, -, _, _, heq, hguard, hinner, hlisted⟩
  cases heq
  rcases hlisted h hunfused with ⟨ps, hps⟩
  have hprints : Lexer.Prints (plain.pattern (.bitstring ss position)).toList
      (.mark .bitOpen "<<" :: (ps ++ [Piece.mark .bitClose ">>"])) :=
    (printsAs_bitstring (p := position) (fun _ _ _ _ hs => hs.prints) hps).prints
  have hlegible := hprints [] [.finish] Lexer.over_nil .finish
  rw [List.append_nil] at hlegible
  exact parsePattern_of_regains hguard hinner hlegible
    (hps.imp fun _ _ _ _ _ hs => hs.toRegainsSegment)

end Parser

/-! ### Specifiers in lists -/

namespace SpecifierAtom

/-- Atoms that dashes may join: none of their specifiers fuses with the next. -/
structure Joinable (atoms : List SpecifierAtom) : Prop where
  ne_nil : atoms ≠ []
  fits : ∀ a ∈ atoms, a.Fits false
  unfused : (atoms.flatMap specifiers).IsChain fun first second =>
    BitSegment.fuses first second = false

/-- Lists of specifiers, each behind its slash. -/
def listsText : List (List SpecifierAtom) → String
  | [] => ""
  | atoms :: groups => "/" ++ joinWith "-" (atoms.map text) ++ listsText groups

open Parse (EndsPart Regains RegainsSegment ReprintsBy segmentValue)

variable {P : Parser} {depth : Nat} {inPattern : Bool} {name : String}
  {groups : List (List SpecifierAtom)}

/-- Lists of atoms that may be joined are read as lists of atoms with the same specifiers. -/
theorem trails_lists (h : ∀ atoms ∈ groups, Joinable atoms) :
    ∃ apart : List (List SpecifierAtom), (∀ atoms ∈ apart, ∀ a ∈ atoms, a.Fits false) ∧
      apart.flatten.flatMap specifiers = groups.flatten.flatMap specifiers ∧
      Lexer.Trails (listsText groups).toList (apart.flatMap (clause false)) := by
  induction groups with
  | nil => exact ⟨[], List.forall_mem_nil _, rfl, fun _ _ _ hcs => hcs, fun _ hcs => hcs⟩
  | cons atoms groups ih =>
      have hatoms := h atoms List.mem_cons_self
      rcases ih fun group hgroup => h group (List.mem_cons_of_mem _ hgroup) with
        ⟨rest, hrest, hsame, htrails⟩
      rcases exists_apart hatoms.fits hatoms.unfused with ⟨first, hfirst, hapart, hspecifiers⟩
      refine ⟨first :: rest, List.forall_mem_cons.2 ⟨hfirst, hrest⟩, ?_, ?_⟩
      -- The lists that are read need not be those that were printed; their specifiers are.
      · rw [List.flatten_cons, List.flatMap_append, hspecifiers, hsame, List.flatten_cons,
          List.flatMap_append]
      · have hempty : (atoms.flatMap specifiers).isEmpty = false :=
          List.isEmpty_eq_false_iff.2 (flatMap_specifiers_ne_nil hatoms.ne_nil)
        have hclause := trails_clause hfirst hapart
        rw [hspecifiers, clauseText, hempty, text_joined] at hclause
        rw [listsText, String.toList_append]
        exact hclause.append htrails

/-- A plain name may be the value of a segment. -/
theorem reprints_value (hP : P.languages = .ofList Language.defaults) (hname : Lexer.IsPlain name)
    (position : Position) :
    ReprintsBy (segmentValue · inPattern) EndsPart P depth (.identifier name position) false
      [.name false name] false := by
  have hkind : Kind.ofWord name = .identifier := hname.isIdentifier
  refine ⟨printsAs_name ⟨hname.isName, nofun⟩ hkind, ?_⟩
  cases inPattern with
  | true => exact Parse.regains_value_name hkind
  | false =>
      have hreference : Regains P depth false (.identifier name position) [.name false name] false
          Parse.reference (Parse.Uncalled false) :=
        Parse.regains_name hkind (Parse.isLanguage_plain hP hkind)
      exact (hreference.value_reference (.inl ⟨rfl, hkind⟩)).mono fun us hus =>
        (hus.unjoined (.identifier name position) false).1

/-- However specifiers are divided into lists, they are parsed into the same ones, provided that
    those in one list do not fuse. Expressions and patterns are no different in this. -/
theorem parse_lists (hP : P.languages = .ofList Language.defaults) (hguard : P.guard.Admits 0)
    (hinner : P.guard.Admits 1) (hname : Lexer.IsPlain name)
    (hgroups : ∀ atoms ∈ groups, Joinable atoms) :
    let text := "<<" ++ name ++ listsText groups ++ ">>"
    let plainly := [BitSegment.mk (.identifier name .start) none false
      (groups.flatten.flatMap specifiers) .start]
    (∃ ss p, P.parseExpression text = .ok (.bitstring ss p) ∧
      skeletonSegments true ss = plainly) ∧
    ∃ ss p, P.parsePattern text = .ok (.bitstring ss p) ∧ skeletonSegments true ss = plainly := by
  intro text plainly
  rcases trails_lists hgroups with ⟨apart, hfits, hsame, htrails⟩
  -- The pieces are known from how the text was printed, and what they are parsed into from the
  -- pieces.
  let ps := Piece.name false name :: apart.flatMap (clause false)
  have hlegible : Lexer.Legible text.toList
      (.mark .bitOpen "<<" :: (ps ++ [Piece.mark .bitClose ">>"]) ++ [.finish]) := by
    have hsuited : Lexer.Suited false name := ⟨hname.isName, nofun⟩
    have hshuts := Lexer.Prints.enclosed Lexer.shuts_bitOpen (hsuited.prints.trailed htrails)
      Lexer.divides_bitClose
    have htext : text.toList ++ [] =
        "<<".toList ++ (name.toList ++ (listsText groups).toList) ++ ">>".toList ++ [] := by
      simp [text, String.toList_append]
    rw [← List.append_nil text.toList, htext]
    exact hshuts [] [.finish] .finish
  have hlisted (inPattern : Bool) :
      Listed (RegainsSegment P 2 inPattern) plainly false ps false := by
    refine .one ?_
    rw [← hsame]
    exact Parse.regainsSegment (reprints_value hP hname .start) .none hfits
  constructor
  · have hbegins : Parse.Begins false
        (.mark .bitOpen "<<" :: (ps ++ [Piece.mark .bitClose ">>"])) :=
      ⟨_, _, rfl, Piece.suits_mark _ _ _, rfl⟩
    have hregains : Regains P 0 false (.bitstring plainly .start) _ false Parse.expression
        (Parse.Ceases 0) := Parse.regains_bits hguard hinner (hlisted false)
    rcases Parser.parseExpression_of_regains hlegible hbegins hregains with ⟨e, hparse, he⟩
    rcases Expr.bitstring_of_skeleton he with ⟨ss, p, rfl, hss⟩
    exact ⟨ss, p, hparse, hss⟩
  · exact Parser.parsePattern_of_regains hguard hinner hlegible (hlisted true)

end SpecifierAtom

/-! ### Bit strings -/

/-- Bit strings that were parsed, as expressions or as patterns, are parsed from their printed
    texts into the same segments, if there are no object literals in them and none of the
    specifiers fuses with the next, neither in them nor in bit strings within. And specifiers
    in one list are the same as in several, where those that dashes join do not fuse. -/
theorem printed_bitstrings_read_back (s : Settings)
    (hlanguages : s.languages = Language.defaults) :
    (∀ source ss p, (∀ e ∈ segmentsWithin ss, e.isObject = false) →
      (∀ x ∈ ss ++ (segmentsWithin ss).flatMap Expr.segments, x.Unfused) →
      ((Parser.ofSettings s).parseExpression source = .ok (.bitstring ss p) →
        ∃ ss' p', (Parser.ofSettings s).parseExpression (plain.expr (.bitstring ss p)) =
          .ok (.bitstring ss' p') ∧ skeletonSegments true ss' = skeletonSegments true ss) ∧
      ((Parser.ofSettings s).parsePattern source = .ok (.bitstring ss p) →
        ∃ ss' p', (Parser.ofSettings s).parsePattern (plain.pattern (.bitstring ss p)) =
          .ok (.bitstring ss' p') ∧ skeletonSegments true ss' = skeletonSegments true ss)) ∧
    (s.guard.Admits 0 → s.guard.Admits 1 → ∀ name groups, Lexer.IsPlain name →
      (∀ atoms ∈ groups, SpecifierAtom.Joinable atoms) →
      let text := "<<" ++ name ++ SpecifierAtom.listsText groups ++ ">>"
      let plainly := [BitSegment.mk (.identifier name .start) none false
        (groups.flatten.flatMap SpecifierAtom.specifiers) .start]
      (∃ ss p, (Parser.ofSettings s).parseExpression text = .ok (.bitstring ss p) ∧
        skeletonSegments true ss = plainly) ∧
      ∃ ss p, (Parser.ofSettings s).parsePattern text = .ok (.bitstring ss p) ∧
        skeletonSegments true ss = plainly) := by
  have hP : (Parser.ofSettings s).languages = .ofList Language.defaults :=
    congrArg LanguageTable.ofList hlanguages
  refine ⟨fun source ss p hobjects hunfused => ?_, fun hguard hinner name groups hname hgroups =>
    SpecifierAtom.parse_lists hP hguard hinner hname hgroups⟩
  -- That operators are nested is no condition, since it holds of whatever was parsed.
  have hwell (hnested : ∀ e ∈ segmentsWithin ss, e.IsNested) :
      ∀ e ∈ segmentsWithin ss, e.PrintsWell := fun e he =>
    (hnested e he).printsWell (hobjects e he) fun x hx =>
      hunfused x (List.mem_append_right _ (List.mem_flatMap_of_mem he hx))
  have hown : ∀ x ∈ ss, x.Unfused := fun x hx => hunfused x (List.mem_append_left _ hx)
  constructor
  · intro hparse
    rcases Parser.derives_expression hparse with ⟨τ, υ, hderives⟩
    have hprintable : (Expr.bitstring ss p).Printable := List.forall_mem_cons.2
      ⟨hown, hwell fun e he => hderives.nested e (List.mem_cons_of_mem _ he)⟩
    rcases Parser.parseExpression_reprinted hP hparse hprintable with ⟨a, hread, ha⟩
    rcases Expr.bitstring_of_skeleton ha with ⟨ss', p', rfl, hss⟩
    exact ⟨ss', p', hread, hss⟩
  · intro hparse
    rcases Parser.derives_pattern hparse with ⟨τ, υ, hderives⟩
    exact Parser.parsePattern_reprinted hlanguages hparse (hwell hderives.nested) hown

/-- A dash that is part of a name, one that is an operator since it stands in a size, a bit
    string in parentheses, and specifiers that are given in two lists. A parameter that is a
    number does not take along what a dash joins to it. -/
theorem printed_bitstrings_read_back_nested :
    let parser := Parser.ofSettings Settings.defaults
    let source := "<<(a-b):(n-1)/unit:8/signed, (<<y>>)>>"
    (∃ ss p, parser.parseExpression source = .ok (.bitstring ss p) ∧
      (∀ e ∈ segmentsWithin ss, e.isObject = false) ∧
      (∀ s ∈ ss ++ (segmentsWithin ss).flatMap Expr.segments, s.Unfused) ∧
      plain.expr (.bitstring ss p) = "<<(a-b):(n - 1)/unit:8-signed, (<<y>>)>>" ∧
      ∃ ss' p', parser.parseExpression (plain.expr (.bitstring ss p)) = .ok (.bitstring ss' p') ∧
        skeletonSegments true ss' = skeletonSegments true ss) ∧
    ∃ ss p, parser.parsePattern "<<x/unit:8-little/signed>>" = .ok (.bitstring ss p) ∧
      skeletonSegments true ss =
        [.mk (.identifier "x" .start) none false ["unit:8", "little", "signed"] .start] := by
  intro parser source
  have hback := printed_bitstrings_read_back Settings.defaults rfl
  constructor
  -- What can be evaluated about the source. That the printed text is read back is left to the
  -- theorem.
  · have hfacts : (parser.parseExpression source).toOption.map (fun e : Expr => (plain.expr e,
        e.segments.isEmpty, decide (∀ x ∈ segmentsWithin e.segments, x.isObject = false),
        decide (∀ s ∈ e.segments ++ (segmentsWithin e.segments).flatMap Expr.segments,
          s.Unfused))) =
        some ("<<(a-b):(n - 1)/unit:8-signed, (<<y>>)>>", false, true, true) := by
      decide +kernel
    cases hparse : parser.parseExpression source with
    | error e =>
        rw [hparse] at hfacts
        cases hfacts
    | ok e =>
        rw [hparse] at hfacts
        injection hfacts with hfacts
        injection hfacts with htext hfacts
        injection hfacts with hsegments hfacts
        injection hfacts with hobjects hunfused
        cases e with
        | bitstring ss p =>
            have hobjects := of_decide_eq_true hobjects
            have hunfused := of_decide_eq_true hunfused
            exact ⟨ss, p, rfl, hobjects, hunfused, htext,
              (hback.1 source ss p hobjects hunfused).1 hparse⟩
        | _ => cases hsegments
  -- Of the lists only the form has to be checked, as the general statement takes any.
  · have hplain : ∀ name ∈ ["x", "unit", "little", "signed"], Lexer.IsPlain name := by
      decide +kernel
    have hone : Lexer.IsNumeral "8".toList := Lexer.isNumeral_decimal (by decide)
      (List.all_iff_forall_prop.1 (by decide))
    let groups : List (List SpecifierAtom) :=
      [[⟨"unit", some (.number "8")⟩, ⟨"little", none⟩], [⟨"signed", none⟩]]
    have hgroups : ∀ atoms ∈ groups, SpecifierAtom.Joinable atoms := by
      refine List.forall_mem_cons.2 ⟨⟨List.cons_ne_nil _ _, ?_, by decide +kernel⟩,
        List.forall_mem_singleton.2 ⟨List.cons_ne_nil _ _, ?_, by decide +kernel⟩⟩
      · refine List.forall_mem_cons.2 ⟨⟨hplain _ (by decide), nofun, fun param hparam => ?_⟩,
          List.forall_mem_singleton.2 ⟨hplain _ (by decide), nofun, nofun⟩⟩
        cases hparam
        exact hone
      · exact List.forall_mem_singleton.2 ⟨hplain _ (by decide), nofun, nofun⟩
    exact (hback.2 (fun _ => rfl) (fun _ => rfl) "x" groups (hplain _ (by decide)) hgroups).2

/-- Two specifiers in lists of their own are one specifier where the printer joins them. -/
theorem printed_specifiers_fused :
    ¬∀ source ss p,
      (Parser.ofSettings Settings.defaults).parseExpression source = .ok (.bitstring ss p) →
      (∀ e ∈ segmentsWithin ss, e.isObject = false) →
      ∃ ss' p', (Parser.ofSettings Settings.defaults).parseExpression
        (plain.expr (.bitstring ss p)) = .ok (.bitstring ss' p') ∧
          skeletonSegments true ss' = skeletonSegments true ss := by
  intro h
  let parser := Parser.ofSettings Settings.defaults
  let specifiers : Expr → List (List String) := fun e => e.segments.map BitSegment.specifiers
  have hfacts : (parser.parseExpression "<<x/unit:a/little>>").toOption.map
      (fun e : Expr => (plain.expr e, specifiers (e.skeleton true),
        decide (∀ x ∈ segmentsWithin e.segments, x.isObject = false))) =
      some ("<<x/unit:a-little>>", [["unit:a", "little"]], true) := by
    decide +kernel
  -- The printed text has one specifier less.
  have hfused : (parser.parseExpression "<<x/unit:a-little>>").toOption.map
      (fun e => specifiers (e.skeleton true)) = some [["unit:a-little"]] := by
    decide +kernel
  cases hparse : parser.parseExpression "<<x/unit:a/little>>" with
  | error e =>
      rw [hparse] at hfacts
      cases hfacts
  | ok e =>
      rw [hparse] at hfacts
      injection hfacts with hfacts
      injection hfacts with htext hfacts
      injection hfacts with hspecifiers hobjects
      cases e with
      | bitstring ss p =>
          rcases h _ ss p hparse (of_decide_eq_true hobjects) with ⟨ss', p', hread, hsame⟩
          rw [htext] at hread
          rw [hread] at hfused
          injection hfused with hfused
          have hboth : specifiers ((Expr.bitstring ss' p').skeleton true) =
              specifiers ((Expr.bitstring ss p).skeleton true) := by
            rw [Expr.skeleton, Expr.skeleton, hsame]
          exact absurd (hfused.symm.trans (hboth.trans hspecifiers)) (by decide)
      | _ => cases hspecifiers

end PolyScript
