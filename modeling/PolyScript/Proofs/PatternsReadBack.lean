import PolyScript.Proofs.ParsedPatterns

/-!
# Printed Patterns Are Read Back

The words of a pattern that was parsed are parsed into the same pattern again, at other
places.

Patterns bind by brackets alone, so where a pattern is read depends on nothing but the
level of the grammar, which has to be high enough for what the pattern contains, and on
the guard, which admits the levels again because it admitted them before. One case for
each form of a canonical pattern carries the induction (`Parse.restores`). Fields are read
in the order in which they are printed, which is that of their keys, so each is added
behind those before it.

Two things are asked of the pattern. Bit strings are left out, and its keys have no
control characters but tabs and line ends, since the printer writes the others as escapes
that the lexer refuses. `printed_key_lost` is a pattern that is not read back for this
reason.

## Main definitions

* `SamePattern`: The same pattern, apart from positions.
* `Parse.Restores`: A pattern is printed as words that are parsed into it again.

## Theorems

* `Parse.restores_array`, `Parse.restores_object`: Patterns that contain others.
* `Parse.restores`: All canonical patterns without bit strings.
* `printed_patterns_read_back`: The printed text of a parsed pattern is parsed into it.
-/

namespace PolyScript

/-- The same pattern, apart from positions. -/
def SamePattern (p : Pattern) (q : Pattern) : Prop := q.skeleton = p.skeleton

namespace Parse

/-! ### What is read back -/

/-- Whether a token of this kind begins a pattern. -/
def opensPattern : Kind → Bool
  | .number | .string | .kwTrue | .kwFalse | .kwNil | .minus | .underscore | .identifier
  | .leftBracket | .leftBrace => true
  | _ => false

/-- A pattern is printed as words, and these words are parsed into the pattern by every
    level of the grammar that is high enough. -/
structure Restores (registry : Registry) (env : Env) (depth : Nat) (p : Pattern)
    (ws : List Word) : Prop where
  reads : Lexer.Reads (SourcePrinter.plain.pattern p).toList ws
  begins : ∃ w us, ws = w :: us ∧ opensPattern w.kind = true
  takes : ∀ n rest, ws.length < n →
    Takes env depth (ws ++ rest) rest (Grammar.level registry n).pattern (SamePattern p)

section

variable {registry : Registry} {env : Env} {depth : Nat} {p : Pattern} {ws : List Word}

/-- A literal without a sign. -/
theorem restores_literal {e : Expr} {w : Word} {q : Position} (hguard : env.guard.Admits depth)
    (hword : LiteralWord e w) (hlexeme : Lexer.IsLexeme w) (hnormal : normalizeLiteral e = e) :
    Restores registry env depth (.literal e q) [w] where
  reads := by
    have htext : (SourcePrinter.plain.pattern (.literal e q)).toList = w.spelling := by
      cases hword <;> rw [SourcePrinter.pattern, SourcePrinter.expr] <;> rfl
    rw [htext]
    exact hlexeme.reads
  begins := ⟨w, [], rfl, by cases hword <;> rfl⟩
  takes n rest hn := by
    obtain ⟨n, rfl⟩ : ∃ k, n = k + 1 := ⟨n - 1, by omega⟩
    refine .nested hguard (takes_current.bind fun t ht => ?_)
    have hliteral : Takes env (depth + 1) ([w] ++ rest) rest (do
        let value ← literal
        return .literal (normalizeLiteral value) t.position) (SamePattern (.literal e q)) := by
      refine (takes_literal hword).bind fun a ha => takes_pure ?_
      rw [SamePattern, Pattern.skeleton, Pattern.skeleton, skeleton_normalizeLiteral, ha,
        ← skeleton_normalizeLiteral, hnormal]
    rw [ht.kind]
    cases hword <;> exact hliteral

/-- A number behind a sign. What is printed is the text of the negation, but it is read as
    two words. -/
theorem restores_negated {value : Number} {raw : String} {q r o : Position}
    (hguard : env.guard.Admits depth) (hnormal : value.IsNormal raw)
    (hzero : value ≠ .integer 0) :
    Restores registry env depth (.literal (negateLiteral q (.number value raw r)) o)
      [.verbatim .minus "-", .verbatim .number raw] where
  reads := by
    rcases hnormal.negate hzero q r with ⟨negated, htext⟩
    rw [htext, SourcePrinter.pattern, SourcePrinter.expr, String.toList_append]
    intro rest hrest
    rcases hnormal.isNumeral.cons with ⟨c, cs, hchars, hdigit⟩
    -- A minus is a sign of its own unless a longer one begins with it.
    have hsign : c ≠ '>' ∧ c ≠ '=' := by
      refine ⟨?_, ?_⟩ <;>
        · rintro rfl
          cases hdigit
    have hminus := Lexer.unaryOp_isRead .negate hsign (cs ++ rest)
    rw [← List.cons_append, ← hchars] at hminus
    have hrow := Lexer.Row.word hminus
      ((Lexer.isLexeme_numeral hnormal.isNumeral).reads rest hrest)
    rwa [List.append_assoc]
  begins := ⟨_, _, rfl, rfl⟩
  takes n rest hn := by
    obtain ⟨n, rfl⟩ : ∃ k, n = k + 1 := ⟨n - 1, by omega⟩
    refine .nested hguard (takes_current.bind fun t ht => ?_)
    rw [ht.kind]
    refine (takes_peekKind (n := 1) rfl).bind ?_
    rintro _ rfl
    refine (takes_consume (by decide)).bind fun _ _ => ?_
    have hliteral : LiteralWord (.number value raw r) (.verbatim .number raw) :=
      .number hnormal.ofText?_eq
    refine (takes_literal hliteral).bind fun a ha => takes_pure ?_
    rw [SamePattern, Pattern.skeleton, Pattern.skeleton, skeleton_negateLiteral,
      skeleton_normalizeLiteral, ha, ← skeleton_normalizeLiteral, hnormal.normalize,
      skeleton_negateLiteral]

/-- A capture is printed as its name and restored from it. -/
theorem restores_capture {name : String} {q : Position} (hguard : env.guard.Admits depth)
    (hname : Lexer.IsPlain name) :
    Restores registry env depth (.capture name q) [.verbatim .identifier name] where
  reads := Expr.reads_name hname
  begins := ⟨_, _, rfl, rfl⟩
  takes n rest hn := by
    obtain ⟨n, rfl⟩ : ∃ k, n = k + 1 := ⟨n - 1, by omega⟩
    refine .nested hguard (takes_current.bind fun t ht => ?_)
    rw [ht.kind]
    refine (takes_consume (by simp)).bind fun _ _ => takes_pure ?_
    have htext : t.text = name := ht.text
    rw [SamePattern, htext]
    rfl

theorem restores_wildcard {q : Position} (hguard : env.guard.Admits depth) :
    Restores registry env depth (.wildcard q) [.verbatim .underscore "_"] where
  reads := by
    exact (Lexer.isLexeme_name (Lexer.isName_reserved "_" (by decide))).reads
  begins := ⟨_, _, rfl, rfl⟩
  takes n rest hn := by
    obtain ⟨n, rfl⟩ : ∃ k, n = k + 1 := ⟨n - 1, by omega⟩
    refine .nested hguard (takes_current.bind fun t ht => ?_)
    rw [ht.kind]
    exact (takes_consume (by decide)).bind fun _ _ => takes_pure rfl

/-! ### Array patterns -/

/-- The words that stand for the rest of an array pattern. -/
def restWords (rest : Option String) : List (List Word) :=
  rest.toList.map fun name => [.verbatim .ellipsis "...", .verbatim .identifier name]

theorem reads_rest {name : String} (h : Lexer.IsPlain name) :
    Lexer.Reads ("..." ++ name).toList
      [.verbatim .ellipsis "...", .verbatim .identifier name] := by
  intro rest hrest
  have hdots : ∀ cs, (Word.verbatim .ellipsis "...").IsRead cs :=
    fun cs => Lexer.Spells.isRead ⟨fun _ => rfl, fun _ => rfl⟩ (by decide)
  have hrow := Lexer.Row.word (hdots _) (Expr.reads_name h rest hrest)
  rwa [String.toList_append, List.append_assoc]

/-- What follows an element of an array pattern: a comma, or the end. -/
def afterElement (elements : List Pattern) : Parse (List Pattern ⊕ ArrayPattern) := do
  let _ ← skipNewlines
  if ← check .comma then
    let _ ← consume
    let _ ← skipNewlines
    return .inl elements
  else return .inr ⟨elements, none⟩

/-- One round of reading an array pattern. -/
def elementRound (g : Grammar) (elements : List Pattern) :
    Parse (List Pattern ⊕ ArrayPattern) := do
  if ← check .rightBracket then return .inr ⟨elements, none⟩
  else if ← check .ellipsis then return .inr ⟨elements, some (← restPattern)⟩
  else
    let element ← g.pattern
    afterElement (elements ++ [element])

/-- The rest of an array pattern is taken from its dots and its name, in front of the closing
    bracket. -/
theorem takes_restPattern {name : String} {w : Word} {us : List Word}
    (hw : w.kind = .rightBracket) :
    Takes env depth (.verbatim .ellipsis "..." :: .verbatim .identifier name :: w :: us) (w :: us)
      restPattern (· = name) := by
  refine (takes_consume (by decide)).bind fun dots _ => ?_
  refine (takes_expect rfl (by simp)).bind fun t ht => ?_
  refine (takes_skipNewlines (by rw [hw]; decide)).bind fun _ _ => ?_
  refine .ite_check .comma (fun heq => ?_) fun _ => ?_
  · rw [hw] at heq
    cases heq
  · refine .ite_check .rightBracket (fun _ => takes_pure ?_) fun hne => absurd hw hne
    exact ht.text

theorem beginsItem_of_opensPattern {closer : Kind}
    (hcloser : closer = .rightBracket ∨ closer = .rightBrace)
    (h : ∃ w us, ws = w :: us ∧ opensPattern w.kind = true) : BeginsItem closer ws := by
  rcases h with ⟨w, us, rfl, hopens⟩
  refine ⟨w, us, rfl, ?_, ?_⟩
  · rintro heq
    rw [heq] at hopens
    rcases hcloser with rfl | rfl <;> cases hopens
  · rintro heq
    rw [heq] at hopens
    cases hopens

/-- The words of each element, and of the rest, begin an item of a list. -/
theorem beginsItem_elements {elements : List Pattern} {words : Pattern → List Word}
    (rest : Option String)
    (h : ∀ e ∈ elements, ∃ w us, words e = w :: us ∧ opensPattern w.kind = true) :
    ∀ ws ∈ elements.map words ++ restWords rest, BeginsItem .rightBracket ws := by
  intro ws hmem
  rcases List.mem_append.1 hmem with hmem | hmem
  · rcases List.mem_map.1 hmem with ⟨e, he, rfl⟩
    exact beginsItem_of_opensPattern (.inl rfl) (h e he)
  · rcases List.mem_map.1 hmem with ⟨name, -, rfl⟩
    exact ⟨_, _, rfl, by decide, by decide⟩

/-- A round that is at an element reads it, and goes on as the words behind it tell. -/
theorem takes_elementRound {g : Grammar} {p : Pattern} {acc : List Pattern} {ts ts' : List Word}
    {V : List Pattern ⊕ ArrayPattern → Prop}
    (hbegins : ∃ w us, ws = w :: us ∧ opensPattern w.kind = true)
    (hpattern : Takes env depth (ws ++ ts) ts g.pattern (SamePattern p))
    (hafter : ∀ a, SamePattern p a → Takes env depth ts ts' (afterElement (acc ++ [a])) V) :
    Takes env depth (ws ++ ts) ts' (elementRound g acc) V := by
  rcases hbegins with ⟨w, us, rfl, hopens⟩
  have hne : w.kind ≠ .rightBracket ∧ w.kind ≠ .ellipsis := by
    refine ⟨?_, ?_⟩ <;>
      · rintro heq
        rw [heq] at hopens
        cases hopens
  refine .ite_check .rightBracket (fun heq => absurd heq hne.1) fun _ => ?_
  exact .ite_check .ellipsis (fun heq => absurd heq hne.2) fun _ => hpattern.bind hafter

/-- The round over the last element stops in front of the bracket. -/
theorem takes_lastElement {g : Grammar} {p : Pattern} {acc : List Pattern} {w : Word}
    {us : List Word} {V : ArrayPattern → Prop} (hw : w.kind = .rightBracket)
    (hbegins : ∃ v vs, ws = v :: vs ∧ opensPattern v.kind = true)
    (hpattern : Takes env depth (ws ++ w :: us) (w :: us) g.pattern (SamePattern p))
    (hV : ∀ a, SamePattern p a → V ⟨acc ++ [a], none⟩) :
    Takes env depth (ws ++ w :: us) (w :: us) (elementRound g acc)
      fun r => ∃ found, r = .inr found ∧ V found := by
  refine takes_elementRound hbegins hpattern fun a ha => ?_
  refine (takes_skipNewlines (by rw [hw]; decide)).bind fun _ _ => ?_
  refine .ite_check .comma (fun heq => ?_) fun _ => takes_pure ⟨_, rfl, hV a ha⟩
  rw [hw] at heq
  cases heq

/-- The round over an element with a comma behind it takes both. -/
theorem takes_nextElement {g : Grammar} {p : Pattern} {acc : List Pattern} {w : Word}
    {us : List Word} {V : List Pattern → Prop} (hline : w.kind ≠ .newline)
    (hbegins : ∃ v vs, ws = v :: vs ∧ opensPattern v.kind = true)
    (hpattern : Takes env depth (ws ++ .verbatim .comma "," :: w :: us)
      (.verbatim .comma "," :: w :: us) g.pattern (SamePattern p))
    (hV : ∀ a, SamePattern p a → V (acc ++ [a])) :
    Takes env depth (ws ++ .verbatim .comma "," :: w :: us) (w :: us) (elementRound g acc)
      fun r => ∃ next, r = .inl next ∧ V next := by
  refine takes_elementRound hbegins hpattern fun a ha => ?_
  refine (takes_skipNewlines (by decide)).bind fun _ _ => ?_
  refine .ite_check .comma (fun _ => ?_) fun hne => absurd rfl hne
  refine (takes_consume (by decide)).bind fun _ _ => ?_
  exact (takes_skipNewlines hline).bind fun _ _ => takes_pure ⟨_, rfl, hV a ha⟩

/-- Where no element is left, the round takes the rest name, if there is one, and is the last. -/
theorem takes_finalRound {g : Grammar} {acc : List Pattern} {rest : Option String} {w : Word}
    {us : List Word} {V : ArrayPattern → Prop} (hw : w.kind = .rightBracket) (hV : V ⟨acc, rest⟩) :
    Takes env depth (Word.join (restWords rest) ++ w :: us) (w :: us) (elementRound g acc)
      fun r => ∃ found, r = .inr found ∧ V found := by
  cases rest with
  | none =>
      exact .ite_check .rightBracket (fun _ => takes_pure ⟨_, rfl, hV⟩) fun hne => absurd hw hne
  | some name =>
      refine .ite_check .rightBracket (fun heq => by cases heq) fun _ => ?_
      refine .ite_check .ellipsis (fun _ => ?_) fun hne => absurd rfl hne
      refine (takes_restPattern hw).bind ?_
      rintro _ rfl
      exact takes_pure ⟨_, rfl, hV⟩

/-- The elements that are left, and the rest name, are read in turn. What was read before is
    given up to positions, as the elements are. -/
theorem takes_elementRounds {g : Grammar} {rest : Option String} {elements : List Pattern}
    {words : Pattern → List Word} {w : Word} {us : List Word} (hw : w.kind = .rightBracket)
    (hbegins : ∀ e ∈ elements, ∃ v vs, words e = v :: vs ∧ opensPattern v.kind = true)
    (helement : ∀ e ∈ elements, ∀ vs,
      Takes env depth (words e ++ vs) vs g.pattern (SamePattern e))
    {done acc : List Pattern} (hacc : skeletonPatterns acc = skeletonPatterns done) {n : Nat}
    (hn : elements.length < n) :
    Takes env depth (Word.join (elements.map words ++ restWords rest) ++ w :: us) (w :: us)
      (iterate (elementRound g) n acc) fun result =>
        skeletonPatterns result.elements = skeletonPatterns (done ++ elements) ∧
          result.rest = rest := by
  obtain ⟨n, rfl⟩ : ∃ k, n = k + 1 := ⟨n - 1, by omega⟩
  -- By induction on the elements that are left. A comma is behind all but the last item, and
  -- that is an element or the rest name.
  induction elements generalizing done acc n with
  | nil =>
      rw [List.append_nil]
      exact .iterate_done (takes_finalRound hw ⟨hacc, rfl⟩)
  | cons e elements ih =>
      have hfirst := hbegins e List.mem_cons_self
      have hnext : ∀ a, SamePattern e a →
          skeletonPatterns (acc ++ [a]) = skeletonPatterns (done ++ [e]) := by
        intro a ha
        simp only [skeletonPatterns_eq] at hacc ⊢
        rw [List.map_append, List.map_append, hacc, List.map_singleton, List.map_singleton, ha]
      rw [List.map_cons, List.cons_append]
      cases htail : elements.map words ++ restWords rest with
      | nil =>
          rw [List.append_eq_nil_iff, List.map_eq_nil_iff] at htail
          rcases htail with ⟨rfl, hnone⟩
          cases rest with
          | some name => cases hnone
          | none =>
              exact .iterate_done (takes_lastElement hw hfirst
                (helement e List.mem_cons_self _) fun a ha => ⟨hnext a ha, rfl⟩)
      | cons second others =>
          have hothers := beginsItem_elements rest
            fun e he => hbegins e (List.mem_cons_of_mem _ he)
          rw [htail] at hothers
          rcases join_ahead hothers (by rw [hw]; decide) us with ⟨x, xs, hahead, hx⟩
          obtain ⟨n, rfl⟩ : ∃ k, n = k + 1 := ⟨n - 1, by simp at hn; omega⟩
          have hrest := fun (a : List Pattern)
              (ha : skeletonPatterns a = skeletonPatterns (done ++ [e])) =>
            ih (fun e he => hbegins e (List.mem_cons_of_mem _ he))
              (fun e he => helement e (List.mem_cons_of_mem _ he)) ha n
              (Nat.lt_of_succ_lt_succ hn)
          rw [htail, List.append_assoc, List.singleton_append, hahead] at hrest
          have hjoined : Word.join (words e :: second :: others) ++ w :: us =
              words e ++ .verbatim .comma "," :: x :: xs := by
            rw [← hahead]
            simp only [Word.join, List.append_assoc, List.cons_append]
          rw [hjoined]
          exact .iterate_next (takes_nextElement hx hfirst (helement e List.mem_cons_self _) hnext)
            hrest

/-- The words of an array pattern, of whose elements the words are known. -/
def arrayWords (words : Pattern → List Word) (elements : List Pattern) (rest : Option String) :
    List Word :=
  .verbatim .leftBracket "[" ::
    (Word.join (elements.map words ++ restWords rest) ++ [Word.verbatim .rightBracket "]"])

/-- The text of an array pattern is read as its words, if those of its elements are. -/
theorem reads_array {words : Pattern → List Word} {elements : List Pattern}
    {rest : Option String}
    (helements : ∀ e ∈ elements, Lexer.Reads (SourcePrinter.plain.pattern e).toList (words e))
    (hrest : ∀ name ∈ rest, Lexer.IsPlain name) (q : Position) :
    Lexer.Reads (SourcePrinter.plain.pattern (.array elements rest q)).toList
      (arrayWords words elements rest) := by
  have hnames : List.Forall₂ (fun text ws => Lexer.Reads text.toList ws)
      (SourcePrinter.restTexts rest) (restWords rest) := by
    cases rest with
    | none => exact .nil
    | some name => exact .cons (reads_rest (hrest name rfl)) .nil
  have hitems := Lexer.Reads.join (List.rel_append (Lexer.reads_map helements) hnames)
  rw [SourcePrinter.pattern_array, String.toList_append, String.toList_append, List.append_assoc]
  exact hitems.enclosed .bracket .closingBracket

/-- The words of an array pattern are taken as this pattern, if those of its elements are. They
    are read one after the other, and the name of the rest behind them. -/
theorem takes_arrayPattern {g : Grammar} {words : Pattern → List Word} {elements : List Pattern}
    (rest : Option String)
    (hbegins : ∀ e ∈ elements, ∃ v vs, words e = v :: vs ∧ opensPattern v.kind = true)
    (helement : ∀ e ∈ elements, ∀ vs,
      Takes env depth (words e ++ vs) vs g.pattern (SamePattern e)) (q : Position)
    (us : List Word) :
    Takes env depth (arrayWords words elements rest ++ us) us (arrayPattern g)
      (SamePattern (.array elements rest q)) := by
  rw [arrayWords, List.cons_append, List.append_assoc, List.singleton_append]
  refine (takes_expect rfl (by decide)).bind fun opening _ => ?_
  have hitems := beginsItem_elements rest hbegins
  have hclosing : (Word.verbatim .rightBracket "]").kind ≠ .newline := nofun
  rcases join_ahead hitems hclosing us with ⟨x, xs, hahead, hx⟩
  have hlist : Takes env depth (x :: xs) (.verbatim .rightBracket "]" :: us)
      (loop [] (elementRound g)) fun result =>
        skeletonPatterns result.elements = skeletonPatterns elements ∧ result.rest = rest := by
    -- There are no more elements than words, so the rounds suffice.
    refine .loop fun k hk => ?_
    have hlength := length_le_join hitems
    rw [← hahead, List.length_append] at hk
    rw [List.length_append, List.length_map] at hlength
    rw [← hahead]
    exact takes_elementRounds rfl hbegins helement rfl (by omega)
  rw [hahead]
  refine (takes_skipNewlines hx).bind fun _ _ => hlist.bind fun result hresult => ?_
  refine (takes_expectClosing opening rfl (by decide)).bind fun _ _ => takes_pure ?_
  rw [SamePattern, Pattern.skeleton, Pattern.skeleton, hresult.1, hresult.2]

/-- An array pattern is printed as words and restored from them, if its elements are. -/
theorem restores_array {elements : List Pattern} {rest : Option String} {q : Position}
    (hguard : env.guard.Admits depth)
    (helements : ∀ e ∈ elements, ∃ ws, Restores registry env (depth + 1) e ws)
    (hrest : ∀ name ∈ rest, Lexer.IsPlain name) :
    ∃ ws, Restores registry env depth (.array elements rest q) ws := by
  choose! words hwords using helements
  have hreads := reads_array (fun e he => (hwords e he).reads) hrest q
  refine ⟨arrayWords words elements rest, hreads, ⟨_, _, rfl, rfl⟩, fun n us hn => ?_⟩
  obtain ⟨n, rfl⟩ : ∃ k, n = k + 1 := ⟨n - 1, by omega⟩
  have hbegins := fun e he => (hwords e he).begins
  refine .nested hguard (takes_current.bind fun t ht => ?_)
  rw [ht.kind]
  refine takes_arrayPattern rest hbegins (fun e he vs => (hwords e he).takes n vs ?_) q us
  have hlength := Word.length_le_join
    (List.mem_append_left (restWords rest) (List.mem_map_of_mem (f := words) he))
  simp only [arrayWords, List.length_cons, List.length_append, List.length_nil] at hn
  omega

/-! ### Object patterns -/

/-- A field behind all others is added at the end. -/
theorem insert?_last {key : String} {pattern : Pattern} {fields : List PatternField}
    (h : ∀ f ∈ fields, f.key < key) :
    PatternField.insert? key pattern fields = some (fields ++ [PatternField.mk key pattern]) := by
  induction fields with
  | nil => rfl
  | cons f rest ih =>
      have hf := h f List.mem_cons_self
      have hne : key ≠ f.key := by
        rintro rfl
        exact String.lt_irrefl _ hf
      rw [PatternField.insert?, if_neg (String.lt_asymm hf), if_neg hne,
        ih fun g hg => h g (List.mem_cons_of_mem _ hg)]
      rfl

theorem keys_eq_of_skeleton {fields fields' : List PatternField}
    (h : skeletonFields fields = skeletonFields fields') :
    fields.map PatternField.key = fields'.map PatternField.key := by
  have hkey : ∀ f : PatternField, f.skeleton.key = f.key := fun f => by cases f; rfl
  have hkeys := congrArg (List.map PatternField.key) h
  simpa only [skeletonFields_eq, List.map_map, Function.comp_def, hkey] using hkeys

/-- A field is taken behind those that come before it. Its key is greater than all of theirs, so
    it is inserted at the end of what was read. -/
theorem takes_patternField {g : Grammar} {f : PatternField} {w : Word} {us rest : List Word}
    (hkind : isPatternKey w.kind = true) (htext : w.text = f.key)
    (hopens : ∃ v vs, us = v :: vs ∧ opensPattern v.kind = true)
    (hpattern : Takes env depth (us ++ rest) rest g.pattern (SamePattern f.pattern))
    {done acc : List PatternField} (hacc : skeletonFields acc = skeletonFields done)
    (hlast : ∀ d ∈ done, d.key < f.key) :
    Takes env depth (w :: .verbatim .colon ":" :: (us ++ rest)) rest (patternField g acc)
      fun fields => skeletonFields fields = skeletonFields (done ++ [f]) := by
  refine takes_current.bind fun key hkey => ?_
  rw [hkey.kind, hkind]
  have hend : w.kind ≠ .endOfInput := by
    rintro heq
    rw [heq] at hkind
    cases hkind
  refine (takes_consume hend).bind fun _ _ => (takes_expect rfl (by simp)).bind fun _ _ => ?_
  -- A pattern does not begin with a newline.
  have hahead : Takes env depth (us ++ rest) (us ++ rest) skipNewlines fun _ => True := by
    rcases hopens with ⟨v, vs, rfl, hv⟩
    refine takes_skipNewlines fun hline => ?_
    rw [hline] at hv
    cases hv
  refine hahead.bind fun _ _ => hpattern.bind fun q hq => ?_
  -- The fields read so far have the keys of those printed so far, which come before this one.
  have hbehind : ∀ d ∈ acc, d.key < f.key := by
    have hkeys := keys_eq_of_skeleton hacc
    intro d hd
    have hmem : d.key ∈ done.map PatternField.key := hkeys ▸ List.mem_map_of_mem hd
    rcases List.mem_map.1 hmem with ⟨e, he, heq⟩
    exact heq ▸ hlast e he
  rw [hkey.text, htext, insert?_last hbehind]
  refine takes_pure ?_
  simp only [skeletonFields_eq] at hacc ⊢
  rw [List.map_append, List.map_append, hacc, List.map_singleton, List.map_singleton]
  cases f
  rw [PatternField.skeleton, PatternField.skeleton, hq]
  rfl

/-- The words of a field, of whose key and pattern the words are known. -/
def fieldWords (key : PatternField → Word) (words : PatternField → List Word)
    (f : PatternField) : List Word :=
  key f :: .verbatim .colon ":" :: words f

/-- The words of an object pattern. -/
def objectWords (key : PatternField → Word) (words : PatternField → List Word)
    (fields : List PatternField) : List Word :=
  .verbatim .leftBrace "\x7b" ::
    (Word.join (fields.map (fieldWords key words)) ++ [Word.verbatim .rightBrace "\x7d"])

section

variable {key : PatternField → Word} {words : PatternField → List Word}
  {fields : List PatternField} (hkeys : ∀ f ∈ fields, SourcePrinter.IsKeyWord f.key (key f))

include hkeys

/-- The text of an object pattern is read as its words, if those of its fields are. -/
theorem reads_object
    (hfields : ∀ f ∈ fields,
      Lexer.Reads (SourcePrinter.plain.pattern f.pattern).toList (words f)) (q : Position) :
    Lexer.Reads (SourcePrinter.plain.pattern (.object fields q)).toList
      (objectWords key words fields) := by
  have hfield : ∀ f ∈ fields, Lexer.Reads (SourcePrinter.patternKey f.key ++ ": " ++
      SourcePrinter.plain.pattern f.pattern).toList (fieldWords key words f) := by
    intro f hf rest hrest
    have hcolon : Lexer.Row (':' :: ' ' :: _) _ rest := .mark .colon (hfields f hf rest hrest).space
    have hrow := ((hkeys f hf).lexeme.reads _ (.mark (by decide))).append hcolon
    rw [(hkeys f hf).spelling] at hrow
    simpa [fieldWords] using hrow
  rw [SourcePrinter.pattern_object, String.toList_append, String.toList_append, List.append_assoc]
  exact (Lexer.Reads.join (Lexer.reads_map hfield)).enclosed .brace .closingBrace

/-- The words of an object pattern are taken as this pattern, if its fields are sorted and the
    words of each are taken as its pattern. -/
theorem takes_objectPattern {g : Grammar} (hsorted : PatternField.Sorted fields)
    (hbegins : ∀ f ∈ fields, ∃ v vs, words f = v :: vs ∧ opensPattern v.kind = true)
    (hpattern : ∀ f ∈ fields, ∀ vs,
      Takes env depth (words f ++ vs) vs g.pattern (SamePattern f.pattern)) (q : Position)
    (us : List Word) :
    Takes env depth (objectWords key words fields ++ us) us (objectPattern g)
      (SamePattern (.object fields q)) := by
  rw [objectWords, List.cons_append, List.append_assoc, List.singleton_append]
  refine (takes_expect rfl (by decide)).bind fun opening _ => ?_
  have hlist : Takes env depth
      (Word.join (fields.map (fieldWords key words)) ++ Word.verbatim .rightBrace "\x7d" :: us)
      (.verbatim .rightBrace "\x7d" :: us) (commaList .rightBrace [] (patternField g))
      fun acc => skeletonFields acc = skeletonFields fields := by
    refine takes_commaList (R := fun done acc => skeletonFields acc = skeletonFields done)
      rfl (by decide) (fun f hf => ?_) (fun done f acc rest hinitial hacc _ => ?_) rfl
    · have hkind := (hkeys f hf).kind
      refine ⟨_, _, rfl, ?_, ?_⟩ <;>
        · rintro heq
          rw [heq] at hkind
          cases hkind
    · -- The fields that were read are a first part of them, whose keys come before this one.
      have hf : f ∈ fields := hinitial.subset (List.mem_append_right _ (List.mem_singleton_self f))
      have hlast : ∀ d ∈ done, d.key < f.key := by
        have hpairwise := List.Pairwise.sublist hinitial.sublist hsorted
        exact fun d hd => (List.pairwise_append.1 hpairwise).2.2 d hd f
          (List.mem_singleton_self f)
      exact takes_patternField (hkeys f hf).kind (hkeys f hf).text (hbegins f hf)
        (hpattern f hf rest) hacc hlast
  refine hlist.bind fun result hresult => ?_
  refine (takes_expectClosing opening rfl (by decide)).bind fun _ _ => takes_pure ?_
  rw [SamePattern, Pattern.skeleton, Pattern.skeleton, hresult]

end

/-- An object pattern is printed as words and restored from them, if its fields are sorted, their
    patterns are restored and their keys can be quoted. -/
theorem restores_object {fields : List PatternField} {q : Position}
    (hguard : env.guard.Admits depth) (hsorted : PatternField.Sorted fields)
    (hfields : ∀ f ∈ fields, ∃ ws, Restores registry env (depth + 1) f.pattern ws)
    (hkeys : ∀ f ∈ fields, ∀ c ∈ f.key.toList, SourcePrinter.isQuotable c = true) :
    ∃ ws, Restores registry env depth (.object fields q) ws := by
  choose! words hwords using hfields
  have hexists := fun f hf => SourcePrinter.exists_keyWord (hkeys f hf)
  choose! key hkey using hexists
  have hreads := reads_object hkey (fun f hf => (hwords f hf).reads) q
  refine ⟨objectWords key words fields, hreads, ⟨_, _, rfl, rfl⟩, fun n us hn => ?_⟩
  obtain ⟨n, rfl⟩ : ∃ k, n = k + 1 := ⟨n - 1, by omega⟩
  have hbegins := fun f hf => (hwords f hf).begins
  refine .nested hguard (takes_current.bind fun t ht => ?_)
  rw [ht.kind]
  refine takes_objectPattern hkey hsorted hbegins (fun f hf vs => (hwords f hf).takes n vs ?_) q us
  have hlength := Word.length_le_join (List.mem_map_of_mem (f := fieldWords key words) hf)
  simp only [objectWords, List.length_cons, List.length_append, List.length_nil] at hn
  rw [fieldWords, List.length_cons, List.length_cons] at hlength
  omega

/-! ### All patterns -/

/-- A pattern as parsers return it is restored, unless it has bit strings or keys that
    cannot be quoted. -/
theorem restores (h : p.Canonical env.guard depth) (hbits : p.hasBits = false)
    (hkeys : ∀ key ∈ p.keys, ∀ c ∈ key.toList, SourcePrinter.isQuotable c = true) :
    ∃ ws, Restores registry env depth p ws := by
  -- The induction is on the form, in which the depth grows with each bracket.
  induction h with
  | literal hguard hword hlexeme hnormal =>
      exact ⟨_, restores_literal hguard hword hlexeme hnormal⟩
  | negated hguard hnormal hzero => exact ⟨_, restores_negated hguard hnormal hzero⟩
  | capture hguard hname => exact ⟨_, restores_capture hguard hname⟩
  | wildcard hguard => exact ⟨_, restores_wildcard hguard⟩
  | array hguard _ hrest ih =>
      rw [Pattern.hasBits, elementsHaveBits_eq, List.any_eq_false] at hbits
      rw [Pattern.keys, elementKeys_eq] at hkeys
      refine restores_array hguard (fun e he => ?_) hrest
      exact ih e he (by simpa using hbits e he)
        fun key hkey => hkeys key (List.mem_flatMap.2 ⟨e, he, hkey⟩)
  | object hguard hsorted _ ih =>
      rw [Pattern.hasBits, fieldsHaveBits_eq, List.any_eq_false] at hbits
      rw [Pattern.keys, fieldKeys_eq] at hkeys
      refine restores_object hguard hsorted (fun f hf => ?_) fun f hf => ?_
      · exact ih f hf (by simpa using hbits f hf) fun key hkey =>
          hkeys key (List.mem_flatMap.2 ⟨f, hf, List.mem_cons_of_mem _ hkey⟩)
      · exact hkeys f.key (List.mem_flatMap.2 ⟨f, hf, List.mem_cons_self⟩)
  | bitstring => cases hbits

end

end Parse

open SourcePrinter in
/-- A pattern that was parsed is read back from its printed text, apart from positions, if
    it has no bit strings and no keys with control characters whose escapes the lexer does
    not know. -/
theorem printed_patterns_read_back (s : Settings) (source : String) (p : Pattern)
    (hparse : (Parser.ofSettings s).parsePattern source = .ok p) (hbits : p.hasBits = false)
    (hkeys : ∀ key ∈ p.keys, ∀ c ∈ key.toList, isQuotable c = true) :
    ∃ q, (Parser.ofSettings s).parsePattern (plain.pattern p) = .ok q ∧
      q.skeleton = p.skeleton := by
  have hcanonical := Parser.canonical_of_parsePattern hparse
  have hrestores : ∃ ws, Parse.Restores (Parser.ofSettings s).registry
      ((Parser.ofSettings s).env (plain.pattern p)) 0 p ws :=
    Parse.restores hcanonical hbits hkeys
  rcases hrestores with ⟨ws, h⟩
  have hrow := h.reads [] .finish
  rw [List.append_nil] at hrow
  -- Each word takes a byte at least, so there are levels enough for all of them.
  have hlevels : ws.length < 4 * (plain.pattern p).utf8ByteSize + 8 := by
    have hle := Nat.le_trans hrow.length_le (Position.length_le_byteCount (plain.pattern p).toList)
    rw [← byteSize_eq] at hle
    omega
  have hwhole := h.takes _ [.finish] hlevels
  rcases h.begins with ⟨w, us, rfl, hopens⟩
  have hseparator : Parse.isSeparator w.kind = false := by
    cases hkind : w.kind <;> rw [hkind] at hopens <;> first | rfl | cases hopens
  exact Parse.run_of_takes hrow (Parse.takes_wholeText hseparator hwhole)

open SourcePrinter in
/-- Keys that are quoted and one that is not, a negative number and a rest. -/
theorem printed_patterns_read_back_nested :
    let source := "\x7bpy: x, 'if': [-0x2A, ...more], 'a b\\n': [true, '\\u\x7b8\x7d', _]\x7d"
    let parse := (Parser.ofSettings Settings.defaults).parsePattern
    ∃ p, parse source = .ok p ∧ p.hasBits = false ∧
      (∀ key ∈ p.keys, ∀ c ∈ key.toList, isQuotable c = true) ∧
      plain.pattern p =
        "\x7b\"a b\\n\": [true, '\\u\x7b8\x7d', _], \"if\": [-42, ...more], py: x\x7d" ∧
      ∃ q, parse (plain.pattern p) = .ok q ∧ q.skeleton = p.skeleton := by
  intro source parse
  -- What can be evaluated about the pattern. That it is read back is left to the theorem.
  have hfacts : (parse source).toOption.map (fun p => (p.hasBits, p.keys, plain.pattern p)) =
      some (false, ["a b\n", "if", "py"],
        "\x7b\"a b\\n\": [true, '\\u\x7b8\x7d', _], \"if\": [-42, ...more], py: x\x7d") := by
    decide +kernel
  cases hparse : parse source with
  | error e =>
      rw [hparse] at hfacts
      cases hfacts
  | ok p =>
      rw [hparse] at hfacts
      injection hfacts with hfacts
      injection hfacts with hbits hfacts
      injection hfacts with hkeys htext
      have hall : ∀ key ∈ p.keys, key.toList.all isQuotable = true := by
        rw [hkeys]
        decide +kernel
      have hquotable : ∀ key ∈ p.keys, ∀ c ∈ key.toList, isQuotable c = true :=
        fun key hkey => List.all_eq_true.1 (hall key hkey)
      exact ⟨p, rfl, hbits, hquotable, htext,
        printed_patterns_read_back Settings.defaults source p hparse hbits hquotable⟩

open SourcePrinter in
/-- A backspace in a key is printed as an escape that the lexer does not know. -/
theorem printed_key_lost :
    ¬∀ source p, (Parser.ofSettings Settings.defaults).parsePattern source = .ok p →
      p.hasBits = false →
      ∃ q, (Parser.ofSettings Settings.defaults).parsePattern (plain.pattern p) = .ok q ∧
        q.skeleton = p.skeleton := by
  intro h
  let parse := (Parser.ofSettings Settings.defaults).parsePattern
  have hfacts : (parse "\x7b\"\\u\x7b8\x7d\": x\x7d").toOption.map
      (fun p => (p.hasBits, plain.pattern p)) = some (false, "\x7b\"\\b\": x\x7d") := by
    decide +kernel
  -- What is printed for this key is no pattern at all.
  have hlost : (parse "\x7b\"\\b\": x\x7d").toOption.isNone = true := by
    decide +kernel
  cases hparse : parse "\x7b\"\\u\x7b8\x7d\": x\x7d" with
  | error e =>
      rw [hparse] at hfacts
      cases hfacts
  | ok p =>
      rw [hparse] at hfacts
      injection hfacts with hfacts
      injection hfacts with hbits htext
      rcases h _ p hparse hbits with ⟨q, hq, -⟩
      rw [htext] at hq
      have hread : parse "\x7b\"\\b\": x\x7d" = .ok q := hq
      rw [hread] at hlost
      cases hlost

end PolyScript
