import PolyScript.Proofs.RecoveredOperands

/-!
# Parsed Segments Are Recovered from Print

The specifiers of a segment are those of atoms that were read in some mode, and which can be
read in that mode again. So a segment is recovered if its specifiers do not fuse, and its value
and its size are recovered by the rules that they came from.

## Theorems

* `Parse.comes_grouped`: Expressions in parentheses.
* `Parse.comes_specifierLists`: The specifiers of a segment.
* `Parse.comes_segmentValue`, `Parse.comes_sizeClause`, `Parse.comes_segment`: The parts of a
  segment.
* `Parse.comes_bitstring`: The segments of a bit string.
-/

namespace PolyScript

namespace Parse

open Lexer (Suited)

variable {α : Type} {P : Parser} {source : String} {g : Grammar} {depth : Nat} {m m' : Bool}
  {τ υ : Tape (P.env source).source} {e : Expr} {inPattern : Bool}

/-! ### Groups -/

theorem comes_grouped (hg : Repeats P source g) :
    Comes (P.env source) depth m τ (grouped g) fun e m' _ => e.isQualified = false ∧
      (e.Printable → ∃ ps,
        ReprintsBy grouped (fun _ => True) P depth e m (.mark .leftParen "(" :: ps) m') := by
  refine .expect fun _ => .skipNewlines fun _ υ => (hg.expression depth m υ).bind
    fun e m' χ he => .skipNewlines fun _ _ => .expectClosing (.pure ⟨rfl, fun hprintable => ?_⟩)
  rcases he (hprintable.part fun _ hx => hx) with ⟨ps, hps⟩
  exact ⟨_, printsAs_grouped hps.printsAs.prints, regains_grouped hps _⟩

/-! ### Specifiers -/

/-- Specifiers are those of atoms that can be read in a mode. -/
def AreSpecifiers (m : Bool) (names : List String) : Prop :=
  ∃ atoms : List SpecifierAtom, (∀ a ∈ atoms, a.Fits m) ∧
    atoms.flatMap SpecifierAtom.specifiers = names

theorem AreSpecifiers.concat {names : List String} (h : AreSpecifiers m names)
    {a : SpecifierAtom} (ha : a.Fits m) : AreSpecifiers m (names ++ a.specifiers) := by
  rcases h with ⟨atoms, hatoms, rfl⟩
  refine ⟨atoms ++ [a], fun b hb => ?_, by simp⟩
  rcases List.mem_append.1 hb with hb | hb
  · exact hatoms b hb
  · rwa [List.mem_singleton.1 hb]

/-- One round of specifiers appends one with its parameter, or ends. In size mode no name has a
    dash, so a dash is always one between two specifiers. -/
theorem comes_specifierRound {names : List String} (h : AreSpecifiers m names) :
    Comes (P.env source) depth m τ (specifierRound names) fun r m' _ =>
      r.elim (fun names => m' = m ∧ AreSpecifiers m names)
        fun names => m' = m ∧ AreSpecifiers m names := by
  refine .undashed fun hundashed => .expect fun hkind => ?_
  have hplain : Lexer.IsPlain τ.head.text := (τ.form 0).isPlain hkind
  have hdashes : m = true → '-' ∉ τ.head.text.toList :=
    (hundashed.suited_head (by rw [hkind]; rfl)).1.undashed
  -- Behind the atom and its parameter only the dash is left to look at.
  have hrest : ∀ (a : SpecifierAtom) (υ : Tape (P.env source).source), a.Fits m →
      Comes (P.env source) depth m υ (do
        if ← check .minus then
          let _ ← consume
          return .inl (names ++ a.specifiers)
        else return .inr (names ++ a.specifiers) : Parse (List String ⊕ List String)) fun r m' _ =>
          r.elim (fun names => m' = m ∧ AreSpecifiers m names)
            fun names => m' = m ∧ AreSpecifiers m names := fun a υ ha =>
    .ite_check (fun _ => .consume (.pure ⟨rfl, h.concat ha⟩)) fun _ => .pure ⟨rfl, h.concat ha⟩
  refine .ite_check (fun _ => .consume (.undashed fun hbehind => .current
    (.ite (fun hvalue => .consume ?_) fun _ => ?_))) fun _ => ?_
  · rw [Bool.or_eq_true, decide_eq_true_eq, decide_eq_true_eq] at hvalue
    rcases hvalue with hnumber | hname
    · refine hrest ⟨τ.head.text, some (.number τ.tail.tail.head.text)⟩ _
        ⟨hplain, hdashes, fun param hparam => ?_⟩
      cases hparam
      exact (τ.tail.tail.form 0).isNumeral hnumber
    · refine hrest ⟨τ.head.text, some (.name τ.tail.tail.head.text)⟩ _
        ⟨hplain, hdashes, fun param hparam => ?_⟩
      cases hparam
      exact ⟨(τ.tail.tail.form 0).isPlain hname,
        (hbehind.suited_head (by rw [hname]; rfl)).1.undashed⟩
  · exact .bind (R := fun _ _ _ => False) .throw fun _ _ _ hfalse => hfalse.elim
  · exact hrest ⟨τ.head.text, none⟩ _ ⟨hplain, hdashes, fun _ hparam => by cases hparam⟩

/-- The specifiers of a segment are recovered, however many lists they are given in. -/
theorem comes_specifierLists :
    Comes (P.env source) depth m τ specifierLists
      fun names m' _ => m' = m ∧ AreSpecifiers m names := by
  have hnone : AreSpecifiers m [] := ⟨[], fun _ ha => absurd ha List.not_mem_nil, rfl⟩
  refine .loop (I := fun names m' _ => m' = m ∧ AreSpecifiers m names) ⟨rfl, hnone⟩ ?_
  rintro names k υ ⟨rfl, hnames⟩
  refine .ite_check (fun _ => .consume ?_) fun _ => .pure ⟨rfl, hnames⟩
  refine Comes.bind (R := fun names m' _ => m' = k ∧ AreSpecifiers k names) ?_
    fun names m' _ h => .pure h
  rw [specifierList_eq]
  refine .loop (I := fun names m' _ => m' = k ∧ AreSpecifiers k names) ⟨rfl, hnames⟩ ?_
  rintro names l υ ⟨rfl, hnames⟩
  exact comes_specifierRound hnames

/-! ### Values and sizes -/

section

variable (hP : P.languages = .ofList Language.defaults)

include hP

/-- The value of a segment is recovered. Which rule reads it is known from the first token and,
    for a sign and for a name in a pattern, from the second one. -/
theorem comes_segmentValue (hg : Repeats P source g) :
    Comes (P.env source) depth m τ (segmentValue g inPattern) fun e m' _ =>
      Recovers (ReprintsBy (segmentValue · inPattern) EndsPart P depth) m e m' := by
  have hreference (hname : inPattern = false ∧ τ.head.kind = .identifier ∨
      τ.head.kind = .language) : Comes (P.env source) depth m τ (reference g) fun e m' _ =>
        Recovers (ReprintsBy (segmentValue · inPattern) EndsPart P depth) m e m' := by
    have hmember : isMemberName τ.head.kind = true := by
      rcases hname with ⟨-, hname⟩ | hname <;>
        · rw [hname]
          rfl
    refine (comes_reference hP hg hmember).imp fun e m' υ he hprintable => ?_
    rcases he.1.2 hprintable with ⟨name, ps, hkind, hps⟩
    rw [← hkind] at hname
    exact ⟨_, hps.printsAs,
      (hps.regains.value_reference hname).mono fun us hus => hus.unjoined e m'⟩
  refine .undashed fun hundashed => .current ?_
  split
  · rename_i hkind
    refine .literal fun e he _ => ?_
    rcases literal_recovered (τ.form 0) he with ⟨w, hword, hw, hprints⟩
    exact ⟨_, hprints m, regains_value_literal hword (.inl (hw.trans hkind))⟩
  · rename_i hkind
    refine .literal fun e he _ => ?_
    rcases literal_recovered (τ.form 0) he with ⟨w, hword, hw, hprints⟩
    exact ⟨_, hprints m, regains_value_literal hword (.inr (hw.trans hkind))⟩
  · refine .peekKind 1 (.ite (fun hnumber => ?_) fun _ => .throw)
    refine .consume ((Comes.literal (Q := fun e m' _ => m' = m ∧
      literalOf (P.env source).source τ.tail.head = .ok e) fun e he => ⟨rfl, he⟩).bind ?_)
    rintro e _ υ ⟨rfl, he⟩
    rcases literal_recovered (τ.form 1) he with ⟨w, hword, hw, hprints⟩
    exact .pure fun _ => ⟨_, printsAs_unary (hprints _),
      regains_value_negative hword (hw.trans hnumber)⟩
  · rename_i hkind
    cases inPattern with
    | false => exact hreference (.inl ⟨rfl, hkind⟩)
    | true =>
        -- In front of a dot the rule for references is asked, but it takes the name alone.
        have hname : ∀ {e : Expr} {m' : Bool}, IsPlainName m e ∧ m' = m →
            Recovers (ReprintsBy (segmentValue · true) EndsPart P depth) m e m' := by
          rintro e _ ⟨⟨name, p, rfl, hsuited, hidentifier⟩, rfl⟩ -
          exact ⟨_, printsAs_name hsuited hidentifier, regains_value_name hidentifier⟩
        refine .peekKind 1 (.ite (fun hdot => ?_) fun _ => ?_)
        · exact (comes_reference hP hg (by rw [hkind]; rfl)).imp fun e m' υ he =>
            hname (he.2 hkind hdot)
        · exact (comes_identifier hkind).imp fun e m' υ he => hname ⟨he.1, he.2.1⟩
  · rename_i hkind
    exact hreference (.inr hkind)
  · refine (comes_grouped hg).imp fun e m' _ he hprintable => ?_
    rcases he.2 hprintable with ⟨ps, hps⟩
    exact ⟨_, hps.printsAs, hps.regains.value_grouped.mono fun _ _ => trivial⟩
  · refine .ite (fun hpattern => ?_) fun _ => .throw
    subst hpattern
    exact .consume (.pure fun _ => ⟨_, printsAs_underscore, regains_value_underscore⟩)
  · exact .throw

/-- The size of a segment is recovered, one case for each rule that reads one: a number, a
    reference, an expression in parentheses. -/
theorem comes_segmentSize (hg : Repeats P source g) :
    Comes (P.env source) depth m τ (segmentSize g) fun e m' _ =>
      Recovers (ReprintsBy segmentSize EndsPart P depth) m e m' := by
  have hreference (hname : isMemberName τ.head.kind = true) :
      Comes (P.env source) depth m τ (reference g) fun e m' _ =>
        Recovers (ReprintsBy segmentSize EndsPart P depth) m e m' := by
    refine (comes_reference hP hg hname).imp fun e m' υ he hprintable => ?_
    -- Only a name with what follows it is printed, which the size takes for a reference again.
    rcases he.1.2 hprintable with ⟨name, ps, hkind, hps⟩
    rw [← hkind] at hname
    exact ⟨_, hps.printsAs,
      (hps.regains.size_reference hname).mono fun us hus => hus.unjoined e m'⟩
  refine .current ?_
  split
  · rename_i hkind
    refine .literal fun e he _ => ?_
    rcases literal_recovered (τ.form 0) he with ⟨w, hword, hw, hprints⟩
    exact ⟨_, hprints m, regains_size_literal hword (hw.trans hkind)⟩
  · rename_i hkind
    exact hreference (by rw [hkind]; rfl)
  · rename_i hkind
    exact hreference (by rw [hkind]; rfl)
  · refine (comes_grouped hg).imp fun e m' _ he hprintable => ?_
    rcases he.2 hprintable with ⟨ps, hps⟩
    exact ⟨_, hps.printsAs, hps.regains.size_grouped.mono fun _ _ => trivial⟩
  · exact .throw

/-- The size of a segment is recovered with its colon, or is not there. -/
theorem comes_sizeClause (hg : Repeats P source g) :
    Comes (P.env source) depth m τ (sizeClause g) fun size m' _ =>
      (∀ x ∈ sizeWithin size, x.PrintsWell) → ∃ sizes, ReprintsSize P depth size m sizes m' := by
  refine .ite_check (fun _ => .consume ?_) fun _ => .pure fun _ => ⟨none, .none⟩
  refine Comes.bind (R := fun e m' _ => m' = false ∧
    (e.Printable → ∃ ps m'', ReprintsBy segmentSize EndsPart P depth e true ps m'')) ?_ ?_
  · refine .inSizeMode fun υ => (comes_segmentSize hP hg).imp fun e m'' _ he χ => ⟨rfl, ?_⟩
    exact fun hprintable => (he hprintable).imp fun ps hps => ⟨m'', hps⟩
  · rintro e _ υ ⟨rfl, he⟩
    refine .pure fun hwell => ?_
    rcases he hwell with ⟨ps, m'', hps⟩
    exact ⟨_, .some hps⟩

/-! ### Segments -/

/-- A segment is recovered with its size and its specifiers, if what is in it prints well and
    nothing in it fuses. -/
theorem comes_segment (hg : Repeats P source g) :
    Comes (P.env source) depth m τ (segment g inPattern) fun s m' _ =>
      (∀ x ∈ s.value.within ++ sizeWithin s.size, x.PrintsWell) → s.Unfused →
        ∃ ps, ReprintsSegment P depth inPattern s m ps m' := by
  refine (comes_segmentValue hP hg).bind fun e m' υ he => ?_
  refine (comes_sizeClause hP hg).bind fun size m'' χ hsize => ?_
  refine comes_specifierLists.bind ?_
  rintro names _ ω ⟨rfl, atoms, hatoms, rfl⟩
  refine .pure fun hwell hunfused => ?_
  rcases he fun x hx => hwell x (List.mem_append_left _ hx) with ⟨ps, hps⟩
  rcases hsize fun x hx => hwell x (List.mem_append_right _ hx) with ⟨sizes, hsizes⟩
  -- The printer joins all atoms, so others may be read that stand for the same specifiers.
  rcases SpecifierAtom.exists_apart hatoms hunfused with ⟨apart, hfits, hapart, hsame⟩
  rw [← hsame]
  exact ⟨_, reprintsSegment hps hsizes hfits hapart⟩

/-- A list of segments is recovered segment by segment. The mode at the end of one is the mode at
    the start of the next. -/
theorem comes_segmentList (hg : Repeats P source g) :
    Comes (P.env source) depth m τ (segmentList g inPattern) fun ss m' _ =>
      (∀ x ∈ segmentsWithin ss, x.PrintsWell) → (∀ s ∈ ss, s.Unfused) →
        ∃ ps, Listed (ReprintsSegment P depth inPattern) ss m ps m' := by
  refine .skipNewlines fun _ υ => .ite_check (fun _ => .pure fun _ _ => ⟨[], .nil⟩) fun _ => ?_
  refine .loop (I := fun ss m' _ => (∀ x ∈ segmentsWithin ss, x.PrintsWell) →
    (∀ s ∈ ss, s.Unfused) → ∃ ps, Listed (ReprintsSegment P depth inPattern) ss m ps m')
    (fun _ _ => ⟨[], .nil⟩) fun ss m' υ hss => (comes_segment hP hg).bind fun s m'' χ hs => ?_
  -- The segments before were printed by the invariant, and this one is put behind them.
  have hnext : (∀ x ∈ segmentsWithin (ss ++ [s]), x.PrintsWell) →
      (∀ s' ∈ ss ++ [s], s'.Unfused) →
        ∃ ps, Listed (ReprintsSegment P depth inPattern) (ss ++ [s]) m ps m'' := by
    intro hwell hunfused
    have hwithin : segmentsWithin (ss ++ [s]) =
        segmentsWithin ss ++ (s.value.within ++ sizeWithin s.size) := by
      cases s
      exact segmentsWithin_concat _ _ _ _ _ _
    rw [hwithin] at hwell
    rcases hss (fun x hx => hwell x (List.mem_append_left _ hx))
      fun s' hs' => hunfused s' (List.mem_append_left _ hs') with ⟨ps, hps⟩
    rcases hs (fun x hx => hwell x (List.mem_append_right _ hx))
      (hunfused s (List.mem_append_right _ (List.mem_singleton_self s))) with ⟨qs, hqs⟩
    exact hps.concat hqs
  refine .skipNewlines fun _ _ => .ite_check (fun _ => ?_) fun _ => .pure hnext
  exact .consume (.skipNewlines fun _ _ => .ite_check (fun _ => .unexpected _)
    fun _ => .pure hnext)

/-- The segments of a bit string are recovered, one level deeper. -/
theorem comes_bitstring (hg : Repeats P source g) :
    Comes (P.env source) depth m τ (bitstring g inPattern) fun r m' _ =>
      P.guard.Admits depth ∧ ((∀ x ∈ segmentsWithin r.1, x.PrintsWell) →
        (∀ s ∈ r.1, s.Unfused) →
          ∃ ps, Listed (ReprintsSegment P (depth + 1) inPattern) r.1 m ps m') := by
  refine .expect fun _ => .nested fun hguard => (comes_segmentList hP hg).bind
    fun ss m' υ hss => .current (.ite (fun _ => .expectClosing (.pure ⟨hguard, hss⟩))
      fun _ => .throw)

end

end Parse

end PolyScript
