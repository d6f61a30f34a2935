import PolyScript.Match.Basic
import PolyScript.Proofs.Lookup

/-!
# What Patterns Bind

The names that a pattern binds can be read off its tree, and matching binds names one by
one. The two go through patterns on their own: one collects, the other evaluates and may
fail on the way. They agree, since a match that succeeds has visited every part of the
pattern.

Matching hands bindings on, so what it adds is stated relative to what was bound before.
`Bindings.Gains` says that some names have come to the bindings and nothing else has. A name
that is bound already is compared and not bound again, so each name has one value however
often it stands in a pattern.

Arms are tried in order. The arm that is selected is the first one that matches, whichever
index the search has begun with.

## Main definitions

* `Bindings.names`: The names that are bound.
* `Bindings.Gains`: Names have been added to bindings.

## Theorems

* `Pattern.gains_of_bind?`: A match adds the names of the pattern.
* `selectFrom?_eq_some_iff`: The arm that is selected.
* `bindings_agree`: Both for whole patterns and whole match statements.
-/

namespace PolyScript

/-! ### Names -/

namespace Bindings

/-- The names that are bound. -/
def names (b : Bindings) : List String := b.map Prod.fst

/-- Names have been added to bindings, each of them unless it was bound already. -/
structure Gains (before : Bindings) (new : List String) (after : Bindings) : Prop where
  mem_iff : ∀ name, name ∈ after.names ↔ name ∈ before.names ∨ name ∈ new
  nodup : before.names.Nodup → after.names.Nodup

namespace Gains

theorem refl (b : Bindings) : Gains b [] b := ⟨fun name => by simp, id⟩

theorem trans {b b' b'' : Bindings} {new new' : List String} (h : Gains b new b')
    (h' : Gains b' new' b'') : Gains b (new ++ new') b'' where
  mem_iff name := by rw [h'.mem_iff, h.mem_iff, List.mem_append, or_assoc]
  nodup := h'.nodup ∘ h.nodup

end Gains

end Bindings

open Bindings

/-- Binding a name adds it, unless it was bound before to an equal value. Then the bindings are
    the same, and the name was among them. -/
theorem gains_of_bindName? {b b' : Bindings} {name : String} {v : Value}
    (h : bindName? b name v = some b') : Gains b [name] b' := by
  unfold bindName? at h
  cases hlookup : b.lookup name with
  | some existing =>
      rw [hlookup] at h
      simp only [Option.ite_none_right_eq_some, Option.some.injEq] at h
      rcases h with ⟨-, rfl⟩
      -- The name is one of those that are bound.
      have hbound : name ∈ b.names := lookup_isSome_iff.1 (by rw [hlookup]; rfl)
      refine ⟨fun other => ⟨.inl, fun h => h.elim id fun h => ?_⟩, id⟩
      rw [List.mem_singleton.1 h]
      exact hbound
  | none =>
      rw [hlookup] at h
      cases h
      have hfree : name ∉ b.names := fun hmem => by
        have hfound := lookup_isSome_iff.2 hmem
        rw [hlookup] at hfound
        cases hfound
      have hnames : names (b ++ [(name, v)]) = b.names ++ [name] := List.map_append
      refine ⟨fun other => by rw [hnames, List.mem_append], fun hnodup => ?_⟩
      rw [hnames, List.nodup_append]
      refine ⟨hnodup, List.nodup_singleton _, fun other hother last hlast hsame => ?_⟩
      rw [List.mem_singleton.1 hlast] at hsame
      exact hfree (hsame ▸ hother)

/-! ### Bit strings -/

/-- What a segment stands for is bound to its name, if it is a name. Other values are only
    compared. -/
theorem gains_of_bindValue? {segment : BitSegment} {b b' : Bindings} {v : Value}
    (h : segment.bindValue? b v = some b') :
    Gains b (Pattern.segmentName? segment).toList b' := by
  by_cases hidentifier : ∃ name p, segment.value = .identifier name p
  · rcases hidentifier with ⟨name, p, hvalue⟩
    simp only [BitSegment.bindValue?, hvalue] at h
    simp only [Pattern.segmentName?, hvalue]
    split at h
    · cases h
      rw [if_pos (by assumption)]
      exact .refl _
    · rw [if_neg (by assumption)]
      exact gains_of_bindName? h
  -- A literal is compared and binds nothing.
  · have hnone : Pattern.segmentName? segment = none := by
      unfold Pattern.segmentName?
      split
      · exact absurd ⟨_, _, by assumption⟩ hidentifier
      · rfl
    rw [hnone]
    unfold BitSegment.bindValue? at h
    split at h
    · exact absurd ⟨_, _, by assumption⟩ hidentifier
    · split at h
      · simp only [Option.ite_none_right_eq_some, Option.some.injEq] at h
        rcases h with ⟨-, rfl⟩
        exact .refl _
      · cases h

/-- Taking a segment from some bits binds its name and nothing else. -/
theorem gains_of_take? {segment : BitSegment} {isLast : Bool} {b b' : Bindings}
    {bits rest : List Bool} (h : segment.take? isLast b bits = some (b', rest)) :
    Gains b (Pattern.segmentName? segment).toList b' := by
  unfold BitSegment.take? at h
  split at h
  · rename_i s hown
    -- A text that takes its own bytes is no name.
    have hname : Pattern.segmentName? segment = none := by
      unfold BitSegment.ownText? at hown
      unfold Pattern.segmentName?
      split at hown
      · rename_i hvalue _
        rw [hvalue]
      · cases hown
    simp only [Option.ite_none_right_eq_some, Option.some.injEq, Prod.mk.injEq] at h
    rcases h with ⟨-, rfl, -⟩
    rw [hname]
    exact .refl _
  -- Otherwise a name is bound at the very end, once nothing else can fail.
  · split at h
    · cases h
    · split at h
      · cases h
      · split at h
        · cases h
        · split at h
          · cases h
          · split at h
            · cases h
            · rcases Option.map_eq_some_iff.1 h with ⟨bound, hbound, hpair⟩
              cases hpair
              exact gains_of_bindValue? hbound

/-- Segments bind their names one after the other, by induction on them. -/
theorem gains_of_bindSegments? {segments : List BitSegment} {b b' : Bindings}
    {bits : List Bool} (h : bindSegments? segments b bits = some b') :
    Gains b (segments.filterMap Pattern.segmentName?) b' := by
  induction segments generalizing b bits with
  | nil =>
      rw [bindSegments?, Option.ite_none_right_eq_some] at h
      cases h.2
      exact .refl _
  | cons segment rest ih =>
      rw [bindSegments?] at h
      split at h
      · rename_i htake
        have hnames : (segment :: rest).filterMap Pattern.segmentName? =
            (Pattern.segmentName? segment).toList ++ rest.filterMap Pattern.segmentName? := by
          rw [List.filterMap_cons]
          cases Pattern.segmentName? segment <;> rfl
        rw [hnames]
        exact (gains_of_take? htake).trans (ih h)
      · cases h

/-! ### Patterns -/

namespace Pattern

mutual

/-- A match adds the names of the pattern. -/
theorem gains_of_bind? : ∀ (p : Pattern) {v : Value} {b b' : Bindings},
    p.bind? v b = some b' → Gains b p.boundNames b'
  | .wildcard _, v, b, b', h => by
      rw [bind?] at h
      cases h
      exact .refl _
  | .capture name _, v, b, b', h => gains_of_bindName? (by rwa [bind?] at h)
  | .literal e _, v, b, b', h => by
      rw [bind?] at h
      split at h
      · rw [Option.ite_none_right_eq_some] at h
        cases h.2
        exact .refl _
      · cases h
  | .array elements rest _, v, b, b', h => by
      cases v with
      | array items => exact gains_of_bindElements? elements (by rwa [bind?] at h)
      | _ => cases h
  | .object fields _, v, b, b', h => by
      cases v with
      | object members => exact gains_of_bindFields? fields (by rwa [bind?] at h)
      | _ => cases h
  | .bitstring segments _, v, b, b', h => by
      rw [bind?] at h
      split at h
      · exact gains_of_bindSegments? h
      · cases h

/-- The elements of an array pattern bind their names, and the rest binds its own to what is
    left. -/
theorem gains_of_bindElements? : ∀ (ps : List Pattern) {rest : Option String}
    {items : List Value} {b b' : Bindings}, bindElements? ps rest items b = some b' →
    Gains b (elementNames ps ++ rest.toList) b'
  | [], some name, items, b, b', h => gains_of_bindName? (by rwa [bindElements?] at h)
  | [], none, items, b, b', h => by
      cases items with
      | nil =>
          cases h
          exact .refl _
      | cons => cases h
  | p :: ps, rest, items, b, b', h => by
      cases items with
      | nil => cases h
      | cons v vs =>
          rw [bindElements?] at h
          split at h
          · rename_i hfirst
            -- The names in the first element are bound before those in the others.
            rw [elementNames, List.append_assoc]
            exact (gains_of_bind? p hfirst).trans (gains_of_bindElements? ps h)
          · cases h

/-- Binding fields adds the names in their patterns and no others. By induction on the fields. -/
theorem gains_of_bindFields? : ∀ (fs : List PatternField) {members : List (String × Value)}
    {b b' : Bindings}, bindFields? fs members b = some b' → Gains b (fieldNames fs) b'
  | [], members, b, b', h => by
      cases h
      exact .refl _
  | .mk key p :: fs, members, b, b', h => by
      rw [bindFields?] at h
      split at h
      · cases h
      · split at h
        · rename_i hfirst
          exact (gains_of_bind? p hfirst).trans (gains_of_bindFields? fs h)
        · cases h

end

end Pattern

/-! ### Arms -/

/-- The arm that is selected matches, and no arm before it does. The search may begin with
    any index. -/
theorem selectFrom?_eq_some_iff {v : Value} {i : Nat} {arms : List MatchArm} {s : Selection} :
    selectFrom? v i arms = some s ↔ ∃ k, s.index = i + k ∧ arms[k]? = some s.arm ∧
      s.arm.pattern.match? v = some s.bindings ∧
      ∀ earlier ∈ arms.take k, earlier.pattern.match? v = none := by
  induction arms generalizing i with
  | nil => simp [selectFrom?]
  | cons arm rest ih =>
      rw [selectFrom?]
      cases hmatch : arm.pattern.match? v with
      | some b =>
          constructor
          · intro h
            cases h
            exact ⟨0, rfl, rfl, hmatch, List.forall_mem_nil _⟩
          · rintro ⟨k, hindex, harm, hbindings, hearlier⟩
            cases k with
            | zero =>
                cases harm
                rw [hmatch] at hbindings
                cases s
                cases hbindings
                cases hindex
                rfl
            -- A later arm is not selected, because this one matches.
            | succ k =>
                have hnone := hearlier arm List.mem_cons_self
                rw [hmatch] at hnone
                cases hnone
      | none =>
          rw [ih]
          constructor
          · rintro ⟨k, hindex, harm, hbindings, hearlier⟩
            refine ⟨k + 1, by omega, harm, hbindings, ?_⟩
            exact List.forall_mem_cons.2 ⟨hmatch, hearlier⟩
          · rintro ⟨k, hindex, harm, hbindings, hearlier⟩
            cases k with
            | zero =>
                cases harm
                rw [hmatch] at hbindings
                cases hbindings
            | succ k =>
                exact ⟨k, by omega, harm, hbindings, (List.forall_mem_cons.1 hearlier).2⟩

/-- A match binds the names of the pattern and no others, each of them once. The arm that is
    selected for a value is the one at the given index, its pattern matches with the given
    bindings, and the pattern of no earlier arm matches. -/
theorem bindings_agree (v : Value) :
    (∀ (p : Pattern) (b : Bindings), p.match? v = some b →
      (∀ name, name ∈ b.names ↔ name ∈ p.boundNames) ∧ b.names.Nodup) ∧
    ∀ (arms : List MatchArm) (s : Selection), selectArm? arms v = some s ↔
      arms[s.index]? = some s.arm ∧ s.arm.pattern.match? v = some s.bindings ∧
        ∀ earlier ∈ arms.take s.index, earlier.pattern.match? v = none := by
  refine ⟨fun p b h => ?_, fun arms s => ?_⟩
  · have hgains := p.gains_of_bind? h
    refine ⟨fun name => ?_, hgains.nodup List.nodup_nil⟩
    rw [hgains.mem_iff]
    exact or_iff_right List.not_mem_nil
  · rw [selectArm?, selectFrom?_eq_some_iff]
    constructor
    · rintro ⟨k, hindex, harm⟩
      rw [hindex, Nat.zero_add]
      exact harm
    · exact fun harm => ⟨s.index, (Nat.zero_add _).symm, harm⟩

/-- A packet whose length stands before it and in it, so that a name comes twice. The arm for
    it is the second one. -/
theorem bindings_agree_packet :
    let packet : Pattern := .bitstring
      [.mk (.identifier "n" default) none false [] default,
       .mk (.identifier "body" default) (some (.identifier "n" default)) true ["binary"] default]
      default
    let p : Pattern := .array [.capture "n" default, packet] (some "rest") default
    let v : Value := .array [.integer 2, .bytes [2, 1, 7], .nil]
    let b : Bindings := [("n", .integer 2), ("body", .bytes [1, 7]), ("rest", .array [.nil])]
    let arms : List MatchArm := [.mk packet default default, .mk p default default]
    p.match? v = some b ∧ (∀ name, name ∈ b.names ↔ name ∈ p.boundNames) ∧ b.names.Nodup ∧
      selectArm? arms v = some ⟨1, .mk p default default, b⟩ := by
  intro packet p v b arms
  have hagree := bindings_agree v
  have hmatch : p.match? v = some b := by rfl
  have hpacket : packet.match? v = none := by rfl
  refine ⟨hmatch, (hagree.1 p b hmatch).1, (hagree.1 p b hmatch).2, ?_⟩
  exact (hagree.2 _ _).2 ⟨rfl, hmatch, List.forall_mem_singleton.2 hpacket⟩

end PolyScript
