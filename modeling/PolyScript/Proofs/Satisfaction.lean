import PolyScript.Proofs.Bindings
import PolyScript.Proofs.LooseEquality
import PolyScript.Proofs.PrintedPatterns

/-!
# What Satisfies a Pattern

A pattern without bit strings says something about a value and about what names stand for.
Whether an assignment of values to names makes it true can be told without any order of
visits: each part of the pattern is looked at by itself. Matching goes through the parts one
after the other and hands bindings on. The first place of a name decides its value, all
others are compared with it.

The two agree, because loose equality is an equivalence. If a match succeeds, what it has
bound satisfies the pattern; here values have to equal themselves. And if any assignment
satisfies the pattern, then the value at the first place of a name equals what the assignment
has for it, hence the values at all other places.

## Main definitions

* `Pattern.Satisfies`: An assignment makes a pattern true of a value.
* `Bindings.Extends`: Bindings have been added to others.
* `Bindings.Agrees`: Bindings equal what an assignment has.

## Theorems

* `Pattern.satisfies_of_bind?`: What a match has bound satisfies the pattern.
* `Pattern.bind?_of_satisfies`: A pattern that can be satisfied is matched.
* `match_iff_satisfiable`: Both for whole patterns.
-/

namespace PolyScript

/-- What names stand for. -/
abbrev Assignment := String → Option Value

/-- A name stands for a value, up to loose equality. -/
def Assignment.Gives (s : Assignment) (name : String) (v : Value) : Prop :=
  ∃ w, s name = some w ∧ w.looseEq v = true

namespace Pattern

/-- An assignment makes a pattern true of a value. There is no rule for bit strings. -/
inductive Satisfies (s : Assignment) : Pattern → Value → Prop
  | wildcard {place : Position} {v : Value} : Satisfies s (.wildcard place) v
  | capture {name : String} {place : Position} {v : Value} : s.Gives name v →
    Satisfies s (.capture name place) v
  | literal {e : Expr} {place : Position} {expected v : Value} :
    Value.ofLiteral? e = some expected → expected.looseEq v = true →
    Satisfies s (.literal e place) v
  | array {elements : List Pattern} {rest : Option String} {place : Position}
    {items : List Value} : elements.length ≤ items.length →
    (rest = none → items.length = elements.length) →
    (∀ (i : Nat) p v, elements[i]? = some p → items[i]? = some v → Satisfies s p v) →
    (∀ name ∈ rest, s.Gives name (.array (items.drop elements.length))) →
    Satisfies s (.array elements rest place) (.array items)
  | object {fields : List PatternField} {place : Position} {members : List (String × Value)} :
    (∀ f ∈ fields, (members.lookup f.key).isSome = true) →
    (∀ f ∈ fields, ∀ v, members.lookup f.key = some v → Satisfies s f.pattern v) →
    Satisfies s (.object fields place) (.object members)

/-- The items of an array satisfy elements and what takes the rest. -/
structure ElementsSatisfy (s : Assignment) (elements : List Pattern) (rest : Option String)
    (items : List Value) : Prop where
  length_le : elements.length ≤ items.length
  length_eq : rest = none → items.length = elements.length
  each : ∀ (i : Nat) p v, elements[i]? = some p → items[i]? = some v → Satisfies s p v
  remaining : ∀ name ∈ rest, s.Gives name (.array (items.drop elements.length))

/-- The members of an object satisfy fields. -/
def FieldsSatisfy (s : Assignment) (fields : List PatternField)
    (members : List (String × Value)) : Prop :=
  ∀ f ∈ fields, ∃ v, members.lookup f.key = some v ∧ Satisfies s f.pattern v

section

variable {s : Assignment} {p : Pattern} {elements : List Pattern} {rest : Option String}
  {place : Position} {v : Value} {items : List Value}

theorem satisfies_array : Satisfies s (.array elements rest place) v ↔
    ∃ items, v = .array items ∧ ElementsSatisfy s elements rest items := by
  constructor
  · rintro (_ | _ | _ | ⟨hle, heq, heach, hremaining⟩)
    exact ⟨_, rfl, hle, heq, heach, hremaining⟩
  · rintro ⟨items, rfl, h⟩
    exact .array h.length_le h.length_eq h.each h.remaining

/-- An object pattern is satisfied by just those objects whose members satisfy its fields. -/
theorem satisfies_object {fields : List PatternField} :
    Satisfies s (.object fields place) v ↔
      ∃ members, v = .object members ∧ FieldsSatisfy s fields members := by
  constructor
  · rintro (_ | _ | _ | _ | ⟨hfound, hfields⟩)
    refine ⟨_, rfl, fun f hf => ?_⟩
    rcases Option.isSome_iff_exists.1 (hfound f hf) with ⟨v, hv⟩
    exact ⟨v, hv, hfields f hf v hv⟩
  · rintro ⟨members, rfl, h⟩
    refine .object (fun f hf => ?_) fun f hf v hv => ?_
    · rcases h f hf with ⟨v, hv, -⟩
      rw [hv]
      rfl
    · rcases h f hf with ⟨w, hw, hsatisfies⟩
      rw [hv] at hw
      cases hw
      exact hsatisfies

theorem elementsSatisfy_cons : ElementsSatisfy s (p :: elements) rest (v :: items) ↔
    Satisfies s p v ∧ ElementsSatisfy s elements rest items := by
  constructor
  · rintro ⟨hle, heq, heach, hrest⟩
    refine ⟨heach 0 p v rfl rfl, by simpa using hle, fun h => by simpa using heq h,
      fun i q w hq hw => heach (i + 1) q w hq hw, hrest⟩
  · rintro ⟨hfirst, hle, heq, heach, hrest⟩
    refine ⟨by simpa using hle, fun h => by simpa using heq h, fun i q w hq hw => ?_, hrest⟩
    cases i with
    | zero =>
        cases hq
        cases hw
        exact hfirst
    | succ i => exact heach i q w hq hw

theorem elementsSatisfy_nil_some {name : String} :
    ElementsSatisfy s [] (some name) items ↔ s.Gives name (.array items) := by
  constructor
  · exact fun h => h.remaining name rfl
  · intro h
    refine ⟨Nat.zero_le _, fun h => (nomatch h), fun i q w hq _ => (nomatch hq), fun other h' => ?_⟩
    cases h'
    exact h

theorem elementsSatisfy_nil_none : ElementsSatisfy s [] none items ↔ items = [] := by
  constructor
  · exact fun h => List.length_eq_zero_iff.1 (h.length_eq rfl)
  · rintro rfl
    exact ⟨Nat.le_refl _, fun _ => rfl, fun i q w hq _ => (nomatch hq), fun _ h => (nomatch h)⟩

end

end Pattern

/-! ### Bindings -/

namespace Bindings

/-- What names are bound to. -/
def assignment (b : Bindings) : Assignment := fun name => b.lookup name

/-- Bindings have been added to others: what was bound stands for the same value. -/
def Extends (before after : Bindings) : Prop :=
  ∀ name v, before.lookup name = some v → after.lookup name = some v

theorem Extends.refl (b : Bindings) : Extends b b := fun _ _ => id

theorem Extends.trans {b b' b'' : Bindings} (h : Extends b b') (h' : Extends b' b'') :
    Extends b b'' := fun name v hv => h' name v (h name v hv)

/-- What is bound equals what an assignment has for it. -/
def Agrees (s : Assignment) (b : Bindings) : Prop :=
  ∀ name v, b.lookup name = some v → v.KeysOnce ∧ ∃ w, s name = some w ∧ v.looseEq w = true

end Bindings

open Bindings

theorem lookup_append_singleton {b : Bindings} {name : String} {v : Value}
    (h : b.lookup name = none) (key : String) : (b ++ [(name, v)]).lookup key =
      if key = name then some v else b.lookup key := by
  rw [List.lookup_append]
  by_cases hkey : key = name
  · rw [if_pos hkey, hkey, h, List.lookup_cons_self, Option.none_or]
  · rw [if_neg hkey, List.lookup_cons, beq_false_of_ne hkey, List.lookup_nil, Option.or_none]

/-- Binding a name adds it, or compares with what it is bound to. In both cases all older
    bindings are kept. -/
theorem extends_of_bindName? {b b' : Bindings} {name : String} {v : Value}
    (h : bindName? b name v = some b') : Extends b b' := by
  unfold bindName? at h
  split at h
  · rw [Option.ite_none_right_eq_some] at h
    cases h.2
    exact .refl b
  · rename_i hfree
    cases h
    intro key w hw
    rw [lookup_append_singleton hfree, if_neg fun hkey => ?_]
    · exact hw
    · rw [hkey, hfree] at hw
      cases hw

/-- A name that was bound or compared stands for the value. -/
theorem gives_of_bindName? {b b' : Bindings} {name : String} {v : Value}
    (hself : v.looseEq v = true) (h : bindName? b name v = some b') :
    Assignment.Gives b'.assignment name v := by
  unfold bindName? at h
  split at h
  · rename_i existing hexisting
    rw [Option.ite_none_right_eq_some] at h
    cases h.2
    exact ⟨existing, hexisting, h.1⟩
  · rename_i hfree
    cases h
    exact ⟨v, (lookup_append_singleton hfree name).trans (if_pos rfl), hself⟩

/-- A value that an assignment has for a name can be bound to it, if what is bound so far
    equals what the assignment has. -/
theorem bindName?_of_gives {s : Assignment} {b : Bindings} {name : String} {v : Value}
    (hs : ∀ name w, s name = some w → w.KeysOnce) (hv : v.KeysOnce) (hb : Agrees s b)
    (h : s.Gives name v) : ∃ b', bindName? b name v = some b' ∧ Agrees s b' := by
  rcases h with ⟨w, hw, hloose⟩
  unfold bindName?
  cases hlookup : b.lookup name with
  -- The name is bound, to something that equals what the assignment has.
  | some existing =>
      rcases hb name existing hlookup with ⟨hkeys, u, hu, hexisting⟩
      rw [hw] at hu
      cases hu
      have hsame := Value.looseEq_trans hkeys hexisting hloose
      exact ⟨b, if_pos hsame, hb⟩
  | none =>
      refine ⟨_, rfl, fun key u hu => ?_⟩
      rw [lookup_append_singleton hlookup] at hu
      split at hu
      · rename_i hkey
        cases hu
        exact ⟨hv, w, hkey ▸ hw, Value.looseEq_symm (hs name w hw) hv hloose⟩
      · exact hb key u hu

namespace Assignment.Gives

theorem mono {b b' : Bindings} {name : String} {v : Value} (h : Extends b b')
    (hgives : Assignment.Gives b.assignment name v) : Assignment.Gives b'.assignment name v := by
  rcases hgives with ⟨w, hw, hloose⟩
  exact ⟨w, h name w hw, hloose⟩

end Assignment.Gives

namespace Pattern

/-! ### Soundness -/

mutual

/-- What a match has bound satisfies the pattern, also if more is bound later. The second part is
    what carries the induction, since the elements behind this one go on binding. -/
theorem satisfies_of_bind? : ∀ (p : Pattern) {v : Value} {b b' : Bindings},
    p.hasBits = false → v.KeysOnce → v.NaNFree → p.bind? v b = some b' →
    Extends b b' ∧ ∀ later, Extends b' later → Satisfies later.assignment p v
  | .wildcard _, v, b, b', _, _, _, h => by
      rw [bind?] at h
      cases h
      exact ⟨.refl b, fun _ _ => .wildcard⟩
  | .capture name _, v, b, b', _, hkeys, hnan, h => by
      rw [bind?] at h
      have hgives := gives_of_bindName? (Value.looseEq_refl hkeys hnan) h
      exact ⟨extends_of_bindName? h, fun later hlater => .capture (hgives.mono hlater)⟩
  | .literal e _, v, b, b', _, _, _, h => by
      rw [bind?] at h
      split at h
      · rename_i expected hexpected
        rw [Option.ite_none_right_eq_some] at h
        cases h.2
        exact ⟨.refl b, fun _ _ => .literal hexpected h.1⟩
      · cases h
  | .array elements rest _, v, b, b', hbits, hkeys, hnan, h => by
      cases v with
      | array items =>
          cases hkeys with
          | array hkeys =>
              cases hnan with
              | array hnan =>
                  rw [bind?] at h
                  rcases elementsSatisfy_of_bind? elements hbits hkeys hnan h with
                    ⟨hextends, hsatisfy⟩
                  -- What is bound later does not take away what was bound here.
                  exact ⟨hextends, fun later hlater =>
                    satisfies_array.2 ⟨items, rfl, hsatisfy later hlater⟩⟩
      | _ => cases h
  | .object fields _, v, b, b', hbits, hkeys, hnan, h => by
      cases v with
      | object members =>
          cases hkeys with
          | object _ hkeys =>
              cases hnan with
              | object hnan =>
                  rw [bind?] at h
                  rcases fieldsSatisfy_of_bind? fields hbits hkeys hnan h with
                    ⟨hextends, hsatisfy⟩
                  exact ⟨hextends, fun later hlater =>
                    satisfies_object.2 ⟨members, rfl, hsatisfy later hlater⟩⟩
      | _ => cases h
  | .bitstring .., _, _, _, hbits, _, _, _ => by cases hbits

/-- If elements are bound then all later bindings that extend these satisfy them. The bindings
    only grow, so what an element has bound holds to the end. -/
theorem elementsSatisfy_of_bind? : ∀ (ps : List Pattern) {rest : Option String}
    {items : List Value} {b b' : Bindings}, elementsHaveBits ps = false →
    (∀ v ∈ items, v.KeysOnce) → (∀ v ∈ items, v.NaNFree) →
    bindElements? ps rest items b = some b' →
    Extends b b' ∧ ∀ later, Extends b' later → ElementsSatisfy later.assignment ps rest items
  | [], some name, items, b, b', _, hkeys, hnan, h => by
      rw [bindElements?] at h
      have hgives := gives_of_bindName? (Value.looseEq_refl (.array hkeys) (.array hnan)) h
      exact ⟨extends_of_bindName? h,
        fun later hlater => elementsSatisfy_nil_some.2 (hgives.mono hlater)⟩
  | [], none, items, b, b', _, _, _, h => by
      cases items with
      | nil =>
          cases h
          exact ⟨.refl b, fun _ _ => elementsSatisfy_nil_none.2 rfl⟩
      | cons => cases h
  | p :: ps, rest, items, b, b', hbits, hkeys, hnan, h => by
      rw [elementsHaveBits, Bool.or_eq_false_iff] at hbits
      cases items with
      | nil => cases h
      | cons v vs =>
          rcases List.forall_mem_cons.1 hkeys with ⟨hvkeys, hkeys⟩
          rcases List.forall_mem_cons.1 hnan with ⟨hvnan, hnan⟩
          -- The elements are matched from the left, so what the first one binds is still bound at
          -- the end.
          rw [bindElements?] at h
          split at h
          · rename_i hfirst
            rcases satisfies_of_bind? p hbits.1 hvkeys hvnan hfirst with ⟨hextends, hsatisfies⟩
            rcases elementsSatisfy_of_bind? ps hbits.2 hkeys hnan h with ⟨hextends', hrest⟩
            exact ⟨hextends.trans hextends', fun later hlater => elementsSatisfy_cons.2
              ⟨hsatisfies later (hextends'.trans hlater), hrest later hlater⟩⟩
          · cases h

/-- If fields are bound then all later bindings that extend these satisfy them. Each field finds
    its member by the key. -/
theorem fieldsSatisfy_of_bind? : ∀ (fs : List PatternField) {members : List (String × Value)}
    {b b' : Bindings}, fieldsHaveBits fs = false → (∀ m ∈ members, m.2.KeysOnce) →
    (∀ m ∈ members, m.2.NaNFree) → bindFields? fs members b = some b' →
    Extends b b' ∧ ∀ later, Extends b' later → FieldsSatisfy later.assignment fs members
  | [], members, b, b', _, _, _, h => by
      cases h
      exact ⟨.refl b, fun _ _ => List.forall_mem_nil _⟩
  | .mk key p :: fs, members, b, b', hbits, hkeys, hnan, h => by
      rw [fieldsHaveBits, Bool.or_eq_false_iff] at hbits
      rw [bindFields?] at h
      split at h
      · cases h
      · rename_i v hv
        -- The member is found by its key and is one of them, with all that is said of members.
        have hmem := mem_of_lookup_eq_some hv
        split at h
        · rename_i hfirst
          rcases satisfies_of_bind? p hbits.1 (hkeys _ hmem) (hnan _ hmem) hfirst with
            ⟨hextends, hsatisfies⟩
          rcases fieldsSatisfy_of_bind? fs hbits.2 hkeys hnan h with ⟨hextends', hrest⟩
          refine ⟨hextends.trans hextends', fun later hlater => List.forall_mem_cons.2
            ⟨⟨v, hv, hsatisfies later (hextends'.trans hlater)⟩, hrest later hlater⟩⟩
        · cases h

end

/-! ### Completeness -/

section

variable {s : Assignment}

mutual

/-- A pattern that an assignment satisfies is matched, if what is bound so far equals what the
    assignment has. -/
theorem bind?_of_satisfies (hs : ∀ name w, s name = some w → w.KeysOnce) :
    ∀ (p : Pattern) {v : Value} {b : Bindings}, v.KeysOnce → Agrees s b → Satisfies s p v →
      ∃ b', p.bind? v b = some b' ∧ Agrees s b'
  | .wildcard _, v, b, _, hb, _ => ⟨b, by rw [bind?], hb⟩
  | .capture name _, v, b, hkeys, hb, h => by
      cases h with
      | capture hgives =>
          rw [bind?]
          exact bindName?_of_gives hs hkeys hb hgives
  | .literal e _, v, b, _, hb, h => by
      cases h with
      | literal hexpected hloose =>
          rw [bind?]
          simp only [hexpected]
          exact ⟨b, if_pos hloose, hb⟩
  | .array elements rest _, v, b, hkeys, hb, h => by
      rcases satisfies_array.1 h with ⟨items, rfl, hitems⟩
      cases hkeys with
      | array hkeys =>
          rw [bind?]
          exact bindElements?_of_satisfy hs elements hkeys hb hitems
  | .object fields _, v, b, hkeys, hb, h => by
      rcases satisfies_object.1 h with ⟨members, rfl, hfields⟩
      cases hkeys with
      | object _ hkeys =>
          rw [bind?]
          exact bindFields?_of_satisfy hs fields hkeys hb hfields
  | .bitstring .., _, _, _, _, h => by cases h

/-- Elements that an assignment satisfies are bound from any bindings that agree with it, and the
    result agrees with it, too. -/
theorem bindElements?_of_satisfy (hs : ∀ name w, s name = some w → w.KeysOnce) :
    ∀ (ps : List Pattern) {rest : Option String} {items : List Value} {b : Bindings},
      (∀ v ∈ items, v.KeysOnce) → Agrees s b → ElementsSatisfy s ps rest items →
      ∃ b', bindElements? ps rest items b = some b' ∧ Agrees s b'
  | [], some name, items, b, hkeys, hb, h => by
      rw [bindElements?]
      exact bindName?_of_gives hs (.array hkeys) hb (elementsSatisfy_nil_some.1 h)
  | [], none, items, b, _, hb, h => by
      rw [elementsSatisfy_nil_none.1 h, bindElements?]
      exact ⟨b, rfl, hb⟩
  | p :: ps, rest, [], b, _, _, h => absurd h.length_le (Nat.not_succ_le_zero _)
  | p :: ps, rest, v :: vs, b, hkeys, hb, h => by
      rcases List.forall_mem_cons.1 hkeys with ⟨hvkeys, hkeys⟩
      rcases elementsSatisfy_cons.1 h with ⟨hfirst, hrest⟩
      rcases bind?_of_satisfies hs p hvkeys hb hfirst with ⟨b', hb', hagrees⟩
      rw [bindElements?]
      simp only [hb']
      exact bindElements?_of_satisfy hs ps hkeys hagrees hrest

/-- Fields that an assignment satisfies are bound from any bindings that agree with it, and the
    result agrees with it, too. -/
theorem bindFields?_of_satisfy (hs : ∀ name w, s name = some w → w.KeysOnce) :
    ∀ (fs : List PatternField) {members : List (String × Value)} {b : Bindings},
      (∀ m ∈ members, m.2.KeysOnce) → Agrees s b → FieldsSatisfy s fs members →
      ∃ b', bindFields? fs members b = some b' ∧ Agrees s b'
  | [], members, b, _, hb, _ => ⟨b, by rw [bindFields?], hb⟩
  | .mk key p :: fs, members, b, hkeys, hb, h => by
      rcases List.forall_mem_cons.1 h with ⟨⟨v, hv, hfirst⟩, hrest⟩
      rcases bind?_of_satisfies hs p (hkeys _ (mem_of_lookup_eq_some hv)) hb hfirst with
        ⟨b', hb', hagrees⟩
      have hlookup : members.lookup key = some v := hv
      rw [bindFields?]
      simp only [hlookup, hb']
      exact bindFields?_of_satisfy hs fs hkeys hagrees hrest

end

end

end Pattern

/-- What a match binds satisfies the pattern, where the value equals itself. And a pattern that
    some assignment satisfies is matched, with bindings that equal what the assignment has. -/
theorem match_iff_satisfiable {p : Pattern} {v : Value} (hbits : p.hasBits = false)
    (hkeys : v.KeysOnce) :
    (v.NaNFree → ∀ b, p.match? v = some b → p.Satisfies b.assignment v) ∧
      ∀ s : Assignment, (∀ name w, s name = some w → w.KeysOnce) → p.Satisfies s v →
        ∃ b, p.match? v = some b ∧ ∀ name ∈ p.boundNames, ∃ u w, b.lookup name = some u ∧
          s name = some w ∧ u.looseEq w = true := by
  refine ⟨fun hnan b h => ?_, fun s hs h => ?_⟩
  · exact (p.satisfies_of_bind? hbits hkeys hnan h).2 b (.refl b)
  · have hempty : Agrees s [] := fun name u hu => nomatch hu
    rcases Pattern.bind?_of_satisfies hs p hkeys hempty h with ⟨b, hb, hagrees⟩
    refine ⟨b, hb, fun name hname => ?_⟩
    have hbound := ((p.gains_of_bind? hb).mem_iff name).2 (.inr hname)
    rcases Option.isSome_iff_exists.1 (lookup_isSome_iff.2 hbound) with ⟨u, hu⟩
    rcases hagrees name u hu with ⟨-, w, hw, hloose⟩
    exact ⟨u, w, hu, hw, hloose⟩

/-- A name that stands for an integer in one place and for the same number in floating point
    in another. -/
theorem match_iff_satisfiable_mixed :
    let one : Double := ⟨0x3FF0000000000000⟩
    let p : Pattern := .array
      [.capture "x" default, .object [.mk "k" (.capture "x" default)] default] (some "rest") default
    let v : Value := .array [.integer 1, .object [("k", .float one)], .nil]
    let b : Bindings := [("x", .integer 1), ("rest", .array [.nil])]
    let s : Assignment := Bindings.assignment [("rest", .array [.nil]), ("x", .float one)]
    p.hasBits = false ∧ v.KeysOnce ∧ v.NaNFree ∧ p.match? v = some b ∧
      p.Satisfies b.assignment v ∧ (∀ name w, s name = some w → w.KeysOnce) ∧ p.Satisfies s v ∧
      ∃ b', p.match? v = some b' ∧ ∀ name ∈ p.boundNames, ∃ u w, b'.lookup name = some u ∧
        s name = some w ∧ u.looseEq w = true := by
  intro one p v b s
  have hkeys : v.KeysOnce := by
    -- The value has no key twice, and no member that differs from itself.
    refine .array (List.forall_mem_cons.2 ⟨.integer 1, List.forall_mem_cons.2 ⟨?_, ?_⟩⟩)
    · exact .object (by decide) (List.forall_mem_singleton.2 (.float one))
    · exact List.forall_mem_singleton.2 .nil
  have hnan : v.NaNFree := by
    refine .array (List.forall_mem_cons.2 ⟨.integer 1, List.forall_mem_cons.2 ⟨?_, ?_⟩⟩)
    · exact .object (List.forall_mem_singleton.2 (.float (by decide)))
    · exact List.forall_mem_singleton.2 .nil
  have hs : ∀ name w, s name = some w → w.KeysOnce := by
    intro name w hw
    rcases List.mem_cons.1 (mem_of_lookup_eq_some hw) with hmem | hmem
    · cases hmem
      exact .array (List.forall_mem_singleton.2 .nil)
    · cases List.mem_singleton.1 hmem
      exact .float one
  -- The two numbers are loosely equal, which is all that the second place of the name asks for.
  have hsame : (Value.integer 1).looseEq (.float one) = true := by decide
  have hmatch : p.match? v = some b := by
    simp [p, v, b, Pattern.match?, Pattern.bind?, Pattern.bindElements?, Pattern.bindFields?,
      bindName?, List.lookup_cons, hsame]
  have hsatisfies : p.Satisfies s v := by
    refine Pattern.satisfies_array.2 ⟨_, rfl, Pattern.elementsSatisfy_cons.2 ⟨?_, ?_⟩⟩
    · exact .capture ⟨.float one, rfl, by decide⟩
    · refine Pattern.elementsSatisfy_cons.2 ⟨?_, Pattern.elementsSatisfy_nil_some.2 ?_⟩
      · exact Pattern.satisfies_object.2 ⟨_, rfl, List.forall_mem_singleton.2
          ⟨.float one, rfl, .capture ⟨.float one, rfl, by decide⟩⟩⟩
      · exact ⟨.array [.nil], rfl, by decide⟩
  have h := match_iff_satisfiable (p := p) rfl hkeys
  exact ⟨rfl, hkeys, hnan, hmatch, h.1 hnan b hmatch, hs, hsatisfies, h.2 s hs hsatisfies⟩

end PolyScript
