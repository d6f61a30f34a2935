import PolyScript.Json.Reader
import PolyScript.Proofs.Lookup

/-!
# Sorted Documents

Documents that were read list the members of every object by name, and each name once.
Sorting gives such documents and leaves them as they are. What sorting does to an object is
said in terms of look-ups: a member put in its place is found under its name, and all other
names are found as before, whether or not the members were sorted.

## Main definitions

* `Json.IsSorted`: All objects of a document list their members by name, each name once.

## Theorems

* `Json.lookup_insertMember`: What is found after a member was put in its place.
* `Json.lookup_sortMembers`: Sorting does not change what is found.
* `Json.isSorted_ofMembers`: An object made of sorted documents.
* `Json.IsSorted.sorted_eq`: Sorted documents stay as they are.
* `Json.isSorted_of_parse`: Documents that were read are sorted.
-/

namespace PolyScript

namespace Json

/-- All objects of a document list their members by name, each name once. -/
inductive IsSorted : Json → Prop
  | null : IsSorted null
  | bool (value : Bool) : IsSorted (bool value)
  | int (value : Int) : IsSorted (int value)
  | float (value : Double) : IsSorted (float value)
  | string (value : String) : IsSorted (string value)
  | array {items : List Json} : (∀ j ∈ items, IsSorted j) → IsSorted (array items)
  | object {members : List (String × Json)} : members.Pairwise (fun m n => m.1 < n.1) →
    (∀ m ∈ members, IsSorted m.2) → IsSorted (object members)

/-! ### Members in their places -/

section Members

variable {α : Type} {name : String} {value : α} {members : List (String × α)}

theorem lookup_cons_eq_ite (key : String) :
    ((name, value) :: members).lookup key =
      if key = name then some value else members.lookup key := by
  by_cases h : key = name
  · rw [if_pos h, h, List.lookup_cons_self]
  · rw [if_neg h, List.lookup_cons, beq_false_of_ne h]

/-- After an insertion the key finds its new value, and all others find what they did. -/
theorem lookup_insertMember (key : String) :
    (insertMember name value members).lookup key =
      if key = name then some value else members.lookup key := by
  fun_induction insertMember name value members with
  | case1 | case2 => rw [lookup_cons_eq_ite]
  | case3 v rest _ =>
      rw [lookup_cons_eq_ite, lookup_cons_eq_ite]
      by_cases h : key = name <;> simp only [h, if_true, if_false]
  | case4 k v rest _ hne ih =>
      rw [lookup_cons_eq_ite, lookup_cons_eq_ite, ih]
      by_cases h : key = k
      · rw [if_pos h, if_neg fun hname => hne (hname.symm.trans h), if_pos h]
      · rw [if_neg h, if_neg h]

theorem mem_insertMember {m : String × α} (h : m ∈ insertMember name value members) :
    m = (name, value) ∨ m ∈ members := by
  fun_induction insertMember name value members with
  | case1 => exact .inl (List.mem_singleton.1 h)
  | case2 => exact List.mem_cons.1 h
  | case3 => exact (List.mem_cons.1 h).imp_right (List.mem_cons_of_mem _)
  | case4 k v rest _ _ ih =>
      rcases List.mem_cons.1 h with rfl | h
      · exact .inr List.mem_cons_self
      · exact (ih h).imp_right (List.mem_cons_of_mem _)

/-- Inserting a member keeps the keys in ascending order. The cases are those of the insertion:
    at the end, in front of a greater key, in place of an equal one, or further on. -/
theorem pairwise_insertMember (h : members.Pairwise fun m n => m.1 < n.1) :
    (insertMember name value members).Pairwise fun m n => m.1 < n.1 := by
  fun_induction insertMember name value members with
  | case1 => exact List.pairwise_singleton _ _
  | case2 k v rest hlt =>
      refine List.pairwise_cons.2 ⟨fun m hm => ?_, h⟩
      rcases List.mem_cons.1 hm with rfl | hm
      · exact hlt
      · exact String.lt_trans hlt ((List.pairwise_cons.1 h).1 m hm)
  | case3 => exact List.pairwise_cons.2 (List.pairwise_cons.1 h)
  | case4 k v rest hlt hne ih =>
      rcases List.pairwise_cons.1 h with ⟨hfirst, hrest⟩
      refine List.pairwise_cons.2 ⟨fun m hm => ?_, ih hrest⟩
      rcases mem_insertMember hm with rfl | hm
      -- The name does not come before this one and is not this one.
      · by_contra hnot
        exact hne (String.le_antisymm (String.not_lt.1 hnot) (String.not_lt.1 hlt))
      · exact hfirst m hm

/-- A member whose name comes after all others is put at the end. -/
theorem insertMember_eq_append (h : ∀ m ∈ members, m.1 < name) :
    insertMember name value members = members ++ [(name, value)] := by
  induction members with
  | nil => rfl
  | cons m rest ih =>
      rcases List.forall_mem_cons.1 h with ⟨hfirst, hrest⟩
      rw [insertMember, if_neg (String.lt_asymm hfirst),
        if_neg (fun heq => String.lt_irrefl _ (heq ▸ hfirst)), ih hrest]
      rfl

/-- Sorting adds no members. It may drop some, for which there is a later one under the same
    key. -/
theorem mem_sortMembers {m : String × α} (h : m ∈ sortMembers members) : m ∈ members := by
  have hfold : ∀ (members sorted : List (String × α)),
      m ∈ members.foldl (fun sorted m => insertMember m.1 m.2 sorted) sorted →
        m ∈ members ∨ m ∈ sorted := by
    intro members
    induction members with
    | nil => exact fun _ h => .inr h
    | cons n rest ih =>
        intro sorted h
        rcases ih _ h with h | h
        · exact .inl (List.mem_cons_of_mem _ h)
        · rcases mem_insertMember h with rfl | h
          · exact .inl List.mem_cons_self
          · exact .inr h
  exact (hfold members [] h).resolve_right List.not_mem_nil

/-- Sorted members have their keys in ascending order, and so each of them once. -/
theorem pairwise_sortMembers (members : List (String × α)) :
    (sortMembers members).Pairwise fun m n => m.1 < n.1 := by
  have hfold : ∀ (members sorted : List (String × α)),
      sorted.Pairwise (fun m n => m.1 < n.1) →
        (members.foldl (fun sorted m => insertMember m.1 m.2 sorted) sorted).Pairwise
          fun m n => m.1 < n.1 := by
    intro members
    induction members with
    | nil => exact fun _ h => h
    | cons n rest ih => exact fun _ h => ih _ (pairwise_insertMember h)
  exact hfold members [] List.Pairwise.nil

/-- Sorting does not change what is found. -/
theorem lookup_sortMembers (hnodup : (members.map Prod.fst).Nodup) (key : String) :
    (sortMembers members).lookup key = members.lookup key := by
  -- Members that are still to come take the place of those that are sorted already.
  have hfold : ∀ (members sorted : List (String × α)), (members.map Prod.fst).Nodup →
      (members.foldl (fun sorted m => insertMember m.1 m.2 sorted) sorted).lookup key =
        (members.lookup key).or (sorted.lookup key) := by
    intro members
    induction members with
    | nil => exact fun _ _ => rfl
    | cons m rest ih =>
        intro sorted hnodup
        rcases List.nodup_cons.1 hnodup with ⟨hm, hrest⟩
        rw [List.foldl_cons, ih _ hrest, lookup_insertMember, List.lookup_cons]
        by_cases h : key = m.1
        · have hnone : rest.lookup key = none :=
            Option.not_isSome_iff_eq_none.1 fun hsome => hm (h ▸ lookup_isSome_iff.1 hsome)
          simp [h, h ▸ hnone]
        · rw [if_neg h, beq_false_of_ne h]
  rw [sortMembers, hfold members [] hnodup, List.lookup_nil, Option.or_none]

/-- Sorted members stay as they are. -/
theorem sortMembers_eq_self (h : members.Pairwise fun m n => m.1 < n.1) :
    sortMembers members = members := by
  -- Every name comes after those that are sorted already, so its member goes to the end.
  have hfold : ∀ (members sorted : List (String × α)),
      (sorted ++ members).Pairwise (fun m n => m.1 < n.1) →
        members.foldl (fun sorted m => insertMember m.1 m.2 sorted) sorted = sorted ++ members := by
    intro members
    induction members with
    | nil => exact fun sorted _ => (List.append_nil sorted).symm
    | cons m rest ih =>
        intro sorted h
        have hlast : ∀ n ∈ sorted, n.1 < m.1 := fun n hn =>
          (List.pairwise_append.1 h).2.2 n hn m List.mem_cons_self
        have hsplit : sorted ++ m :: rest = sorted ++ [(m.1, m.2)] ++ rest := by simp
        rw [hsplit] at h ⊢
        rw [List.foldl_cons, insertMember_eq_append hlast, ih _ h]
  exact hfold members [] h

theorem nodup_names_of_pairwise (h : members.Pairwise fun m n => m.1 < n.1) :
    (members.map Prod.fst).Nodup := by
  refine List.pairwise_map.2 (h.imp fun {m n} hlt heq => ?_)
  rw [heq] at hlt
  exact String.lt_irrefl _ hlt

end Members

/-! ### Sorting -/

theorem sortedItems_eq_map (items : List Json) : sortedItems items = items.map sorted := by
  induction items with
  | nil => rfl
  | cons j rest ih => rw [sortedItems, ih, List.map_cons]

theorem sortedMembers_eq_map (members : List (String × Json)) :
    sortedMembers members = members.map fun m => (m.1, m.2.sorted) := by
  induction members with
  | nil => rfl
  | cons m rest ih => rw [sortedMembers, ih, List.map_cons]

theorem lookup_sortedMembers (members : List (String × Json)) (name : String) :
    (sortedMembers members).lookup name = (members.lookup name).map sorted := by
  induction members with
  | nil => rfl
  | cons m rest ih =>
      rw [sortedMembers, lookup_cons_eq_ite, lookup_cons_eq_ite, ih]
      by_cases h : name = m.1
      · rw [if_pos h, if_pos h, Option.map_some]
      · rw [if_neg h, if_neg h]

/-- An object made of sorted documents. -/
theorem isSorted_ofMembers {members : List (String × Json)}
    (h : ∀ m ∈ members, m.2.IsSorted) : (ofMembers members).IsSorted :=
  .object (pairwise_sortMembers members) fun m hm => h m (mem_sortMembers hm)

mutual

/-- A sorted document is sorted. -/
theorem isSorted_sorted : ∀ j : Json, j.sorted.IsSorted
  | null => .null
  | bool value => .bool value
  | int value => .int value
  | float value => .float value
  | string value => .string value
  | array items => .array (isSorted_sortedItems items)
  | object members => isSorted_ofMembers (isSorted_sortedMembers members)

theorem isSorted_sortedItems : ∀ items : List Json, ∀ j ∈ sortedItems items, j.IsSorted
  | [] => List.forall_mem_nil _
  | j :: rest => List.forall_mem_cons.2 ⟨isSorted_sorted j, isSorted_sortedItems rest⟩

theorem isSorted_sortedMembers : ∀ members : List (String × Json),
    ∀ m ∈ sortedMembers members, m.2.IsSorted
  | [] => List.forall_mem_nil _
  | (_, j) :: rest => List.forall_mem_cons.2 ⟨isSorted_sorted j, isSorted_sortedMembers rest⟩

end

/-- Sorted documents stay as they are. -/
theorem IsSorted.sorted_eq {j : Json} (h : j.IsSorted) : j.sorted = j := by
  induction h with
  | null | bool | int | float | string => rfl
  | @array items _ ih =>
      have hitems : items.map sorted = items :=
        (List.map_congr_left ih).trans (List.map_id items)
      rw [sorted, sortedItems_eq_map, hitems]
  | @object members hpairwise _ ih =>
      have hmembers : (members.map fun m => (m.1, m.2.sorted)) = members :=
        (List.map_congr_left fun m hm => congrArg (Prod.mk m.1) (ih m hm)).trans
          (List.map_id members)
      rw [sorted, sortedMembers_eq_map, hmembers, ofMembers, sortMembers_eq_self hpairwise]

/-- No name comes twice among the members of a sorted document. -/
theorem IsSorted.nodup_names {members : List (String × Json)} (h : (Json.object members).IsSorted) :
    (members.map Prod.fst).Nodup := by
  cases h with
  | object hpairwise _ => exact nodup_names_of_pairwise hpairwise

/-- What is found in a sorted document is sorted. -/
theorem IsSorted.of_get? {j value : Json} {name : String} (h : j.IsSorted)
    (hvalue : j.get? name = some value) : value.IsSorted := by
  cases h with
  | object _ hvalues => exact hvalues _ (mem_of_lookup_eq_some hvalue)
  | null | bool | int | float | string | array => cases hvalue

/-! ### Reading -/

section Reading

variable {item : List Char → Option (Json × List Char)}

/-- The items of an array are sorted if each one that is read is. -/
theorem isSorted_of_readItems (hitem : ∀ {cs j rest}, item cs = some (j, rest) → j.IsSorted)
    {n : Nat} {cs rest : List Char} {items : List Json}
    (h : readItems item n cs = some (items, rest)) : ∀ j ∈ items, j.IsSorted := by
  induction n generalizing cs items with
  | zero => cases h
  | succ n ih =>
      rw [readItems] at h
      split at h
      · cases h
      · rename_i j after hj
        split at h
        · split at h
          · rename_i items' rest' hitems
            cases h
            exact List.forall_mem_cons.2 ⟨hitem hj, ih hitems⟩
          · cases h
        · cases h
          exact List.forall_mem_cons.2 ⟨hitem hj, List.forall_mem_nil _⟩
        · cases h

/-- The values in an object are sorted if each one that is read is. -/
theorem isSorted_of_readMembers (hitem : ∀ {cs j rest}, item cs = some (j, rest) → j.IsSorted)
    {n : Nat} {cs rest : List Char} {members : List (String × Json)}
    (h : readMembers item n cs = some (members, rest)) : ∀ m ∈ members, m.2.IsSorted := by
  -- By induction on the members that may still come, along the reader.
  induction n generalizing cs members with
  | zero => cases h
  | succ n ih =>
      rw [readMembers] at h
      split at h
      · split at h
        · cases h
        · split at h
          · split at h
            · cases h
            · rename_i j after hj
              split at h
              · split at h
                · rename_i members' rest' hmembers
                  cases h
                  exact List.forall_mem_cons.2 ⟨hitem hj, ih hmembers⟩
                · cases h
              · cases h
                exact List.forall_mem_cons.2 ⟨hitem hj, List.forall_mem_nil _⟩
              · cases h
          · cases h
      · cases h

end Reading

namespace Number

variable {negative : Bool} {significand : Nat} {power : Int} {cs rest : List Char} {j : Json}

theorem isSorted_of_ofParts (h : ofParts negative significand power = some j) :
    j.IsSorted := by
  unfold ofParts at h
  split at h
  · cases h
    exact .float _
  · cases h

/-- A number is a sorted document, being no object. The cases are the ways in which the reader of
    its exponent ends. -/
theorem isSorted_of_finish (h : finish negative significand power cs = some (j, rest)) :
    j.IsSorted := by
  have hparts : ∀ {power : Int} {after : List Char},
      (ofParts negative significand power).map (fun j => (j, after)) = some (j, rest) →
        j.IsSorted := by
    intro power after h
    rcases Option.map_eq_some_iff.1 h with ⟨k, hk, heq⟩
    cases heq
    exact isSorted_of_ofParts hk
  unfold finish at h
  split at h
  · split at h
    · dsimp only at h
      -- the sign of the exponent makes no difference
      split at h
      all_goals
        split at h
        · cases h
        · split at h
          · exact hparts h
          · split at h
            · cases h
            · cases h
              exact .float _
    · exact hparts h
  · exact hparts h

theorem isSorted_of_fraction (h : fraction negative significand power cs = some (j, rest)) :
    j.IsSorted := by
  unfold fraction at h
  dsimp only at h
  split at h
  · exact isSorted_of_finish h
  · split at h
    · cases h
    · exact isSorted_of_finish h

/-- A number without its sign is sorted, whatever follows its first digit. -/
theorem isSorted_of_unsigned (h : unsigned? negative cs = some (j, rest)) : j.IsSorted := by
  -- However the whole part went on, the result is a number.
  have hwhole : ∀ {whole : Nat} {cs : List Char},
      afterWhole negative whole cs = some (j, rest) → j.IsSorted := by
    intro whole cs h
    unfold afterWhole at h
    split at h
    · exact isSorted_of_fraction h
    · exact isSorted_of_finish h
    · exact isSorted_of_finish h
    · split at h
      · split at h <;> cases h
        · exact .int _
        · exact .float _
      · cases h
        exact .int _
  unfold unsigned? at h
  split at h
  · split at h
    · cases h
    · exact hwhole h
  · split at h
    · dsimp only at h
      split at h
      · unfold afterLongWhole at h
        dsimp only at h
        split at h
        · exact isSorted_of_fraction h
        · exact isSorted_of_finish h
      · exact hwhole h
    · cases h

end Number

/-- Whatever is read as a scalar is sorted. -/
theorem isSorted_of_readScalar {cs rest : List Char} {j : Json}
    (h : readScalar cs = some (j, rest)) : j.IsSorted := by
  unfold readScalar at h
  split at h
  · cases h
    exact .null
  · cases h
    exact .bool _
  · cases h
    exact .bool _
  · rcases Option.map_eq_some_iff.1 h with ⟨_, _, heq⟩
    cases heq
    exact .string _
  · unfold Number.read? at h
    split at h <;> exact Number.isSorted_of_unsigned h

/-- The nesting that is still allowed carries the induction, as it does the reading. -/
theorem isSorted_of_readValue {depth : Nat} {cs rest : List Char} {j : Json}
    (h : readValue depth cs = some (j, rest)) : j.IsSorted := by
  -- Nested documents are read with less nesting allowed.
  induction depth generalizing cs rest j with
  | zero =>
      rw [readValue] at h
      split at h
      · cases h
      · cases h
      · exact isSorted_of_readScalar h
  | succ depth ih =>
      rw [readValue] at h
      split at h
      · split at h
        · cases h
          exact .array (List.forall_mem_nil _)
        · rcases Option.map_eq_some_iff.1 h with ⟨r, hr, heq⟩
          cases heq
          exact .array (isSorted_of_readItems ih hr)
      · split at h
        · cases h
          exact .object List.Pairwise.nil (List.forall_mem_nil _)
        · rcases Option.map_eq_some_iff.1 h with ⟨r, hr, heq⟩
          cases heq
          exact isSorted_ofMembers (isSorted_of_readMembers ih hr)
      · exact isSorted_of_readScalar h

/-- Documents that were read are sorted. -/
theorem isSorted_of_parse {text : String} {j : Json} (h : parse? text = some j) :
    j.IsSorted := by
  unfold parse? at h
  split at h
  · rename_i hread
    split at h
    · cases h
      exact isSorted_of_readValue hread
    · cases h
  · cases h

end Json

end PolyScript
