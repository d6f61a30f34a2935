import PolyScript.Json.Merge
import PolyScript.Proofs.SortedDocuments

/-!
# Overlays

What is found in a document after others were laid over it. Two steps carry everything:
under a name, an object has what the overlay has there laid over what was there before; and
an item laid over an array changes the one item of its name, or comes last if there is
none. So a member of a named item goes through any number of layers by itself. Whatever is
laid over it, only documents of that one member matter, in their order.

Look-ups find the first member of a name, and a member is put in its place whether or not
the object below is sorted. So only the overlay has to have each name once.

## Main definitions

* `Json.over?`: What is there after a document, if there is one, was laid over another.
* `Json.overAll?`: The same for several documents, one after the other.
* `Json.itemOf?`: The first item of a name.

## Theorems

* `Json.get?_laidOver`: What is found in an object after another was laid over it.
* `Json.itemsOver_append`: Items are laid over an array one after the other.
* `Json.itemOf?_itemsOver`: The item of a name after items were laid over an array.
* `Json.names_itemsOver`: The names of the items, in their order.
* `Json.get?_overAll`: A member goes through several objects by itself.
* `Json.laidOver_cases`: What comes of laying one document over another.
* `Json.IsSorted.laidOver`: Sorted documents laid over each other are sorted.
-/

namespace PolyScript

namespace Json

/-- What is there after a document, if there is one, was laid over another, if there is
    one. -/
def over? : Option Json → Option Json → Option Json
  | some j, some base => some (j.laidOver base)
  | some j, none => some j
  | none, base => base

@[simp] theorem over?_none_right (j : Option Json) : over? j none = j := by
  cases j <;> rfl

@[simp] theorem over?_some_some (j base : Json) :
    over? (some j) (some base) = some (j.laidOver base) := rfl

/-! ### Objects -/

/-- What lies under a key after a merge depends only on what the two objects have under this
    key. -/
theorem lookup_membersOver {overlay : List (String × Json)}
    (hnodup : (overlay.map Prod.fst).Nodup) (base : List (String × Json)) (key : String) :
    (membersOver overlay base).lookup key = over? (overlay.lookup key) (base.lookup key) := by
  induction overlay generalizing base with
  | nil => rfl
  | cons m rest ih =>
      rcases m with ⟨name, j⟩
      rcases List.nodup_cons.1 hnodup with ⟨hname, hrest⟩
      have hnone : rest.lookup name = none :=
        Option.not_isSome_iff_eq_none.1 fun h => hname (lookup_isSome_iff.1 h)
      rw [membersOver, lookup_cons_eq_ite]
      by_cases hkey : key = name
      -- The name does not come again, so what is put in its place stays.
      · subst hkey
        rw [if_pos rfl]
        split <;> rename_i hbase <;>
          rw [ih hrest, hnone, hbase, lookup_insertMember, if_pos rfl] <;> rfl
      · rw [if_neg hkey]
        split <;> rw [ih hrest, lookup_insertMember, if_neg hkey]

/-- What is found in an object after another was laid over it. -/
theorem get?_laidOver {overlay base : List (String × Json)}
    (hnodup : (overlay.map Prod.fst).Nodup) (key : String) :
    ((object overlay).laidOver (object base)).get? key =
      over? ((object overlay).get? key) ((object base).get? key) := by
  rw [laidOver]
  exact lookup_membersOver hnodup base key

/-! ### Named items -/

/-- A document with a name is an object. -/
theorem eq_object_of_itemName {j : Json} {name : String} (h : itemName? j = some name) :
    ∃ members, j = object members ∧ members.lookup "name" = some (string name) := by
  rcases Option.bind_eq_some_iff.1 h with ⟨text, htext, hstring⟩
  cases j with
  | object members =>
      cases text with
      | string s =>
          cases hstring
          exact ⟨members, rfl, htext⟩
      | null | bool | int | float | array | object => cases hstring
  | null | bool | int | float | string | array => cases htext

theorem itemName_object {members : List (String × Json)} {name : String}
    (h : members.lookup "name" = some (string name)) :
    itemName? (object members) = some name := by
  rw [itemName?, get?, h]
  rfl

/-- An item keeps its name if another of that name is laid over it. -/
theorem itemName_laidOver {j item : Json} {name : String} (hj : j.IsSorted)
    (hname : itemName? j = some name) (hitem : itemName? item = some name) :
    itemName? (j.laidOver item) = some name := by
  rcases eq_object_of_itemName hname with ⟨overlay, rfl, hoverlay⟩
  rcases eq_object_of_itemName hitem with ⟨base, rfl, hbase⟩
  rw [itemName?, get?_laidOver hj.nodup_names, get?, get?, hoverlay, hbase]
  rfl

/-! ### Arrays -/

/-- When the items of an array are laid over those of another. -/
theorem mergesItems_iff {items : List Json} :
    (!items.isEmpty && items.all fun j => (itemName? j).isSome) = true ↔
      items ≠ [] ∧ ∀ j ∈ items, (itemName? j).isSome = true := by
  rw [Bool.and_eq_true, List.all_eq_true, Bool.not_eq_true', ← Bool.not_eq_true,
    List.isEmpty_iff]

theorem itemsOver_cons (j : Json) (rest base : List Json) :
    itemsOver (j :: rest) base = itemsOver rest (itemsOver [j] base) := by
  rw [itemsOver, itemsOver]
  split <;> rfl

/-- Items are laid over an array one after the other. -/
theorem itemsOver_append (items items' base : List Json) :
    itemsOver (items ++ items') base = itemsOver items' (itemsOver items base) := by
  induction items generalizing base with
  | nil => rfl
  | cons j rest ih => rw [List.cons_append, itemsOver_cons, ih, ← itemsOver_cons]

theorem itemsOver_one (j : Json) (base : List Json) :
    itemsOver [j] base = (updateFirst? (fun item => itemName? item = itemName? j)
      (fun item => j.laidOver item) base).getD (base ++ [j]) := by
  rw [itemsOver]
  split <;> rename_i h <;> rw [h, itemsOver] <;> rfl

theorem itemsOver_cons_of_name {j item : Json} (rest : List Json)
    (h : itemName? item = itemName? j) :
    itemsOver [j] (item :: rest) = j.laidOver item :: rest := by
  rw [itemsOver_one, updateFirst?, if_pos (decide_eq_true h), Option.getD_some]

theorem itemsOver_cons_of_ne {j item : Json} (rest : List Json)
    (h : itemName? item ≠ itemName? j) :
    itemsOver [j] (item :: rest) = item :: itemsOver [j] rest := by
  rw [itemsOver_one, itemsOver_one, updateFirst?, if_neg fun hdec => h (of_decide_eq_true hdec)]
  cases updateFirst? (fun item => itemName? item = itemName? j) (fun item => j.laidOver item)
    rest <;> rfl

/-- The first item of a name. -/
def itemOf? (name : String) (items : List Json) : Option Json :=
  items.find? fun item => itemName? item = some name

theorem itemOf?_cons (name : String) (item : Json) (rest : List Json) :
    itemOf? name (item :: rest) =
      if itemName? item = some name then some item else itemOf? name rest := by
  rw [itemOf?, List.find?_cons]
  by_cases h : itemName? item = some name
  · simp [h]
  · simp [h, itemOf?]

/-- One item laid over an array: the item of its name changes and no other does. -/
theorem itemOf?_itemsOver_one {j : Json} {name : String} (hj : j.IsSorted)
    (hname : itemName? j = some name) (base : List Json) (key : String) :
    itemOf? key (itemsOver [j] base) =
      if key = name then over? (some j) (itemOf? key base) else itemOf? key base := by
  -- By induction on the items below: the first of the name takes the item that is laid over it,
  -- and the others stay.
  induction base with
  | nil =>
      change itemOf? key [j] = _
      rw [itemOf?_cons, hname]
      by_cases hkey : key = name
      · rw [if_pos hkey, hkey, if_pos rfl]
        rfl
      · rw [if_neg hkey, if_neg fun h => hkey (Option.some.inj h).symm]
  | cons item rest ih =>
      by_cases hitem : itemName? item = some name
      · have hlaid := itemName_laidOver hj hname hitem
        rw [itemsOver_cons_of_name rest (hitem.trans hname.symm), itemOf?_cons, itemOf?_cons,
          hlaid, hitem]
        by_cases hkey : key = name
        · rw [hkey, if_pos rfl, if_pos rfl, if_pos rfl, over?_some_some]
        · have hother : ¬some name = some key := fun h => hkey (Option.some.inj h).symm
          rw [if_neg hkey, if_neg hother, if_neg hother]
      · rw [itemsOver_cons_of_ne rest (hname ▸ hitem), itemOf?_cons, itemOf?_cons, ih]
        by_cases hkey : itemName? item = some key
        · have hne : key ≠ name := fun h => hitem (h ▸ hkey)
          rw [if_pos hkey, if_pos hkey, if_neg hne]
        · rw [if_neg hkey, if_neg hkey]

/-- One item laid over an array: its name is added if it is new. -/
theorem names_itemsOver_one {j : Json} {name : String} (hj : j.IsSorted)
    (hname : itemName? j = some name) (base : List Json) :
    (itemsOver [j] base).map itemName? = base.map itemName? ++
      if some name ∈ base.map itemName? then [] else [some name] := by
  induction base with
  | nil => simp [itemsOver, updateFirst?, hname]
  | cons item rest ih =>
      by_cases hitem : itemName? item = some name
      · rw [itemsOver_cons_of_name rest (hitem.trans hname.symm), List.map_cons, List.map_cons,
          itemName_laidOver hj hname hitem, hitem, if_pos List.mem_cons_self, List.append_nil]
      · rw [itemsOver_cons_of_ne rest (hname ▸ hitem), List.map_cons, ih, List.map_cons,
          List.cons_append]
        simp only [List.mem_cons, Ne.symm hitem, false_or]

/-! ### Several overlays -/

/-- What is there after several documents, as far as there are any, were laid over another,
    one after the other. -/
def overAll? (overlays : List (Option Json)) (base : Option Json) : Option Json :=
  overlays.foldl (fun base j => over? j base) base

@[simp] theorem overAll?_cons (j : Option Json) (rest : List (Option Json))
    (base : Option Json) : overAll? (j :: rest) base = overAll? rest (over? j base) := rfl

theorem overAll?_append_one (overlays : List (Option Json)) (j base : Option Json) :
    overAll? (overlays ++ [j]) base = over? j (overAll? overlays base) :=
  List.foldl_append

/-- The item of a name after items were laid over an array. -/
theorem itemOf?_itemsOver {items : List Json} (hsorted : ∀ j ∈ items, j.IsSorted)
    (hnamed : ∀ j ∈ items, (itemName? j).isSome = true) (base : List Json) (key : String) :
    itemOf? key (itemsOver items base) =
      overAll? ((items.filter fun j => itemName? j = some key).map some)
        (itemOf? key base) := by
  induction items generalizing base with
  | nil => rfl
  | cons j rest ih =>
      rcases List.forall_mem_cons.1 hsorted with ⟨hj, hsorted⟩
      rcases List.forall_mem_cons.1 hnamed with ⟨hname, hnamed⟩
      rcases Option.isSome_iff_exists.1 hname with ⟨name, hname⟩
      rw [itemsOver_cons, ih hsorted hnamed, itemOf?_itemsOver_one hj hname]
      by_cases hkey : key = name
      · rw [if_pos hkey, List.filter_cons_of_pos (by simp [hname, hkey])]
        rfl
      · rw [if_neg hkey, List.filter_cons_of_neg (by simp [hname, Ne.symm hkey])]

/-- The names after items were laid over an array: those that were there, and then the new
    ones as they come up first. -/
theorem names_itemsOver {items base : List Json} {names baseNames : List String}
    (hsorted : ∀ j ∈ items, j.IsSorted) (hnames : items.map itemName? = names.map some)
    (hbase : base.map itemName? = baseNames.map some) :
    (itemsOver items base).map itemName? =
      (baseNames ++ (names.filter fun name => name ∉ baseNames).eraseDups).map some := by
  -- The names that are there grow along: a name that was new is known from then on.
  induction items generalizing base names baseNames with
  | nil =>
      rw [List.map_nil, eq_comm, List.map_eq_nil_iff] at hnames
      rw [hnames, List.filter_nil, List.eraseDups_nil, List.append_nil]
      exact hbase
  | cons j rest ih =>
      rcases List.forall_mem_cons.1 hsorted with ⟨hj, hsorted⟩
      rcases List.map_eq_cons_iff.1 hnames.symm with ⟨name, names, rfl, hname, hrest⟩
      have hone := names_itemsOver_one hj hname.symm base
      have hmem : some name ∈ base.map itemName? ↔ name ∈ baseNames := by
        rw [hbase]
        simp
      rw [itemsOver_cons]
      by_cases hknown : name ∈ baseNames
      · rw [if_pos (hmem.2 hknown), List.append_nil, hbase] at hone
        rw [ih hsorted hrest.symm hone, List.filter_cons_of_neg (by simpa using hknown)]
      · rw [if_neg (mt hmem.1 hknown), hbase, ← List.map_singleton, ← List.map_append] at hone
        rw [ih hsorted hrest.symm hone, List.filter_cons_of_pos (by simpa using hknown),
          List.eraseDups_cons, List.append_assoc, List.filter_filter]
        have hfilter : names.filter (fun other => other ∉ baseNames ++ [name]) =
            names.filter fun other => !other == name && decide (other ∉ baseNames) :=
          List.filter_congr fun other _ => by by_cases h : other = name <;> simp [h, hknown]
        rw [hfilter, List.singleton_append]

/-- A member goes through several objects by itself. -/
theorem get?_overAll {overlays : List Json} (hsorted : ∀ j ∈ overlays, j.IsSorted)
    (hobject : ∀ j ∈ overlays, ∃ members, j = object members) {base : Option Json}
    (hbase : ∀ j ∈ base, ∃ members, j = object members) (key : String) :
    (overAll? (overlays.map some) base).bind (get? key) =
      overAll? (overlays.map (get? key)) (base.bind (get? key)) := by
  -- By induction on the layers. Each leaves an object, so the next is laid over an object, too.
  induction overlays generalizing base with
  | nil => rfl
  | cons j rest ih =>
      rcases List.forall_mem_cons.1 hsorted with ⟨hj, hrest⟩
      rcases List.forall_mem_cons.1 hobject with ⟨⟨overlay, rfl⟩, hobjects⟩
      rw [List.map_cons, List.map_cons, overAll?_cons, overAll?_cons]
      cases base with
      | none =>
          have hlaid : ∀ j ∈ some (object overlay), ∃ members, j = object members :=
            fun j hj => ⟨overlay, (Option.some.inj hj).symm⟩
          rw [over?_none_right, ih hrest hobjects hlaid, Option.bind_none, over?_none_right,
            Option.bind_some]
      | some item =>
          rcases hbase item rfl with ⟨members, rfl⟩
          have hlaid : ∀ j ∈ some ((object overlay).laidOver (object members)),
              ∃ members, j = object members := by
            rw [laidOver]
            exact fun j hj => ⟨_, (Option.some.inj hj).symm⟩
          rw [over?_some_some, ih hrest hobjects hlaid, Option.bind_some,
            get?_laidOver hj.nodup_names]
          rfl

/-- Objects laid over an object leave an object. -/
theorem exists_object_overAll {overlays : List Json}
    (hobject : ∀ j ∈ overlays, ∃ members, j = object members) (base : List (String × Json)) :
    ∃ members, overAll? (overlays.map some) (some (object base)) = some (object members) := by
  induction overlays generalizing base with
  | nil => exact ⟨base, rfl⟩
  | cons j rest ih =>
      rcases List.forall_mem_cons.1 hobject with ⟨⟨overlay, rfl⟩, hrest⟩
      rw [List.map_cons, overAll?_cons, over?_some_some, laidOver]
      exact ih hrest _

/-! ### What is merged -/

/-- What comes of laying one document over another: the document itself, unless both are
    objects or both are arrays. -/
theorem laidOver_cases (j below : Json) : j.laidOver below = j ∨
    (∃ overlay base, j = .object overlay ∧ below = .object base ∧
      j.laidOver below = .object (membersOver overlay base)) ∨
    ∃ items base, j = .array items ∧ items ≠ [] ∧
      (∀ item ∈ items, (itemName? item).isSome = true) ∧
      j.laidOver below = .array (itemsOver items base) := by
  cases j with
  | object overlay =>
      cases below with
      | object base => exact .inr (.inl ⟨overlay, base, rfl, rfl, by rw [laidOver]⟩)
      | null | bool | int | float | string | array => exact .inl rfl
  | array items =>
      cases below with
      | array base =>
          rw [laidOver]
          -- Arrays are merged only if all items have names and there are any.
          split
          · rename_i hmerges
            rcases mergesItems_iff.1 hmerges with ⟨hne, hnamed⟩
            exact .inr (.inr ⟨items, base, rfl, hne, hnamed, rfl⟩)
          · exact .inl rfl
      | null | bool | int | float | string | object => exact .inl rfl
  | null | bool | int | float | string => exact .inl (by cases below <;> rfl)

/-- Where items with names are laid over an array, there is an object. -/
theorem exists_object_mem_itemsOver {items : List Json} (hne : items ≠ [])
    (hnamed : ∀ item ∈ items, (itemName? item).isSome = true) (base : List Json) :
    ∃ members, object members ∈ itemsOver items base := by
  -- The last item is an object, and so is what comes of laying it over one of its name.
  rcases List.eq_nil_or_concat items with rfl | ⟨before, j, rfl⟩
  · exact absurd rfl hne
  · rw [List.concat_eq_append] at hnamed ⊢
    rw [itemsOver_append]
    generalize itemsOver before base = base
    rcases Option.isSome_iff_exists.1 (hnamed j (by simp)) with ⟨name, hname⟩
    rcases eq_object_of_itemName hname with ⟨overlay, rfl, -⟩
    induction base with
    | nil => exact ⟨overlay, List.mem_singleton.2 rfl⟩
    | cons item rest ih =>
        by_cases hitem : itemName? item = itemName? (.object overlay)
        · rcases eq_object_of_itemName (hitem.trans hname) with ⟨members, rfl, -⟩
          rw [itemsOver_cons_of_name rest hitem, laidOver]
          exact ⟨_, List.mem_cons_self⟩
        · rw [itemsOver_cons_of_ne rest hitem]
          rcases ih with ⟨members, hmem⟩
          exact ⟨members, List.mem_cons_of_mem _ hmem⟩

theorem eq_null_of_laidOver {j below : Json} (h : j.laidOver below = .null) : j = .null := by
  rcases laidOver_cases j below with heq | ⟨_, _, -, -, heq⟩ | ⟨_, _, -, -, -, heq⟩
  · exact heq ▸ h
  · rw [heq] at h
    cases h
  · rw [heq] at h
    cases h

/-- If an object that is laid over another leaves a single member that is null, then it is
    that object. -/
theorem eq_of_membersOver_eq {overlay base : List (String × Json)} {name : String}
    (hne : overlay ≠ []) (hnodup : (overlay.map Prod.fst).Nodup)
    (h : membersOver overlay base = [(name, .null)]) : overlay = [(name, .null)] := by
  -- Every member of the overlay is found in what is left, so it is the single member.
  have hmember : ∀ m ∈ overlay, m = (name, .null) := by
    rintro ⟨key, j⟩ hm
    have hlaid := lookup_membersOver hnodup base key
    rw [h, lookup_of_mem hnodup hm, lookup_cons_eq_ite, List.lookup_nil] at hlaid
    by_cases hkey : key = name
    · rw [if_pos hkey] at hlaid
      cases hbase : base.lookup key with
      | none =>
          rw [hbase, over?_none_right] at hlaid
          rw [hkey, Option.some.inj hlaid]
      | some below =>
          rw [hbase, over?_some_some] at hlaid
          rw [hkey, eq_null_of_laidOver (Option.some.inj hlaid).symm]
    · rw [if_neg hkey] at hlaid
      cases hbase : base.lookup key <;> rw [hbase] at hlaid <;> cases hlaid
  cases overlay with
  | nil => exact absurd rfl hne
  | cons m rest =>
      have hfirst := hmember m List.mem_cons_self
      cases rest with
      | nil => rw [hfirst]
      | cons n rest =>
          have hsecond := hmember n (List.mem_cons_of_mem _ List.mem_cons_self)
          rw [hfirst, hsecond] at hnodup
          exact absurd List.mem_cons_self (List.nodup_cons.1 hnodup).1

/-! ### Sorted documents -/

/-- After an item is laid over a list, each one there is the item, one of the list, or the item
    merged into one of the list. -/
theorem mem_itemsOver_one {j item : Json} {base : List Json} (h : item ∈ itemsOver [j] base) :
    item = j ∨ item ∈ base ∨ ∃ below ∈ base, item = j.laidOver below := by
  induction base with
  | nil => exact .inl (List.mem_singleton.1 h)
  | cons below rest ih =>
      by_cases hname : itemName? below = itemName? j
      · rw [itemsOver_cons_of_name rest hname] at h
        rcases List.mem_cons.1 h with rfl | h
        · exact .inr (.inr ⟨below, List.mem_cons_self, rfl⟩)
        · exact .inr (.inl (List.mem_cons_of_mem _ h))
      · rw [itemsOver_cons_of_ne rest hname] at h
        rcases List.mem_cons.1 h with rfl | h
        · exact .inr (.inl List.mem_cons_self)
        · rcases ih h with h | h | ⟨below, hbelow, h⟩
          · exact .inl h
          · exact .inr (.inl (List.mem_cons_of_mem _ h))
          · exact .inr (.inr ⟨below, List.mem_cons_of_mem _ hbelow, h⟩)

/-- Sorted items laid over sorted ones give sorted ones, as long as those that are merged do. -/
theorem isSorted_itemsOver {items base : List Json} (hitems : ∀ j ∈ items, j.IsSorted)
    (hlaid : ∀ j ∈ items, ∀ below : Json, below.IsSorted → (j.laidOver below).IsSorted)
    (hbase : ∀ j ∈ base, j.IsSorted) : ∀ j ∈ itemsOver items base, j.IsSorted := by
  induction items generalizing base with
  | nil => exact hbase
  | cons j rest ih =>
      rcases List.forall_mem_cons.1 hitems with ⟨hj, hitems⟩
      rcases List.forall_mem_cons.1 hlaid with ⟨hjlaid, hlaid⟩
      rw [itemsOver_cons]
      refine ih hitems hlaid fun item hitem => ?_
      rcases mem_itemsOver_one hitem with rfl | hitem | ⟨below, hbelow, rfl⟩
      · exact hj
      · exact hbase item hitem
      · exact hjlaid below (hbase below hbelow)

/-- Sorted members laid over a sorted object make one, as long as the values that have something
    below them merge into sorted ones. -/
theorem isSorted_membersOver {overlay base : List (String × Json)}
    (hoverlay : ∀ m ∈ overlay, m.2.IsSorted)
    (hlaid : ∀ m ∈ overlay, ∀ below : Json, below.IsSorted → (m.2.laidOver below).IsSorted)
    (hbase : (object base).IsSorted) : (object (membersOver overlay base)).IsSorted := by
  induction overlay generalizing base with
  | nil => exact hbase
  | cons m rest ih =>
      rcases m with ⟨name, j⟩
      rcases List.forall_mem_cons.1 hoverlay with ⟨hj, hoverlay⟩
      rcases List.forall_mem_cons.1 hlaid with ⟨hjlaid, hlaid⟩
      cases hbase with
      | object hpairwise hvalues =>
          -- A value that is put in its place keeps the order of the names.
          have hinsert : ∀ {value : Json}, value.IsSorted →
              (object (insertMember name value base)).IsSorted := fun hvalue => by
            refine .object (pairwise_insertMember hpairwise) fun n hn => ?_
            rcases mem_insertMember hn with rfl | hn
            · exact hvalue
            · exact hvalues n hn
          rw [membersOver]
          split
          · rename_i below hbelow
            exact ih hoverlay hlaid
              (hinsert (hjlaid below (hvalues _ (mem_of_lookup_eq_some hbelow))))
          · exact ih hoverlay hlaid (hinsert hj)

/-- Sorted documents laid over each other are sorted. -/
theorem IsSorted.laidOver {j base : Json} (hj : j.IsSorted) (hbase : base.IsSorted) :
    (j.laidOver base).IsSorted := by
  -- The overlay is what the merge recurses on.
  induction hj generalizing base with
  | null => exact .null
  | bool value => exact .bool value
  | int value => exact .int value
  | float value => exact .float value
  | string value => exact .string value
  | array hitems ih =>
      cases hbase with
      | array hbase =>
          rw [Json.laidOver]
          split
          · exact .array (isSorted_itemsOver hitems (fun j hj _ hbelow => ih j hj hbelow) hbase)
          · exact .array hitems
      | null | bool | int | float | string | object => exact .array hitems
  | object hpairwise hvalues ih =>
      cases hbase with
      | object hbase hbaseValues =>
          rw [Json.laidOver]
          exact isSorted_membersOver hvalues (fun m hm _ hbelow => ih m hm hbelow)
            (.object hbase hbaseValues)
      | null | bool | int | float | string | array => exact .object hpairwise hvalues

end Json

end PolyScript
