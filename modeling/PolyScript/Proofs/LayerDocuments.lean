import PolyScript.Proofs.SortedDocuments
import PolyScript.Settings.Load

/-!
# Documents of Layers

TOML keeps the entries of a table in the order in which they came, and a table may be
added to from several places until the text ends. Its document is sorted all the same:
every object in it comes from a table, and is sorted when the table is turned into a
document, or else stands for a moment and has one member. So the only thing that has to be
carried along while a text is read is that the scalars in the tables are sorted documents.

## Main definitions

* `Toml.Item.IsSorted`, `Toml.Table.IsSorted`: All scalars in an item or a table are sorted.

## Theorems

* `Toml.isSorted_of_parse`: TOML documents are sorted.
* `Layer.of_read`: The documents of all layers are sorted objects.
-/

namespace PolyScript

namespace Toml

mutual

/-- All scalars in an item are sorted. -/
inductive Item.IsSorted : Item → Prop
  | scalar {json : Json} : json.IsSorted → Item.IsSorted (.scalar json)
  | array {items : List Item} : (∀ i ∈ items, Item.IsSorted i) → Item.IsSorted (.array items)
  | inline {t : Table} : Table.IsSorted t → Item.IsSorted (.inline t)
  | table {t : Table} : Table.IsSorted t → Item.IsSorted (.table t)
  | tables {ts : List Table} : (∀ t ∈ ts, Table.IsSorted t) → Item.IsSorted (.tables ts)

/-- All scalars in a table are sorted. -/
inductive Table.IsSorted : Table → Prop
  | mk {isImplicit isDotted : Bool} {entries : List (String × Item)} :
    (∀ e ∈ entries, Item.IsSorted e.2) → Table.IsSorted (.mk isImplicit isDotted entries)

end

/-! ### Scalars -/

/-- A moment becomes an object of one member. -/
theorem isSorted_of_moment {cs rest : List Char} {j : Json} (h : moment? cs = some (j, rest)) :
    j.IsSorted := by
  have hmoment : ∀ text, (momentJson text).IsSorted := fun text =>
    .object (List.pairwise_singleton _ _) (List.forall_mem_singleton.2 (.string text))
  unfold moment? at h
  split at h
  · rcases Option.map_eq_some_iff.1 h with ⟨_, _, heq⟩
    cases heq
    exact hmoment _
  · split at h
    · cases h
    · split at h
      · split at h
        · rcases Option.bind_eq_some_iff.1 h with ⟨_, _, h⟩
          rcases Option.bind_eq_some_iff.1 h with ⟨_, _, h⟩
          cases h
          exact hmoment _
        · cases h
          exact hmoment _
      · cases h
        exact hmoment _

theorem isSorted_of_int64 {negative : Bool} {radix : Nat} {digits : List Char} {j : Json}
    (h : int64? negative radix digits = some j) : j.IsSorted := by
  unfold int64? at h
  split at h
  · rw [← Option.some.inj (Option.ite_none_right_eq_some.1 h).2]
    exact .int _
  · cases h

/-- Decimal numbers become numbers, and those too large to be written as such become nothing. -/
theorem isSorted_of_decimal {negative : Bool} {cs rest : List Char} {j : Json}
    (h : decimal? negative cs = some (j, rest)) : j.IsSorted := by
  have hfloat : ∀ d, (floatJson d).IsSorted := by
    intro d
    unfold floatJson
    split
    · exact .float d
    · exact .null
  unfold decimal? at h
  dsimp only at h
  split at h
  · cases h
  · split at h
    · cases h
    · split at h
      · cases h
      · split at h
        · rcases Option.map_eq_some_iff.1 h with ⟨_, hint, heq⟩
          cases heq
          exact isSorted_of_int64 hint
        · split at h
          · cases h
          · split at h <;> cases h
            exact hfloat _

/-- So do numbers in other radices. -/
theorem isSorted_of_number {cs rest : List Char} {j : Json} (h : number? cs = some (j, rest)) :
    j.IsSorted := by
  have hradix : ∀ {radix cs}, inRadix? radix cs = some (j, rest) → j.IsSorted := by
    intro radix cs h
    rcases Option.map_eq_some_iff.1 h with ⟨_, hint, heq⟩
    cases heq
    exact isSorted_of_int64 hint
  unfold number? at h
  split at h
  · exact hradix h
  · exact hradix h
  · exact hradix h
  · dsimp only at h
    split at h
    · cases h
      exact .null
    · cases h
      exact .null
    · exact isSorted_of_decimal h

/-- Scalars become values without members, moments apart. -/
theorem isSorted_of_scalar {cs rest : List Char} {i : Item}
    (h : scalar? cs = some (i, rest)) : i.IsSorted := by
  rcases Option.map_eq_some_iff.1 h with ⟨r, hr, heq⟩
  cases heq
  refine .scalar ?_
  unfold scalarJson? at hr
  split at hr
  · cases hr
    exact .bool _
  · cases hr
    exact .bool _
  · rcases Option.map_eq_some_iff.1 hr with ⟨_, _, rfl⟩
    exact .string _
  · rcases Option.map_eq_some_iff.1 hr with ⟨_, _, rfl⟩
    exact .string _
  · split at hr
    · exact isSorted_of_moment hr
    · exact isSorted_of_number hr

/-! ### Tables -/

namespace Table

variable {t : Table}

theorem isSorted_empty : empty.IsSorted := .mk (List.forall_mem_nil _)

theorem IsSorted.entries (h : t.IsSorted) : ∀ e ∈ t.entries, e.2.IsSorted := by
  cases h with
  | mk h => exact h

theorem IsSorted.get {key : String} {i : Item} (h : t.IsSorted) (hi : t.get? key = some i) :
    i.IsSorted :=
  h.entries _ (mem_of_lookup_eq_some hi)

theorem IsSorted.set {key : String} {i : Item} (h : t.IsSorted) (hi : i.IsSorted) :
    (t.set key i).IsSorted := by
  refine .mk ?_
  have hentries := h.entries
  generalize t.entries = entries at hentries
  fun_induction putEntry key i entries with
  | case1 => exact List.forall_mem_singleton.2 hi
  | case2 => exact List.forall_mem_cons.2 ⟨hi, (List.forall_mem_cons.1 hentries).2⟩
  | case3 _ _ _ _ ih =>
      rcases List.forall_mem_cons.1 hentries with ⟨hfirst, hrest⟩
      exact List.forall_mem_cons.2 ⟨hfirst, ih hrest⟩

theorem IsSorted.erase {key : String} (h : t.IsSorted) : (t.erase key).IsSorted :=
  .mk fun e he => h.entries e (List.mem_of_mem_filter he)

/-- What changes the last item of a list keeps a property of all items, if the change keeps
    it. -/
theorem forall_of_updateLast {α : Type} {P : α → Prop} {change : α → Option α} {xs ys : List α}
    (hchange : ∀ a b, P a → change a = some b → P b) (h : ∀ a ∈ xs, P a)
    (hys : updateLast? change xs = some ys) : ∀ b ∈ ys, P b := by
  fun_induction updateLast? change xs generalizing ys with
  | case1 => cases hys
  | case2 a =>
      rcases Option.map_eq_some_iff.1 hys with ⟨b, hb, rfl⟩
      exact List.forall_mem_singleton.2 (hchange a b (h a List.mem_cons_self) hb)
  | case3 a rest _ ih =>
      rcases Option.map_eq_some_iff.1 hys with ⟨changed, hchanged, rfl⟩
      rcases List.forall_mem_cons.1 h with ⟨hfirst, hrest⟩
      exact List.forall_mem_cons.2 ⟨hfirst, ih hrest hchanged⟩

/-- What is changed at the end of a path. -/
theorem IsSorted.update {dotted : Bool} {change : Table → Option Table}
    (hchange : ∀ t u, t.IsSorted → change t = some u → u.IsSorted) {path : List String}
    {u : Table} (h : t.IsSorted) (hu : update dotted change path t = some u) : u.IsSorted := by
  induction path generalizing t u with
  | nil => exact hchange t u h hu
  | cons key path ih =>
      rw [Table.update] at hu
      split at hu
      -- A table that is missing on the way begins without entries.
      · rcases Option.map_eq_some_iff.1 hu with ⟨child, hchild, rfl⟩
        exact h.set (.table (ih (.mk (List.forall_mem_nil _)) hchild))
      · rename_i child hget
        split at hu
        · cases hu
        · rcases Option.map_eq_some_iff.1 hu with ⟨child', hchild, rfl⟩
          cases h.get hget with
          | table hold => exact h.set (.table (ih hold hchild))
      · rename_i children hget
        rcases Option.map_eq_some_iff.1 hu with ⟨children', hchildren, rfl⟩
        cases h.get hget with
        | tables hold =>
            exact h.set (.tables (forall_of_updateLast (fun _ _ => ih) hold hchildren))
      · cases hu

/-- Defining a key in a sorted table leaves it sorted, wherever on its path the table is
    changed. -/
theorem IsSorted.define {path : List String} {key : String} {value : Item} {u : Table}
    (h : t.IsSorted) (hvalue : value.IsSorted) (hu : t.define path key value = some u) :
    u.IsSorted := by
  refine h.update (fun t u ht hu => ?_) hu
  split at hu
  · cases hu
  · split at hu
    · cases hu
    · cases hu
      exact ht.set hvalue

theorem IsSorted.name {path : List String} {key : String} {u : Table}
    (h : t.IsSorted) (hu : t.name path key = some u) : u.IsSorted := by
  refine h.update (fun t u ht hu => ?_) hu
  split at hu
  · cases hu
    exact ht.set (.table isSorted_empty)
  · rename_i child hget
    split at hu <;> cases hu
    cases ht.get hget with
    | table hchild => exact ht.erase.set (.table (.mk hchild.entries))
  · cases hu

/-- Appending a table to an array of tables leaves the table around it sorted. -/
theorem IsSorted.append {path : List String} {key : String} {u : Table}
    (h : t.IsSorted) (hu : t.append path key = some u) : u.IsSorted := by
  refine h.update (fun t u ht hu => ?_) hu
  split at hu
  · cases hu
    exact ht.set (.tables (List.forall_mem_singleton.2 isSorted_empty))
  · rename_i children hget
    cases hu
    cases ht.get hget with
    | tables hchildren =>
        exact ht.set (.tables (List.forall_mem_append.2
          ⟨hchildren, List.forall_mem_singleton.2 isSorted_empty⟩))
  · cases hu

/-! ### The document of a table -/

mutual

/-- A table becomes an object with its members in the order of their keys, or a moment if it
    stands for one. -/
theorem isSorted_of_toJson : ∀ {t : Table} {j : Json}, t.IsSorted → t.toJson? = some j →
    j.IsSorted
  | .mk _ _ entries, j, .mk h, hj => by
      rw [toJson?] at hj
      split at hj
      -- The table stands for a moment, whatever else it holds.
      · unfold momentOfText? at hj
        split at hj
        · rename_i hmoment
          cases hj
          exact isSorted_of_moment hmoment
        · cases hj
      · cases hj
      · rcases Option.map_eq_some_iff.1 hj with ⟨members, hmembers, rfl⟩
        exact Json.isSorted_ofMembers (isSorted_of_entriesJson h hmembers)

/-- An item of a table becomes a document of its own, by its kind. -/
theorem isSorted_of_itemJson : ∀ {i : Item} {j : Json}, i.IsSorted → itemJson? i = some j →
    j.IsSorted
  | .scalar json, j, .scalar h, hj => by
      cases hj
      exact h
  | .array items, j, .array h, hj => by
      rw [itemJson?] at hj
      rcases Option.map_eq_some_iff.1 hj with ⟨js, hjs, rfl⟩
      exact .array (isSorted_of_itemsJson h hjs)
  | .inline t, j, .inline h, hj => by
      rw [itemJson?] at hj
      exact isSorted_of_toJson h hj
  | .table t, j, .table h, hj => by
      rw [itemJson?] at hj
      exact isSorted_of_toJson h hj
  | .tables ts, j, .tables h, hj => by
      rw [itemJson?] at hj
      rcases Option.map_eq_some_iff.1 hj with ⟨js, hjs, rfl⟩
      exact .array (isSorted_of_tablesJson h hjs)

/-- So do the entries of a table, one by one. -/
theorem isSorted_of_entriesJson : ∀ {entries : List (String × Item)}
    {members : List (String × Json)}, (∀ e ∈ entries, e.2.IsSorted) →
    entriesJson? entries = some members → ∀ m ∈ members, m.2.IsSorted
  | [], members, _, hmembers => by
      cases hmembers
      exact List.forall_mem_nil _
  | (key, i) :: rest, members, h, hmembers => by
      rcases List.forall_mem_cons.1 h with ⟨hfirst, hrest⟩
      rw [entriesJson?] at hmembers
      split at hmembers
      · rename_i hj hmembers'
        cases hmembers
        exact List.forall_mem_cons.2
          ⟨isSorted_of_itemJson hfirst hj, isSorted_of_entriesJson hrest hmembers'⟩
      · cases hmembers

theorem isSorted_of_itemsJson : ∀ {items : List Item} {js : List Json},
    (∀ i ∈ items, i.IsSorted) → itemsJson? items = some js → ∀ j ∈ js, j.IsSorted
  | [], js, _, hjs => by
      cases hjs
      exact List.forall_mem_nil _
  | i :: rest, js, h, hjs => by
      rcases List.forall_mem_cons.1 h with ⟨hfirst, hrest⟩
      rw [itemsJson?] at hjs
      split at hjs
      · rename_i hj hjs'
        cases hjs
        exact List.forall_mem_cons.2
          ⟨isSorted_of_itemJson hfirst hj, isSorted_of_itemsJson hrest hjs'⟩
      · cases hjs

theorem isSorted_of_tablesJson : ∀ {ts : List Table} {js : List Json},
    (∀ t ∈ ts, t.IsSorted) → tablesJson? ts = some js → ∀ j ∈ js, j.IsSorted
  | [], js, _, hjs => by
      cases hjs
      exact List.forall_mem_nil _
  | t :: rest, js, h, hjs => by
      rcases List.forall_mem_cons.1 h with ⟨hfirst, hrest⟩
      rw [tablesJson?] at hjs
      split at hjs
      · rename_i hj hjs'
        cases hjs
        exact List.forall_mem_cons.2
          ⟨isSorted_of_toJson hfirst hj, isSorted_of_tablesJson hrest hjs'⟩
      · cases hjs

end

end Table

/-! ### Reading -/

section Reading

variable {value : List Char → Option (Item × List Char)}

theorem isSorted_of_keyValue (hvalue : ∀ {cs i rest}, value cs = some (i, rest) → i.IsSorted)
    {cs rest : List Char} {path : List String} {key : String} {i : Item}
    (h : keyValue? value cs = some ((path, key, i), rest)) : i.IsSorted := by
  unfold keyValue? at h
  split at h
  · split at h
    · rename_i hi
      cases h
      exact hvalue hi
    · cases h
  · cases h

/-- Items of an array are sorted if all values that can be read are, by induction on the number
    of items that are allowed. -/
theorem isSorted_of_items (hvalue : ∀ {cs i rest}, value cs = some (i, rest) → i.IsSorted)
    {n : Nat} {cs rest : List Char} {items : List Item}
    (h : items? value n cs = some (items, rest)) : ∀ i ∈ items, i.IsSorted := by
  induction n generalizing cs items with
  | zero => cases h
  | succ n ih =>
      rw [items?] at h
      split at h
      · cases h
      · cases h
        exact List.forall_mem_nil _
      · split at h
        · cases h
        · rename_i hi
          split at h
          · split at h
            · rename_i hitems
              cases h
              exact List.forall_mem_cons.2 ⟨hvalue hi, ih hitems⟩
            · cases h
          · cases h
            exact List.forall_mem_singleton.2 (hvalue hi)
          · cases h

/-- The entries of an inline table leave a sorted table sorted, if the values do. By induction on
    the rounds of the reader, which may end behind any entry. -/
theorem isSorted_of_inlineEntries
    (hvalue : ∀ {cs i rest}, value cs = some (i, rest) → i.IsSorted) {n : Nat} {t u : Table}
    {cs rest : List Char} (ht : t.IsSorted) (h : inlineEntries? value n t cs = some (u, rest)) :
    u.IsSorted := by
  induction n generalizing t cs with
  | zero => cases h
  | succ n ih =>
      rw [inlineEntries?] at h
      split at h
      · cases h
      · rename_i hkey
        split at h
        · cases h
        · rename_i hdefine
          have hdefined := ht.define (isSorted_of_keyValue hvalue hkey) hdefine
          split at h
          · exact ih hdefined h
          · cases h
            exact hdefined
          · cases h

end Reading

/-- The nesting that is still allowed carries the induction, as it does the reading. -/
theorem isSorted_of_value {depth : Nat} {cs rest : List Char} {i : Item}
    (h : value? depth cs = some (i, rest)) : i.IsSorted := by
  induction depth generalizing cs rest i with
  | zero =>
      unfold value? at h
      split at h
      · cases h
      · cases h
      · exact isSorted_of_scalar h
  | succ depth ih =>
      unfold value? at h
      split at h
      · rcases Option.map_eq_some_iff.1 h with ⟨r, hr, heq⟩
        cases heq
        exact .array (isSorted_of_items ih hr)
      · split at h
        · cases h
          exact .inline Table.isSorted_empty
        · rcases Option.map_eq_some_iff.1 h with ⟨r, hr, heq⟩
          cases heq
          exact .inline (isSorted_of_inlineEntries ih Table.isSorted_empty hr)
      · exact isSorted_of_scalar h

/-- A header leaves the draft sorted, be it for a table or for an array of tables. -/
theorem isSorted_of_header {isArray : Bool} {draft draft' : Draft} {cs rest : List Char}
    (hdraft : draft.root.IsSorted) (h : header? isArray draft cs = some (draft', rest)) :
    draft'.root.IsSorted := by
  unfold header? at h
  split at h
  · cases h
  · dsimp only at h
    split at h
    · rcases Option.map_eq_some_iff.1 h with ⟨root, hroot, heq⟩
      cases heq
      split at hroot
      · exact hdraft.append hroot
      · exact hdraft.name hroot
    · cases h

/-- An entry leaves the draft sorted, as it is defined in the table at hand. -/
theorem isSorted_of_entry {draft draft' : Draft} {cs rest : List Char}
    (hdraft : draft.root.IsSorted) (h : entry? draft cs = some (draft', rest)) :
    draft'.root.IsSorted := by
  unfold entry? at h
  split at h
  · cases h
  · rename_i hkey
    split at h
    · cases h
    · rcases Option.map_eq_some_iff.1 h with ⟨root, hroot, heq⟩
      cases heq
      have hvalue := isSorted_of_keyValue isSorted_of_value hkey
      exact hdraft.update (fun t u ht hu => ht.define hvalue hu) hroot

/-- The lines of a document leave the root of a sorted draft sorted. A header and an entry each
    keep it so, and nothing else changes the draft. -/
theorem isSorted_of_lines {n : Nat} {draft draft' : Draft} {cs : List Char}
    (hdraft : draft.root.IsSorted) (h : lines? n draft cs = some draft') :
    draft'.root.IsSorted := by
  -- By induction on the lines that are left. A header and an entry change the draft, each keeping
  -- it sorted.
  induction n generalizing draft cs with
  | zero =>
      rw [lines?] at h
      split at h <;> cases h
      exact hdraft
  | succ n ih =>
      rw [lines?] at h
      split at h
      · cases h
        exact hdraft
      · split at h
        · exact ih hdraft h
        · cases h
      · split at h
        · rename_i hheader
          exact ih (isSorted_of_header hdraft hheader) h
        · cases h
      · split at h
        · rename_i hheader
          exact ih (isSorted_of_header hdraft hheader) h
        · cases h
      · split at h
        · exact ih hdraft h
        · split at h
          · rename_i hentry
            exact ih (isSorted_of_entry hdraft hentry) h
          · cases h

/-- TOML documents are sorted. -/
theorem isSorted_of_parse {text : String} {j : Json} (h : parse? text = some j) :
    j.IsSorted := by
  rcases Option.bind_eq_some_iff.1 h with ⟨draft, hdraft, hj⟩
  exact Table.isSorted_of_toJson (isSorted_of_lines Table.isSorted_empty hdraft) hj

end Toml

/-! ### Layers -/

namespace Layer

/-- A document that is read, in either format, is a sorted object: both readers insert members at
    the place of their key. -/
theorem of_document {origin : String} {format : Format} {text : String} {d : Json}
    (h : document origin format text = .ok d) : d.IsSorted ∧ ∃ members, d = .object members := by
  unfold document at h
  dsimp only at h
  split at h
  · cases h
  · rename_i members hparsed
    cases h
    refine ⟨?_, members, rfl⟩
    cases format with
    | json =>
        dsimp only at hparsed
        split at hparsed <;> cases hparsed
        exact Json.isSorted_of_parse (by assumption)
    | toml =>
        dsimp only at hparsed
        split at hparsed <;> cases hparsed
        exact Toml.isSorted_of_parse (by assumption)
  · cases h

/-- The documents of layers are sorted objects. -/
theorem of_read {k : Nat} {layer : Layer} {d : Json} (h : layer.read k = .ok d) :
    d.IsSorted ∧ ∃ members, d = .object members := by
  cases layer with
  | file path content =>
      rw [read] at h
      split at h
      · cases h
      · split at h
        · cases h
        · exact of_document h
  | inline format text => exact of_document h

end Layer

end PolyScript
