import Mathlib.Data.List.Nodup

/-!
# Looking Keys Up

Tables are lists of keys with values, in which the first entry of a key is the one that
counts. If no key comes twice then it does not matter that it is the first.

## Theorems

* `mem_of_lookup_eq_some`: What is found is an entry.
* `lookup_of_mem`: An entry is found, if its key comes once.
* `lookup_isSome_iff`: The keys that are found.
* `lookup_eq_of_perm`: Tables with the same entries, each key once.
* `find?_eq_some_of_mem`: The same for items that carry their keys.
-/

namespace PolyScript

section Tables

variable {κ α : Type} [BEq κ] [LawfulBEq κ] {entries : List (κ × α)} {key : κ} {value : α}

theorem mem_of_lookup_eq_some (h : entries.lookup key = some value) : (key, value) ∈ entries := by
  rcases List.lookup_eq_some_iff.1 h with ⟨before, behind, rfl, -⟩
  exact List.mem_append_right _ List.mem_cons_self

theorem lookup_isSome_iff : (entries.lookup key).isSome = true ↔ key ∈ entries.map Prod.fst := by
  rw [List.lookup_isSome_iff, List.mem_map]
  simp only [beq_iff_eq, eq_comm (a := key)]

/-- A key that comes once is found wherever it stands. -/
theorem lookup_of_mem (hnodup : (entries.map Prod.fst).Nodup) (hmem : (key, value) ∈ entries) :
    entries.lookup key = some value := by
  have hfound := lookup_isSome_iff.2 (List.mem_map_of_mem hmem)
  rcases Option.isSome_iff_exists.1 hfound with ⟨other, hother⟩
  have hsame := List.inj_on_of_nodup_map hnodup (mem_of_lookup_eq_some hother) hmem rfl
  rw [hother, (Prod.mk.inj hsame).2]

/-- It does not matter either how the entries are ordered. -/
theorem lookup_eq_of_perm {entries' : List (κ × α)} (hperm : entries.Perm entries')
    (hnodup : (entries.map Prod.fst).Nodup) (key : κ) :
    entries.lookup key = entries'.lookup key := by
  have hnodup' : (entries'.map Prod.fst).Nodup := (hperm.map _).nodup_iff.1 hnodup
  refine Option.ext fun value => ⟨fun h => ?_, fun h => ?_⟩
  · exact lookup_of_mem hnodup' (hperm.mem_iff.1 (mem_of_lookup_eq_some h))
  · exact lookup_of_mem hnodup (hperm.mem_iff.2 (mem_of_lookup_eq_some h))

end Tables

/-- An item is found by its key, if no two items have the same. -/
theorem find?_eq_some_of_mem {κ α : Type} [DecidableEq κ] {key : α → κ} {items : List α} {item : α}
    (hnodup : (items.map key).Nodup) (hmem : item ∈ items) :
    items.find? (fun other => key other = key item) = some item := by
  cases hfound : items.find? (fun other => key other = key item) with
  | none => exact absurd (decide_eq_true rfl) (List.find?_eq_none.1 hfound item hmem)
  | some other =>
      have hkey : key other = key item := by simpa using List.find?_some hfound
      exact congrArg some
        (List.inj_on_of_nodup_map hnodup (List.mem_of_find?_eq_some hfound) hmem hkey)

end PolyScript
