import Mathlib.Data.List.Induction
import Mathlib.Data.Option.Basic
import PolyScript.Proofs.Overlays
import PolyScript.Proofs.Records

/-!
# The Last Word on a Field

Layers mention a field any number of times. A field that is decoded from a number, a truth
value or a text has what the last of them says, because none of these can be merged with
what was there before: only objects and arrays of named items can. A case is different. It
may be written as an object with one member, and objects are merged, so an object without
members says nothing and leaves the case as it was.

Everything is said for any field of any record, so that it need not be repeated for each.

## Main definitions

* `Decode.keeping`: A field that keeps a value if it is not given.
* `Json.lastSays`: What the last document that sets a member says it is.
* `Decode.Firm`: Documents that are decoded are not merged with others.

## Theorems

* `Decode.Firm.overAll`: The last word on a field counts.
* `Decode.firm_int32`, `Decode.firm_size`, `Decode.firm_bool`, `Decode.firm_texts`,
  `Decode.firm_case`: Fields of which this holds.
* `Decode.lastSays_of_ofJson`: Layers of records, field by field.
-/

namespace PolyScript

namespace Decode

/-- A field that keeps a value, if there is one, when it is not given. -/
def keeping {α : Type} (kept : Option α) (decode : Json → Option α) : Option Json → Option α
  | some j => decode j
  | none => kept

theorem keeping_of_optional {α : Type} {default value : α} {decode : Json → Option α}
    {field : Option Json} (h : optional default decode field = some value) :
    keeping (some default) decode field = some value := by
  cases field <;> exact h

theorem keeping_of_required {α : Type} {value : α} {decode : Json → Option α}
    {field : Option Json} (h : required decode field = some value) :
    keeping none decode field = some value := by
  cases field <;> exact h

end Decode

/-- What the last of several documents that sets a member says it is, or else a default.
    Not everything that stands under the name of the member may count as setting it. -/
def Json.lastSays {α : Type} (sets : Json → Bool) (member : String) (decode : Json → Option α)
    (default : Option α) (docs : List Json) : Option α :=
  Decode.keeping default decode (docs.filterMap fun d => (d.get? member).filter sets).getLast?

namespace Decode

/-- Documents that are decoded are not merged with others. Those that do not count are not
    decoded by themselves, and leave what they are laid over as it was. -/
structure Firm {α : Type} (sets : Json → Bool) (decode : Json → Option α) : Prop where
  laid : ∀ {j below : Json} {value : α}, j.IsSorted → sets j = true →
    decode (j.laidOver below) = some value → decode j = some value
  kept : ∀ {j below : Json} {value : α}, sets j = false →
    decode (j.laidOver below) = some value → decode below = some value
  alone : ∀ {j : Json}, sets j = false → decode j = none

/-- The last word on a field counts. -/
theorem Firm.overAll {α : Type} {sets : Json → Bool} {decode : Json → Option α}
    (hfirm : Firm sets decode) {kept : Option α} {overlays : List (Option Json)}
    (hsorted : ∀ j, some j ∈ overlays → j.IsSorted) {base : Option Json} {value : α}
    (h : keeping kept decode (Json.overAll? overlays base) = some value) :
    keeping (keeping kept decode base) decode
      (overlays.filterMap fun j => j.filter sets).getLast? = some value := by
  -- The last document is taken off: it decides if it counts, and changes nothing if not.
  induction overlays using List.reverseRecOn generalizing value with
  | nil => exact h
  | append_singleton before j ih =>
      rw [Json.overAll?_append_one] at h
      have hbefore : ∀ j, some j ∈ before → j.IsSorted := fun k hk =>
        hsorted k (List.mem_append_left _ hk)
      rw [List.filterMap_append]
      cases j with
      | none => simpa using ih hbefore h
      | some j =>
          have hj : j.IsSorted := hsorted j (List.mem_append_right _ List.mem_cons_self)
          cases hsets : sets j with
          | true =>
              have hdecode : decode j = some value := by
                cases hbelow : Json.overAll? before base with
                | none => rw [hbelow] at h; exact h
                | some below => rw [hbelow] at h; exact hfirm.laid hj hsets h
              simpa [Option.filter, hsets, keeping] using hdecode
          | false =>
              have hkept : keeping kept decode (Json.overAll? before base) = some value := by
                cases hbelow : Json.overAll? before base with
                | none =>
                    rw [hbelow] at h
                    exact absurd ((hfirm.alone hsets).symm.trans h) (by simp)
                | some below => rw [hbelow] at h; exact hfirm.kept hsets h
              simpa [Option.filter, hsets] using ih hbefore hkept

/-! ### Fields that are not merged -/

/-- What is decoded from neither objects nor arrays is not merged. -/
theorem firm_of_none {α : Type} {decode : Json → Option α}
    (hobject : ∀ members, decode (.object members) = none)
    (harray : ∀ items, decode (.array items) = none) : Firm (fun _ => true) decode where
  laid {j below value} _ _ h := by
    rcases Json.laidOver_cases j below with heq | ⟨_, _, -, -, heq⟩ | ⟨_, _, -, -, -, heq⟩
    · exact heq ▸ h
    · rw [heq, hobject] at h
      cases h
    · rw [heq, harray] at h
      cases h
  kept h := by cases h
  alone h := by cases h

theorem firm_int32 : Firm (fun _ => true) int32? := firm_of_none (fun _ => rfl) fun _ => rfl

theorem firm_nullable_int32 : Firm (fun _ => true) (nullable int32?) :=
  firm_of_none (fun _ => rfl) fun _ => rfl

theorem firm_size : Firm (fun _ => true) size? := firm_of_none (fun _ => rfl) fun _ => rfl

theorem firm_bool : Firm (fun _ => true) Json.bool? := firm_of_none (fun _ => rfl) fun _ => rfl

/-- A list of texts is not merged: items that are texts have no names. -/
theorem firm_texts : Firm (fun _ => true) (list? Json.string?) where
  laid {j below value} _ _ h := by
    rcases Json.laidOver_cases j below with heq | ⟨_, _, -, -, heq⟩ |
      ⟨items, base, -, hne, hnamed, heq⟩
    · exact heq ▸ h
    · rw [heq] at h
      cases h
    · rw [heq, list?_array_eq_some_iff] at h
      rcases Json.exists_object_mem_itemsOver hne hnamed base with ⟨members, hmem⟩
      rcases forall₂_mem_right h.flip hmem with ⟨text, -, htext⟩
      cases htext
  kept h := by cases h
  alone h := by cases h

/-- Whether a document says anything about a case: an object without members does not. -/
def namesCase : Json → Bool
  | .object [] => false
  | _ => true

/-- What names a case is a text, or an object with one member. An object laid over another one
    may add a second member, so that neither is named any more, and then nothing is read at
    all. -/
theorem firm_case {α : Type} (ofName? : String → Option α) :
    Firm namesCase fun j => (case? j).bind ofName? where
  laid {j below value} hj hsets h := by
    -- What is laid over decides, except that an object without members changes nothing.
    rcases Json.laidOver_cases j below with heq | ⟨overlay, base, rfl, -, heq⟩ |
      ⟨_, _, -, -, -, heq⟩
    · exact heq ▸ h
    · rw [heq] at h
      have hne : overlay ≠ [] := fun hnil => by
        rw [hnil] at hsets
        cases hsets
      generalize hmembers : Json.membersOver overlay base = members at h
      rcases Option.bind_eq_some_iff.1 h with ⟨name, hcase, hname⟩
      unfold case? at hcase
      split at hcase
      · rename_i hstring
        cases hstring
      · rename_i hobject
        cases hobject
        rw [Json.eq_of_membersOver_eq hne hj.nodup_names hmembers]
        exact Option.bind_eq_some_iff.2 ⟨name, hcase, hname⟩
      · cases hcase
    · rw [heq] at h
      cases h
  kept {j below value} hsets h := by
    unfold namesCase at hsets
    split at hsets
    · cases below with
      | object base => rwa [Json.laidOver, Json.membersOver] at h
      | null | bool | int | float | string | array => cases h
    · cases hsets
  alone {j} hsets := by
    unfold namesCase at hsets
    split at hsets
    · rfl
    · cases hsets

/-! ### Layers of records -/

/-- Layers of records, field by field: a record has what the last layer that sets a field
    says it is, or else what the record below has, or else the default of the field. -/
theorem lastSays_of_ofJson {ρ α : Type} {ofJson? : Json → Option ρ} {member : String}
    {decode : Json → Option α} {default : Option α} {field : ρ → α} {sets : Json → Bool}
    (hreads : ∀ {members : List (String × Json)} {r : ρ}, ofJson? (.object members) = some r →
      keeping default decode (members.lookup member) = some (field r))
    (hfirm : Firm sets decode) {layers : List Json} (hsorted : ∀ d ∈ layers, d.IsSorted)
    (hobject : ∀ d ∈ layers, ∃ members, d = .object members) {base : Option Json}
    {below : Option ρ} (hbase : Option.Rel
      (fun j r => (∃ members, j = .object members) ∧ ofJson? j = some r) base below)
    {members : List (String × Json)} {r : ρ}
    (hlaid : Json.overAll? (layers.map some) base = some (.object members))
    (hr : ofJson? (.object members) = some r) :
    Json.lastSays sets member decode ((below.map field).or default) layers =
      some (field r) := by
  -- What is below says nothing or is a record of its own.
  have hbelow : keeping default decode (base.bind (Json.get? member)) =
      (below.map field).or default := by
    cases hbase with
    | none => rfl
    | some hrel =>
        rcases hrel with ⟨⟨members, rfl⟩, hread⟩
        exact hreads hread
  have hbaseObject : ∀ j ∈ base, ∃ members, j = .object members := by
    cases hbase with
    | none => exact fun j hj => by cases hj
    | some hrel => exact fun j hj => Option.some.inj hj ▸ hrel.1
  have hfield := hreads hr
  have hmember := Json.get?_overAll hsorted hobject hbaseObject member
  rw [hlaid, Option.bind_some] at hmember
  change keeping default decode ((Json.object members).get? member) = some (field r) at hfield
  rw [hmember] at hfield
  -- The values of a member are sorted if the documents are.
  have hvalues : ∀ j, some j ∈ layers.map (Json.get? member) → j.IsSorted := by
    intro j hj
    rcases List.mem_map.1 hj with ⟨d, hd, hget⟩
    exact (hsorted d hd).of_get? hget
  have hlast := hfirm.overAll hvalues hfield
  rw [hbelow, List.filterMap_map] at hlast
  exact hlast

end Decode

end PolyScript
