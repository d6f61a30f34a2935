import PolyScript.Proofs.LastWord

/-!
# Named Records in Layers

Handlers and languages are records with names, listed in arrays. Entries of layers change
the record of their name, or add one at the end. Nothing is said here about what the fields
of a record are; for each of them the last entry of the name of the record decides, if it
sets the field.

If no two of the resulting records have the same name, then a record is found under its
name, and what became of it can be followed through the entries of that name alone.

## Main definitions

* `Json.Records`: How records with names are read, and those that are there at first.
* `Json.layeredNames`: Names that are there, and then new ones as they come up first.
* `Json.entriesOf`: The entries of a name.

## Theorems

* `Json.Records.names`: The names of the records.
* `Json.Records.kept`: A record that no entry mentions is as it was at first.
* `Json.Records.lastSays`: A record has what the last entry that sets a field says it is.
-/

namespace PolyScript

namespace Json

/-- Items found by their names. -/
theorem itemOf?_map {ρ : Type} {name : ρ → String} {encode : ρ → Json} {rs : List ρ}
    (h : ∀ r ∈ rs, itemName? (encode r) = some (name r)) (key : String) :
    itemOf? key (rs.map encode) = (rs.find? fun r => name r = key).map encode := by
  induction rs with
  | nil => rfl
  | cons r rest ih =>
      rcases List.forall_mem_cons.1 h with ⟨hr, hrest⟩
      rw [List.map_cons, itemOf?_cons, hr, ih hrest]
      by_cases hkey : name r = key
      · simp [hkey]
      · simp [hkey]

/-- How records with names are read from documents, and those that are there at first. -/
structure Records {ρ : Type} (ofJson? : Json → Option ρ) (name : ρ → String) (encode : ρ → Json)
    (below : List ρ) : Prop where
  named : ∀ {members : List (String × Json)} {r : ρ}, ofJson? (object members) = some r →
    members.lookup "name" = some (string (name r))
  encoded : ∀ r ∈ below, ofJson? (encode r) = some r
  object : ∀ r ∈ below, ∃ members, encode r = object members

/-- Names that are there, and then new ones in the order in which entries mention them
    first. -/
def layeredNames (known : List String) (entries : List Json) : List String :=
  known ++ ((entries.filterMap itemName?).filter fun name => name ∉ known).eraseDups

/-- The entries of a name. -/
def entriesOf (name : String) (entries : List Json) : List Json :=
  entries.filter fun e => itemName? e = some name

namespace Records

variable {ρ : Type} {ofJson? : Json → Option ρ} {name : ρ → String} {encode : ρ → Json}
  {below : List ρ} {entries : List Json} {rs : List ρ} {r : ρ}

theorem itemName_encode (h : Records ofJson? name encode below) (hr : r ∈ below) :
    itemName? (encode r) = some (name r) := by
  rcases h.object r hr with ⟨members, heq⟩
  have hread := h.encoded r hr
  rw [heq] at hread ⊢
  exact itemName_object (h.named hread)

/-- The names of the items. -/
theorem itemNames (h : Records ofJson? name encode below) (hsorted : ∀ e ∈ entries, e.IsSorted)
    (hnamed : ∀ e ∈ entries, (itemName? e).isSome = true) :
    (itemsOver entries (below.map encode)).map itemName? =
      (layeredNames (below.map name) entries).map some := by
  refine names_itemsOver hsorted ?_ ?_
  · clear hsorted
    induction entries with
    | nil => rfl
    | cons e rest ih =>
        rcases List.forall_mem_cons.1 hnamed with ⟨he, hrest⟩
        rcases Option.isSome_iff_exists.1 he with ⟨name, hname⟩
        rw [List.map_cons, List.filterMap_cons_some hname, List.map_cons, hname, ih hrest]
  · rw [List.map_map, List.map_map]
    exact List.map_congr_left fun r hr => h.itemName_encode hr

/-- Items that are read are objects with the names of their records. -/
theorem object_of_mem (h : Records ofJson? name encode below)
    (hsorted : ∀ e ∈ entries, e.IsSorted)
    (hnamed : ∀ e ∈ entries, (itemName? e).isSome = true) {item : Json}
    (hitem : item ∈ itemsOver entries (below.map encode)) (hr : ofJson? item = some r) :
    ∃ members, item = Json.object members ∧ itemName? item = some (name r) := by
  have hmem : itemName? item ∈ (itemsOver entries (below.map encode)).map itemName? :=
    List.mem_map_of_mem hitem
  rw [h.itemNames hsorted hnamed] at hmem
  rcases List.mem_map.1 hmem with ⟨n, -, hn⟩
  rcases eq_object_of_itemName hn.symm with ⟨members, rfl, -⟩
  exact ⟨members, rfl, itemName_object (h.named hr)⟩

/-- What is there at first under a name. -/
theorem item_below (h : Records ofJson? name encode below) (key : String) :
    Option.Rel (fun j r => (∃ members, j = Json.object members) ∧ ofJson? j = some r)
      (itemOf? key (below.map encode)) (below.find? fun r => name r = key) := by
  rw [itemOf?_map fun r hr => h.itemName_encode hr]
  cases hfound : below.find? fun r => name r = key with
  | none => exact .none
  | some r =>
      have hr := List.mem_of_find?_eq_some hfound
      exact .some ⟨h.object r hr, h.encoded r hr⟩

section Read

variable (h : Records ofJson? name encode below) (hsorted : ∀ e ∈ entries, e.IsSorted)
  (hnamed : ∀ e ∈ entries, (itemName? e).isSome = true)
  (hread : List.Forall₂ (fun j r => ofJson? j = some r)
    (itemsOver entries (below.map encode)) rs)

include h hsorted hnamed hread

/-- The names of the merged items are those of the records that they are read as. -/
theorem itemNames_read : (itemsOver entries (below.map encode)).map itemName? =
    (rs.map name).map some := by
  have hname : ∀ item ∈ itemsOver entries (below.map encode), ∀ r, ofJson? item = some r →
      itemName? item = some (name r) := fun item hitem r hr => by
    rcases h.object_of_mem hsorted hnamed hitem hr with ⟨-, -, hname⟩
    exact hname
  generalize itemsOver entries (below.map encode) = items at hname hread
  induction hread with
  | nil => rfl
  | cons hr _ ih =>
      rcases List.forall_mem_cons.1 hname with ⟨hfirst, hrest⟩
      rw [List.map_cons, List.map_cons, List.map_cons, hfirst _ hr, ih hrest]

/-- The names of the records. -/
theorem names : rs.map name = layeredNames (below.map name) entries :=
  List.map_injective_iff.2 (Option.some_injective _)
    ((h.itemNames_read hsorted hnamed hread).symm.trans (h.itemNames hsorted hnamed))

variable (hnodup : (rs.map name).Nodup) (hr : r ∈ rs)

include hnodup hr

/-- A record is found under its name, and comes from the entries of that name. -/
theorem item_read : ∃ members,
    overAll? ((entriesOf (name r) entries).map some) (itemOf? (name r) (below.map encode)) =
      some (Json.object members) ∧ ofJson? (Json.object members) = some r := by
  rcases forall₂_mem_right hread hr with ⟨item, hitem, hitemRead⟩
  rcases h.object_of_mem hsorted hnamed hitem hitemRead with ⟨members, rfl, hname⟩
  refine ⟨members, ?_, hitemRead⟩
  -- No other item has the name, so the first one of the name is this one.
  have hnames := h.itemNames_read hsorted hnamed hread
  have hitemNodup : ((itemsOver entries (below.map encode)).map itemName?).Nodup :=
    hnames ▸ hnodup.map (Option.some_injective _)
  have hfound := find?_eq_some_of_mem hitemNodup hitem
  rw [hname] at hfound
  exact (itemOf?_itemsOver hsorted hnamed _ _).symm.trans hfound

/-- A record that no entry mentions is as it was at first. -/
theorem kept (hunmentioned : ∀ e ∈ entries, itemName? e ≠ some (name r)) : r ∈ below := by
  rcases h.item_read hsorted hnamed hread hnodup hr with ⟨members, hitem, hitemRead⟩
  have hnone : entriesOf (name r) entries = [] :=
    List.filter_eq_nil_iff.2 fun e he hname => hunmentioned e he (of_decide_eq_true hname)
  rw [hnone] at hitem
  have hbelow := h.item_below (name r)
  rw [show itemOf? (name r) (below.map encode) = some (Json.object members) from hitem] at hbelow
  cases hfound : below.find? fun k => name k = name r with
  | none =>
      rw [hfound] at hbelow
      cases hbelow
  | some k =>
      rw [hfound] at hbelow
      cases hbelow with
      | some hrel =>
          rw [Option.some.inj (hitemRead.symm.trans hrel.2)]
          exact List.mem_of_find?_eq_some hfound

/-- A record has what the last entry of its name that sets a field says it is, or else what
    it had at first, or else the default of the field. -/
theorem lastSays {α : Type} {member : String} {decode : Json → Option α} {default : Option α}
    {field : ρ → α} {sets : Json → Bool}
    (hreads : ∀ {members : List (String × Json)} {r : ρ}, ofJson? (Json.object members) = some r →
      Decode.keeping default decode (members.lookup member) = some (field r))
    (hfirm : Decode.Firm sets decode) :
    Json.lastSays sets member decode
      (((below.find? fun k => name k = name r).map field).or default)
      (entriesOf (name r) entries) = some (field r) := by
  rcases h.item_read hsorted hnamed hread hnodup hr with ⟨members, hitem, hitemRead⟩
  refine Decode.lastSays_of_ofJson hreads hfirm (fun e he => hsorted e (List.mem_of_mem_filter he))
    (fun e he => ?_) (h.item_below (name r)) hitem hitemRead
  rcases eq_object_of_itemName (of_decide_eq_true (List.mem_filter.1 he).2) with ⟨members, heq, -⟩
  exact ⟨members, heq⟩

end Read

end Records

end Json

end PolyScript
