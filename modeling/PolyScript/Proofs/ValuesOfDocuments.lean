import PolyScript.Proofs.SortedDocuments
import PolyScript.Value.Json

/-!
# Values of Documents

A document becomes a value and the value a document again. What a document can hold is more
than what is made of a value: a whole number of a document may need all sixty-four bits
without a sign, and it becomes the value that it denotes, but of a value only those whole
numbers become numbers again that fit sixty-four bits with a sign. Any other is spelled out
as a string. So large whole numbers come back as strings, at any depth, and everything else
comes back as it was. A document comes back as it was exactly if there are no such numbers
in it.

## Main definitions

* `Json.IsStored`: A document as it is held in memory.
* `Json.spelledOut`: The document with its large whole numbers spelled out.
* `Json.integers`: The whole numbers of a document.

## Theorems

* `Value.toJson_ofJson`: What comes back of a document.
* `Json.spelledOut_eq_self_iff`: The documents that have nothing to spell out.
* `Value.documents_come_back`: Which documents come back as they were.
* `Value.large_integer_spelled_out`: One that does not.
-/

namespace PolyScript

namespace Json

/-- A document as it is held in memory. Its whole numbers fit sixty-four bits, with a sign
    or without one, its other numbers are finite, and objects list their members by name,
    each name once. -/
inductive IsStored : Json → Prop
  | null : IsStored null
  | bool (value : Bool) : IsStored (bool value)
  | int {n : Int} : -(2 ^ 63) ≤ n → n < 2 ^ 64 → IsStored (int n)
  | float {d : Double} : d.isFinite = true → IsStored (float d)
  | string (value : String) : IsStored (string value)
  | array {items : List Json} : (∀ j ∈ items, IsStored j) → IsStored (array items)
  | object {members : List (String × Json)} : members.Pairwise (fun m n => m.1 < n.1) →
    (∀ m ∈ members, IsStored m.2) → IsStored (object members)

mutual

/-- The document in which the digits of each whole number from `2 ^ 63` on stand as a
    string. -/
def spelledOut : Json → Json
  | int n => if n < 2 ^ 63 then int n else string (toString n)
  | array items => array (spelledOutItems items)
  | object members => object (spelledOutMembers members)
  | j => j

/-- The items with their large whole numbers spelled out. -/
def spelledOutItems : List Json → List Json
  | [] => []
  | j :: rest => spelledOut j :: spelledOutItems rest

/-- The members with their large whole numbers spelled out. -/
def spelledOutMembers : List (String × Json) → List (String × Json)
  | [] => []
  | (key, j) :: rest => (key, spelledOut j) :: spelledOutMembers rest

end

mutual

/-- The whole numbers of a document, at any depth. -/
def integers : Json → List Int
  | int n => [n]
  | array items => itemIntegers items
  | object members => memberIntegers members
  | _ => []

/-- The whole numbers of items. -/
def itemIntegers : List Json → List Int
  | [] => []
  | j :: rest => integers j ++ itemIntegers rest

/-- The whole numbers of members. -/
def memberIntegers : List (String × Json) → List Int
  | [] => []
  | (_, j) :: rest => integers j ++ memberIntegers rest

end

theorem spelledOutItems_eq_map (items : List Json) :
    spelledOutItems items = items.map spelledOut := by
  induction items with
  | nil => rfl
  | cons j rest ih => rw [spelledOutItems, ih, List.map_cons]

theorem spelledOutMembers_eq_map (members : List (String × Json)) :
    spelledOutMembers members = members.map fun m => (m.1, m.2.spelledOut) := by
  induction members with
  | nil => rfl
  | cons m rest ih => rw [spelledOutMembers, ih, List.map_cons]

mutual

/-- There is nothing to spell out where all whole numbers are small. -/
theorem spelledOut_eq_self_iff : ∀ j : Json, j.spelledOut = j ↔ ∀ n ∈ j.integers, n < 2 ^ 63
  | null | bool _ | float _ | string _ => iff_of_true rfl (List.forall_mem_nil _)
  | int n => by
      unfold spelledOut integers
      simp
  | array items => by
      rw [spelledOut, integers, array.injEq]
      exact spelledOutItems_eq_self_iff items
  | object members => by
      rw [spelledOut, integers, object.injEq]
      exact spelledOutMembers_eq_self_iff members

theorem spelledOutItems_eq_self_iff : ∀ items : List Json,
    spelledOutItems items = items ↔ ∀ n ∈ itemIntegers items, n < 2 ^ 63
  | [] => iff_of_true rfl (List.forall_mem_nil _)
  | j :: rest => by
      rw [spelledOutItems, itemIntegers, List.cons.injEq, List.forall_mem_append,
        spelledOut_eq_self_iff j, spelledOutItems_eq_self_iff rest]

theorem spelledOutMembers_eq_self_iff : ∀ members : List (String × Json),
    spelledOutMembers members = members ↔ ∀ n ∈ memberIntegers members, n < 2 ^ 63
  | [] => iff_of_true rfl (List.forall_mem_nil _)
  | (key, j) :: rest => by
      rw [spelledOutMembers, memberIntegers, List.cons.injEq, List.forall_mem_append,
        Prod.mk.injEq, spelledOut_eq_self_iff j, spelledOutMembers_eq_self_iff rest]
      simp

end

end Json

namespace Value

theorem itemsOfJson_eq_map (items : List Json) : itemsOfJson items = items.map ofJson := by
  induction items with
  | nil => rfl
  | cons j rest ih => rw [itemsOfJson, ih, List.map_cons]

theorem membersOfJson_eq_map (members : List (String × Json)) :
    membersOfJson members = members.map fun m => (m.1, ofJson m.2) := by
  induction members with
  | nil => rfl
  | cons m rest ih => rw [membersOfJson, ih, List.map_cons]

theorem itemsToJson_eq_map (items : List Value) : itemsToJson items = items.map toJson := by
  induction items with
  | nil => rfl
  | cons v rest ih => rw [itemsToJson, ih, List.map_cons]

theorem membersToJson_eq_map (members : List (String × Value)) :
    membersToJson members = members.map fun m => (m.1, toJson m.2) := by
  induction members with
  | nil => rfl
  | cons m rest ih => rw [membersToJson, ih, List.map_cons]

/-- What comes back of a document is the document with its large whole numbers spelled
    out. -/
theorem toJson_ofJson {j : Json} (h : j.IsStored) : toJson (ofJson j) = j.spelledOut := by
  induction h with
  | null | bool | string => rfl
  | @int n hlow hhigh =>
      rw [ofJson, toJson, Json.spelledOut]
      by_cases hsmall : n < 2 ^ 63
      · rw [if_pos ⟨hlow, hsmall⟩, if_pos hsmall]
      · rw [if_neg fun hfits => hsmall hfits.2, if_neg hsmall]
  | float hfinite =>
      rw [ofJson, toJson, if_pos hfinite]
      rfl
  | array _ ih =>
      rw [ofJson, toJson, Json.spelledOut, itemsOfJson_eq_map, itemsToJson_eq_map,
        Json.spelledOutItems_eq_map, List.map_map]
      exact congrArg Json.array (List.map_congr_left ih)
  | @object members hsorted _ ih =>
      have hmembers : membersToJson (membersOfJson members) = Json.spelledOutMembers members := by
        rw [membersOfJson_eq_map, membersToJson_eq_map, Json.spelledOutMembers_eq_map,
          List.map_map]
        exact List.map_congr_left fun m hm => congrArg (Prod.mk m.1) (ih m hm)
      -- The members keep their names, so they are still in order.
      have hsorted' : (Json.spelledOutMembers members).Pairwise fun m n => m.1 < n.1 := by
        rw [Json.spelledOutMembers_eq_map, List.pairwise_map]
        exact hsorted
      rw [ofJson, toJson, hmembers, Json.ofMembers, Json.sortMembers_eq_self hsorted',
        Json.spelledOut]

/-- A document that becomes a value and a document again comes back with the whole numbers
    from `2 ^ 63` on spelled out as strings, at any depth, and with nothing else changed. So
    it comes back as it was exactly if it has no such numbers. -/
theorem documents_come_back (j : Json) (h : j.IsStored) :
    (ofJson j).toJson = j.spelledOut ∧
      ((ofJson j).toJson = j ↔ ∀ n ∈ j.integers, n < 2 ^ 63) := by
  have hback := toJson_ofJson h
  refine ⟨hback, ?_⟩
  rw [hback]
  exact j.spelledOut_eq_self_iff

/-- Whole numbers at the ends of both ranges and a negative zero, in arrays in an object. -/
theorem documents_come_back_nested :
    let small :=
      Json.array [.int (-(2 ^ 63)), .int (2 ^ 63 - 1), .float ⟨0x8000000000000000⟩, .null]
    let large := Json.array [.int (2 ^ 63), .int (2 ^ 64 - 1)]
    let document := Json.object [("a", small), ("b", large)]
    document.IsStored ∧
      (ofJson document).toJson = .object [("a", small),
        ("b", .array [.string "9223372036854775808", .string "18446744073709551615"])] ∧
      (ofJson small).toJson = small := by
  intro small large document
  have hsmall : small.IsStored :=
    .array (List.forall_mem_cons.2 ⟨.int (by decide) (by decide),
      List.forall_mem_cons.2 ⟨.int (by decide) (by decide),
        List.forall_mem_cons.2 ⟨.float (by decide), List.forall_mem_singleton.2 .null⟩⟩⟩)
  have hlarge : large.IsStored :=
    .array (List.forall_mem_cons.2 ⟨.int (by decide) (by decide),
      List.forall_mem_singleton.2 (.int (by decide) (by decide))⟩)
  have hdocument : document.IsStored :=
    .object (List.pairwise_pair.2 (by decide))
      (List.forall_mem_cons.2 ⟨hsmall, List.forall_mem_singleton.2 hlarge⟩)
  refine ⟨hdocument, (documents_come_back document hdocument).1.trans rfl, ?_⟩
  exact (documents_come_back small hsmall).2.2 (by decide)

/-- A whole number that comes back as a string. -/
theorem large_integer_spelled_out :
    (Json.int (2 ^ 63)).IsStored ∧
      (ofJson (.int (2 ^ 63))).toJson = .string "9223372036854775808" ∧
      (ofJson (.int (2 ^ 63))).toJson ≠ .int (2 ^ 63) :=
  ⟨.int (by decide) (by decide), rfl, nofun⟩

end Value

end PolyScript
