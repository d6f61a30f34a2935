import PolyScript.Json.Basic

/-!
# Laying Documents over Each Other

A document laid over another changes only what it mentions. Objects are merged
member by member. Arrays all of whose items are objects with a name are merged
item by item, by name; items with new names come last. Anything else is
replaced.

## Main definitions

* `Json.laidOver`: One document laid over another.
-/

namespace PolyScript

namespace Json

/-- The name of an item: its member `name`, if that is a text. -/
def itemName? (j : Json) : Option String := (j.get? "name").bind string?

/-- Changes the first item that passes a test, or gives nothing if none does. -/
def updateFirst? {α : Type} (test : α → Bool) (change : α → α) : List α → Option (List α)
  | [] => none
  | a :: rest =>
    if test a then some (change a :: rest)
    else (updateFirst? test change rest).map (a :: ·)

mutual

/-- The first document laid over the second. -/
def laidOver : Json → Json → Json
  | object overlay, object base => object (membersOver overlay base)
  | array overlay, array base =>
    if !overlay.isEmpty && overlay.all (fun j => (itemName? j).isSome) then
      array (itemsOver overlay base)
    else array overlay
  | overlay, _ => overlay

/-- Members laid over the members of an object. -/
def membersOver : List (String × Json) → List (String × Json) → List (String × Json)
  | [], base => base
  | (name, j) :: rest, base =>
    match base.lookup name with
    | some existing => membersOver rest (insertMember name (laidOver j existing) base)
    | none => membersOver rest (insertMember name j base)

/-- Named items laid over the items of an array. -/
def itemsOver : List Json → List Json → List Json
  | [], base => base
  | j :: rest, base =>
    match updateFirst? (fun item => itemName? item = itemName? j) (fun item => laidOver j item)
        base with
    | some changed => itemsOver rest changed
    | none => itemsOver rest (base ++ [j])

end

end Json

end PolyScript
