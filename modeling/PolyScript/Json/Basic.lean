import PolyScript.Double.Basic

/-!
# Documents

The data model shared by configuration documents, printed trees and runtime
values. The members of an object keep the order in which they are listed;
documents that were read have them sorted by name and each name once.

## Main definitions

* `Json`: A document.
* `Json.get?`: A member of an object.
* `Json.ofMembers`: An object with its members sorted, the last of each name
  kept.
* `Json.sorted`: A document with the members of every object sorted.
-/

namespace PolyScript

/-- A document. -/
inductive Json where
  | null
  | bool (value : Bool)
  | int (value : Int)
  | float (value : Double)
  | string (value : String)
  | array (items : List Json)
  | object (members : List (String × Json))
  deriving Inhabited

namespace Json

/-- Puts a member into a list sorted by name, in place of one of the same
    name. -/
def insertMember {α : Type} (name : String) (value : α) :
    List (String × α) → List (String × α)
  | [] => [(name, value)]
  | (k, v) :: rest =>
    if name < k then (name, value) :: (k, v) :: rest
    else if name = k then (name, value) :: rest
    else (k, v) :: insertMember name value rest

/-- Sorts members by name and keeps the last of each name. -/
def sortMembers {α : Type} (members : List (String × α)) : List (String × α) :=
  members.foldl (fun sorted m => insertMember m.1 m.2 sorted) []

/-- An object with its members sorted by name; of two with one name the later
    stays. -/
def ofMembers (members : List (String × Json)) : Json := object (sortMembers members)

/-- The member of a name, if the document is an object that has one. -/
def get? (name : String) : Json → Option Json
  | object members => members.lookup name
  | _ => none

/-- The text, if the document is one. -/
def string? : Json → Option String
  | string s => some s
  | _ => none

/-- The truth value, if the document is one. -/
def bool? : Json → Option Bool
  | bool b => some b
  | _ => none

mutual

/-- The same document with the members of every object sorted by name. -/
def sorted : Json → Json
  | array items => array (sortedItems items)
  | object members => ofMembers (sortedMembers members)
  | j => j

/-- The items with all objects inside them sorted. -/
def sortedItems : List Json → List Json
  | [] => []
  | j :: rest => sorted j :: sortedItems rest

/-- The members with all objects inside them sorted, in their own order. -/
def sortedMembers : List (String × Json) → List (String × Json)
  | [] => []
  | (k, j) :: rest => (k, sorted j) :: sortedMembers rest

end

end Json

end PolyScript
