import PolyScript.Toml.Moment

/-!
# Tables under Construction

While a TOML document is read, a table remembers how it came about, because that
decides what may still be added to it. A table is implicit if no header names it;
it is dotted if a dotted key made it. A header may name an implicit table that is
not dotted, once; a dotted key may extend only dotted tables; and nothing extends
a value.

Entries keep the order in which their keys were first used, and a header that
names an implicit table moves it to the end. The order matters in one place: a
table whose first key is the reserved one stands for a moment, whatever else it
holds.

## Main definitions

* `Toml.Table`, `Toml.Item`: Tables and what they hold.
* `Toml.Table.update`: Changes the table at the end of a path.
* `Toml.Table.define`, `Toml.Table.name`, `Toml.Table.append`: What a key with a
  value, a table header and a header of an array of tables do.
* `Toml.Table.toJson?`: The document of a table.
-/

namespace PolyScript

namespace Toml

mutual

/-- What a table holds under a key. -/
inductive Item where
  /-- A value that contains no other. -/
  | scalar (json : Json)
  | array (items : List Item)
  /-- A table that is written as a value, and so is complete. -/
  | inline (table : Table)
  | table (table : Table)
  /-- An array of tables, the latest last. -/
  | tables (tables : List Table)

/-- A table, with its entries in the order in which their keys came. -/
inductive Table where
  | mk (isImplicit isDotted : Bool) (entries : List (String × Item))

end

namespace Table

/-- A table without entries that a header names. -/
def empty : Table := mk false false []

/-- Whether no header names the table. -/
def isImplicit : Table → Bool
  | mk i _ _ => i

/-- Whether a dotted key made the table. -/
def isDotted : Table → Bool
  | mk _ d _ => d

/-- The entries of a table, in their order. -/
def entries : Table → List (String × Item)
  | mk _ _ e => e

/-- The entry under a key. -/
def get? (t : Table) (key : String) : Option Item := t.entries.lookup key

/-- Puts an entry in place of the one under its key, or else at the end. -/
def putEntry (key : String) (item : Item) : List (String × Item) → List (String × Item)
  | [] => [(key, item)]
  | (k, i) :: rest =>
    if k = key then (key, item) :: rest else (k, i) :: putEntry key item rest

/-- The table with an entry put under a key. -/
def set (t : Table) (key : String) (item : Item) : Table :=
  mk t.isImplicit t.isDotted (putEntry key item t.entries)

/-- The table without the entry under a key. -/
def erase (t : Table) (key : String) : Table :=
  mk t.isImplicit t.isDotted (t.entries.filter fun e => e.1 ≠ key)

/-- Changes the last item of a list. -/
def updateLast? {α : Type} (change : α → Option α) : List α → Option (List α)
  | [] => none
  | [a] => (change a).map fun b => [b]
  | a :: rest => (updateLast? change rest).map (a :: ·)

/-- Changes the table at the end of a path, and makes the tables on the way that
    are missing. The path leads through the latest table of an array of tables.
    A path of dotted keys may not lead through a table that a header names. -/
def update (dotted : Bool) (change : Table → Option Table) : List String → Table → Option Table
  | [], t => change t
  | key :: path, t =>
    match t.get? key with
    | none =>
      (update dotted change path (mk true dotted [])).map fun child => t.set key (.table child)
    | some (.table child) =>
      if dotted && !child.isImplicit then none
      else (update dotted change path child).map fun child => t.set key (.table child)
    | some (.tables children) =>
      (updateLast? (update dotted change path) children).map fun children =>
        t.set key (.tables children)
    | some _ => none

/-- Puts a value under a dotted key. The key has to be new, and the table at the
    end of its path must not have been made in another way. -/
def define (path : List String) (key : String) (value : Item) (t : Table) : Option Table :=
  update true (fun table =>
    if table.isDotted = path.isEmpty then none
    else
      match table.get? key with
      | some _ => none
      | none => some (table.set key value)) path t

/-- Names a table by a header, and so makes it the last of its parent. -/
def name (path : List String) (key : String) (t : Table) : Option Table :=
  update false (fun parent =>
    match parent.get? key with
    | none => some (parent.set key (.table empty))
    | some (.table child) =>
      if child.isImplicit && !child.isDotted then
        some ((parent.erase key).set key (.table (mk false false child.entries)))
      else none
    | some _ => none) path t

/-- Appends a table to an array of tables. -/
def append (path : List String) (key : String) (t : Table) : Option Table :=
  update false (fun parent =>
    match parent.get? key with
    | none => some (parent.set key (.tables [empty]))
    | some (.tables children) => some (parent.set key (.tables (children ++ [empty])))
    | some _ => none) path t

/-- What stands under the reserved key, if that key is the first. -/
def reserved? : List (String × Item) → Option Item
  | (key, item) :: _ => if key = momentKey then some item else none
  | [] => none

mutual

/-- The document of a table, unless a table in it has the reserved key first and
    no moment under it. Nothing else is asked of a table that stands for a
    moment. -/
def toJson? : Table → Option Json
  | mk _ _ entries =>
    match reserved? entries with
    | some (.scalar (.string text)) => momentOfText? text
    | some _ => none
    | none => (entriesJson? entries).map Json.ofMembers

/-- The document of what a table holds. -/
def itemJson? : Item → Option Json
  | .scalar json => some json
  | .array items => (itemsJson? items).map .array
  | .inline t => toJson? t
  | .table t => toJson? t
  | .tables ts => (tablesJson? ts).map .array

/-- The documents of the entries of a table. -/
def entriesJson? : List (String × Item) → Option (List (String × Json))
  | [] => some []
  | (key, item) :: rest =>
    match itemJson? item, entriesJson? rest with
    | some json, some members => some ((key, json) :: members)
    | _, _ => none

/-- The documents of the items of an array. -/
def itemsJson? : List Item → Option (List Json)
  | [] => some []
  | item :: rest =>
    match itemJson? item, itemsJson? rest with
    | some json, some items => some (json :: items)
    | _, _ => none

/-- The documents of an array of tables. -/
def tablesJson? : List Table → Option (List Json)
  | [] => some []
  | t :: rest =>
    match toJson? t, tablesJson? rest with
    | some json, some items => some (json :: items)
    | _, _ => none

end

end Table

end Toml

end PolyScript
