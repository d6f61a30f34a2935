import PolyScript.Toml.Moment
import PolyScript.Toml.Number
import PolyScript.Toml.Table
import PolyScript.Toml.Text

/-!
# Reading TOML

## Main definitions

* `Toml.parse?`: The document that a text denotes.
-/

namespace PolyScript

namespace Toml

/-- How deep arrays and inline tables may nest, and one more than how many parts a
    key may have. -/
def nestingLimit : Nat := 80

/-- Whether a character may stand in a bare key. -/
def isBareKeyChar (c : Char) : Bool := c.isAlphanum || c = '-' || c = '_'

/-- Reads one part of a key. -/
def simpleKey? (cs : List Char) : Option (String × List Char) :=
  match cs with
  | '"' :: rest => basic (rest.length + 1) [] rest
  | '\'' :: rest => literal rest
  | _ =>
    let (key, rest) := cs.span isBareKeyChar
    if key.isEmpty then none else some (String.ofList key, rest)

/-- Reads a key: parts with dots between them, and blanks around each. -/
def key? : Nat → List Char → Option (List String × List Char)
  | 0, _ => none
  | n + 1, cs =>
    match simpleKey? (skipBlank cs) with
    | none => none
    | some (part, rest) =>
      match skipBlank rest with
      | '.' :: rest =>
        match key? n rest with
        | some (parts, rest) => some (part :: parts, rest)
        | none => none
      | rest => some ([part], rest)

/-- Reads a key with its value. The parts before the last are the path to it. -/
def keyValue? (value : List Char → Option (Item × List Char)) (cs : List Char) :
    Option ((List String × String × Item) × List Char) :=
  match key? (nestingLimit - 1) cs with
  | some (parts, '=' :: rest) =>
    match parts.getLast?, value (skipBlank rest) with
    | some key, some (item, rest) => some ((parts.dropLast, key, item), skipBlank rest)
    | _, _ => none
  | _ => none

/-- Reads the items of an array from just after its bracket. -/
def items? (value : List Char → Option (Item × List Char)) :
    Nat → List Char → Option (List Item × List Char)
  | 0, _ => none
  | n + 1, cs =>
    match skipLines cs with
    | none => none
    | some (']' :: rest) => some ([], rest)
    | some cs =>
      match value cs with
      | none => none
      | some (item, rest) =>
        match skipLines rest with
        | some (',' :: rest) =>
          match items? value n rest with
          | some (items, rest) => some (item :: items, rest)
          | none => none
        | some (']' :: rest) => some ([item], rest)
        | _ => none

/-- Reads the entries of an inline table from just after its brace or comma. -/
def inlineEntries? (value : List Char → Option (Item × List Char)) :
    Nat → Table → List Char → Option (Table × List Char)
  | 0, _, _ => none
  | n + 1, table, cs =>
    match keyValue? value cs with
    | none => none
    | some ((path, key, item), rest) =>
      match table.define path key item with
      | none => none
      | some table =>
        match rest with
        | ',' :: rest => inlineEntries? value n table rest
        | '\x7d' :: rest => some (table, rest)
        | _ => none

/-- Reads a value that contains no other. -/
def scalarJson? (cs : List Char) : Option (Json × List Char) :=
  match cs with
  | 't' :: 'r' :: 'u' :: 'e' :: rest => some (.bool true, rest)
  | 'f' :: 'a' :: 'l' :: 's' :: 'e' :: rest => some (.bool false, rest)
  | '"' :: _ | '\'' :: _ => (string? cs).map fun r => (.string r.1, r.2)
  | _ => if momentAhead cs then moment? cs else number? cs

/-- Reads a value that contains no other, as an item. -/
def scalar? (cs : List Char) : Option (Item × List Char) :=
  (scalarJson? cs).map fun r => (.scalar r.1, r.2)

/-- Reads a value in which arrays and inline tables may nest to the given
    depth. -/
def value? : Nat → List Char → Option (Item × List Char)
  | 0, cs =>
    match cs with
    | '[' :: _ | '\x7b' :: _ => none
    | _ => scalar? cs
  | depth + 1, cs =>
    match cs with
    | '[' :: rest => (items? (value? depth) (rest.length + 1) rest).map fun r => (.array r.1, r.2)
    | '\x7b' :: rest =>
      match skipBlank rest with
      | '\x7d' :: rest => some (.inline Table.empty, rest)
      | _ =>
        (inlineEntries? (value? depth) (rest.length + 1) Table.empty rest).map fun r =>
          (.inline r.1, r.2)
    | _ => scalar? cs

/-- Reads a value at the top level. -/
def topValue? : List Char → Option (Item × List Char) := value? (nestingLimit - 1)

/-- A document that is being read: all tables, and the path of the current one. -/
structure Draft where
  root : Table
  here : List String

/-- Reads a header from just after its opening brackets. -/
def header? (isArray : Bool) (draft : Draft) (cs : List Char) : Option (Draft × List Char) :=
  match key? (nestingLimit - 1) cs with
  | none => none
  | some (parts, rest) =>
    let closed : Option (List Char) :=
      match isArray, rest with
      | true, ']' :: ']' :: rest => endOfLine? rest
      | false, ']' :: rest => endOfLine? rest
      | _, _ => none
    match closed, parts.getLast? with
    | some rest, some key =>
      let add := if isArray then Table.append else Table.name
      (add parts.dropLast key draft.root).map fun root => (⟨root, parts⟩, rest)
    | _, _ => none

/-- Reads one key with its value into the current table. -/
def entry? (draft : Draft) (cs : List Char) : Option (Draft × List Char) :=
  match keyValue? topValue? cs with
  | none => none
  | some ((path, key, item), rest) =>
    match endOfLine? rest with
    | none => none
    | some rest =>
      (draft.root.update false (Table.define path key item) draft.here).map fun root =>
        ({ draft with root }, rest)

/-- Reads the lines of a document, for at most the given number of lines. -/
def lines? : Nat → Draft → List Char → Option Draft
  | 0, draft, cs => if (skipBlank cs).isEmpty then some draft else none
  | n + 1, draft, cs =>
    match skipBlank cs with
    | [] => some draft
    | '#' :: rest =>
      match endOfLine? ('#' :: rest) with
      | some rest => lines? n draft rest
      | none => none
    | '[' :: '[' :: rest =>
      match header? true draft rest with
      | some (draft, rest) => lines? n draft rest
      | none => none
    | '[' :: rest =>
      match header? false draft rest with
      | some (draft, rest) => lines? n draft rest
      | none => none
    | cs =>
      match newline? cs with
      | some rest => lines? n draft rest
      | none =>
        match entry? draft cs with
        | some (draft, rest) => lines? n draft rest
        | none => none

/-- Drops a byte order mark. -/
def dropMark : List Char → List Char
  | '\ufeff' :: cs => cs
  | cs => cs

/-- The document that a text denotes. -/
def parse? (text : String) : Option Json :=
  let cs := dropMark text.toList
  (lines? (cs.length + 1) ⟨Table.empty, []⟩ cs).bind fun draft => draft.root.toJson?

end Toml

end PolyScript
