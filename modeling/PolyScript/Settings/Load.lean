import PolyScript.Json.Merge
import PolyScript.Json.Reader
import PolyScript.Settings.Decode
import PolyScript.Settings.Validate
import PolyScript.Toml.Reader

/-!
# Loading Settings

Settings are loaded from layers of documents. Each layer is laid over what is
there already, beginning with the defaults; the result is decoded and checked.

## Main definitions

* `Layer`: A document given as text, or a file.
* `Settings.load`: The settings that layers describe.
-/

namespace PolyScript

/-- The format of a document. -/
inductive Format where
  | json
  | toml
  deriving DecidableEq, Repr, Inhabited

namespace Format

/-- Splits a text at every slash. -/
def splitSlashes : List Char → List (List Char)
  | [] => [[]]
  | c :: cs =>
    if c = '/' then [] :: splitSlashes cs
    else
      match splitSlashes cs with
      | piece :: rest => (c :: piece) :: rest
      | [] => [[c]]

/-- The last part of a path that names something. -/
def fileName? (path : String) : Option (List Char) :=
  let parts := (splitSlashes path.toList).filter fun part => part ≠ [] && part ≠ ['.']
  match parts.getLast? with
  | some name => if name = ['.', '.'] then none else some name
  | none => none

/-- What stands after the last dot of a file name. A dot at the start does not
    count. -/
def extension? (path : String) : Option String :=
  match fileName? path with
  | none => none
  | some name =>
    let reversed := name.reverse
    let ending := reversed.takeWhile (· ≠ '.')
    if ending.length + 1 < reversed.length then some (String.ofList ending.reverse) else none

/-- The format that the name of a file tells. -/
def ofPath? (path : String) : Option Format :=
  match extension? path with
  | some "json" => some json
  | some "toml" => some toml
  | _ => none

end Format

/-- A layer of settings. -/
inductive Layer where
  /-- A file: what it holds, or why it cannot be read. -/
  | file (path : String) (content : Except String String)
  /-- A document given as text. -/
  | inline (format : Format) (text : String)

namespace Layer

/-- The document of a text. It has to be an object. -/
def document (origin : String) (format : Format) (text : String) : Except SettingsError Json :=
  let parsed : Except SettingsError Json :=
    match format with
    | .json =>
      match Json.parse? text with
      | some j => .ok j
      | none => .error (.malformedJson origin)
    | .toml =>
      match Toml.parse? text with
      | some j => .ok j
      | none => .error (.malformedToml origin)
  match parsed with
  | .error e => .error e
  | .ok (.object members) => .ok (.object members)
  | .ok _ => .error (.invalid "" (origin ++ " must contain a table at the top level"))

/-- The document of a layer, which is the `k`-th. -/
def read (k : Nat) : Layer → Except SettingsError Json
  | file path content =>
    match Format.ofPath? path with
    | none => .error (.unsupportedFormat path)
    | some format =>
      match content with
      | .error reason => .error (.unreadable path reason)
      | .ok text => document path format text
  | inline format text => document ("inline document " ++ toString k) format text

end Layer

namespace Settings

/-- Lays layers over a document, from the `k`-th on. -/
def applyLayers : Nat → List Layer → Json → Except SettingsError Json
  | _, [], base => .ok base
  | k, layer :: rest, base =>
    match layer.read k with
    | .error e => .error e
    | .ok overlay => applyLayers (k + 1) rest (overlay.laidOver base)

/-- The settings that layers describe. -/
def load (layers : List Layer) : Except SettingsError Settings :=
  match applyLayers 1 layers defaults.toJson.sorted with
  | .error e => .error e
  | .ok merged =>
    match ofJson? merged with
    | none => .error (.malformedJson "merged configuration")
    | some s => s.validated

/-- The settings with another nesting limit, checked again. -/
def withMaxDepth (s : Settings) : Option Nat → Except SettingsError Settings
  | none => .ok s
  | some maxDepth => { s with maxDepth }.validated

end Settings

end PolyScript
