import PolyScript.Settings.Encode

/-!
# Settings from Documents

A record is given by an object, whose unknown members do not matter, or by an
array that lists its fields in order and may leave off the last ones. A field
that is not given takes its default, if it has one. Integers are exact: a number
with a fraction is none, and one outside the range of its field is refused.

## Main definitions

* `Settings.ofJson?`: The settings that a document describes.
-/

namespace PolyScript

namespace Decode

/-- The documents given for the fields of a record, in the order of the names. -/
def fields? (names : List String) : Json → Option (List (Option Json))
  | .object members => some (names.map fun name => members.lookup name)
  | .array items =>
    if items.length ≤ names.length then
      some (items.map some ++ List.replicate (names.length - items.length) none)
    else none
  | _ => none

/-- A field that has to be given. -/
def required {α : Type} (decode : Json → Option α) : Option Json → Option α
  | some j => decode j
  | none => none

/-- A field with a default. -/
def optional {α : Type} (default : α) (decode : Json → Option α) : Option Json → Option α
  | some j => decode j
  | none => some default

/-- A value that may be null. -/
def nullable {α : Type} (decode : Json → Option α) : Json → Option (Option α)
  | .null => some none
  | j => (decode j).map some

/-- A signed integer of thirty-two bits. -/
def int32? : Json → Option Int
  | .int n => if -(2 ^ 31) ≤ n ∧ n < 2 ^ 31 then some n else none
  | _ => none

/-- A size: an unsigned integer of sixty-four bits. -/
def size? : Json → Option Nat
  | .int n => if 0 ≤ n ∧ n < 2 ^ 64 then some n.toNat else none
  | _ => none

/-- Every item of an array. -/
def list? {α : Type} (decode : Json → Option α) : Json → Option (List α)
  | .array items => items.mapM decode
  | _ => none

/-- The members of an object. -/
def members? : Json → Option (List (String × Json))
  | .object members => some members
  | _ => none

/-- The name of a case: a text, or an object with that one member and nothing in
    it. -/
def case? : Json → Option String
  | .string s => some s
  | .object [(s, .null)] => some s
  | _ => none

end Decode

open Decode

/-- The token pattern that a document describes. -/
def TokenPattern.ofJson? (j : Json) : Option TokenPattern :=
  match fields? ["kind", "value", "offset"] j with
  | some [kind, value, offset] => do
    let kind ← required (fun j => (case? j).bind Kind.ofName?) kind
    let value ← optional none (nullable Json.string?) value
    let offset ← optional 0 size? offset
    return ⟨kind, value, offset⟩
  | _ => none

/-- The handler settings that a document describes. -/
def HandlerSettings.ofJson? (j : Json) : Option HandlerSettings :=
  match fields? ["construct", "name", "priority", "order", "enabled", "fallback",
      "fallbackPriority", "patterns", "params"] j with
  | some [construct, name, priority, order, enabled, fallback, fallbackPriority, patterns,
      params] => do
    let construct ← required (fun j => (case? j).bind Construct.ofName?) construct
    let name ← required Json.string? name
    let priority ← optional 0 int32? priority
    let order ← optional 0 int32? order
    let enabled ← optional true Json.bool? enabled
    let fallback ← optional false Json.bool? fallback
    let fallbackPriority ← optional none (nullable int32?) fallbackPriority
    let patterns ← optional [] (list? TokenPattern.ofJson?) patterns
    let params ← optional [] members? params
    return { construct, name, priority, order, enabled, fallback, fallbackPriority, patterns,
             params }
  | _ => none

/-- The language that a document describes. -/
def Language.ofJson? (j : Json) : Option Language :=
  match fields? ["name", "aliases", "codeBlocks"] j with
  | some [name, aliases, codeBlocks] => do
    let name ← required Json.string? name
    let aliases ← optional [] (list? Json.string?) aliases
    let codeBlocks ← optional true Json.bool? codeBlocks
    return ⟨name, aliases, codeBlocks⟩
  | _ => none

/-- The settings that a document describes. What is not given is as without any
    document. -/
def Settings.ofJson? (j : Json) : Option Settings :=
  match fields? ["maxDepth", "enableRecursionGuard", "defaultFallbackPriority", "handlers",
      "languages"] j with
  | some [maxDepth, guardEnabled, defaultFallbackPriority, handlers, languages] => do
    let maxDepth ← optional defaults.maxDepth size? maxDepth
    let guardEnabled ← optional defaults.guardEnabled Json.bool? guardEnabled
    let defaultFallbackPriority ←
      optional defaults.defaultFallbackPriority int32? defaultFallbackPriority
    let handlers ← optional defaults.handlers (list? HandlerSettings.ofJson?) handlers
    let languages ← optional defaults.languages (list? Language.ofJson?) languages
    return { maxDepth, guardEnabled, defaultFallbackPriority, handlers, languages }
  | _ => none

end PolyScript
