import PolyScript.Settings.Basic
import PolyScript.Tree.Encode

/-!
# Settings as Documents

## Main definitions

* `Settings.toJson`: The document of settings, members in a fixed order.
-/

namespace PolyScript

/-- The document of a token pattern. A text is listed only if there is one. -/
def TokenPattern.toJson (p : TokenPattern) : Json :=
  let value := match p.value with
    | some v => [("value", Json.string v)]
    | none => []
  .object (("kind", .string p.kind.name) :: value ++ [("offset", .int p.offset)])

/-- The document of a handler's settings. A fallback priority of its own and
    parameters are listed only if there are any. -/
def HandlerSettings.toJson (h : HandlerSettings) : Json :=
  let fallbackPriority := match h.fallbackPriority with
    | some n => [("fallbackPriority", Json.int n)]
    | none => []
  let params := if h.params.isEmpty then [] else [("params", Json.object h.params)]
  .object
    ([("construct", .string h.construct.name), ("name", .string h.name),
      ("priority", .int h.priority), ("order", .int h.order), ("enabled", .bool h.enabled),
      ("fallback", .bool h.fallback)] ++ fallbackPriority ++
     [("patterns", .array (h.patterns.map TokenPattern.toJson))] ++ params)

/-- The document of a language. -/
def Language.toJson (l : Language) : Json :=
  .object [("name", .string l.name), ("aliases", Json.ofStrings l.aliases),
    ("codeBlocks", .bool l.codeBlocks)]

/-- The document of settings. -/
def Settings.toJson (s : Settings) : Json :=
  .object [("maxDepth", .int s.maxDepth), ("enableRecursionGuard", .bool s.guardEnabled),
    ("defaultFallbackPriority", .int s.defaultFallbackPriority),
    ("handlers", .array (s.handlers.map HandlerSettings.toJson)),
    ("languages", .array (s.languages.map Language.toJson))]

end PolyScript
