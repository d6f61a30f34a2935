import PolyScript.Parser

/-!
# Settings

Everything about a parser that can be configured, and what it is unless a
document says otherwise.

## Main definitions

* `Settings`: The settings of a parser.
* `Settings.defaults`: The settings without any document.
* `Registry.ofSettings`, `Parser.ofSettings`: What settings describe.
-/

namespace PolyScript

/-- The settings of a parser. -/
structure Settings where
  /-- How deep constructs may nest. -/
  maxDepth : Nat
  /-- Whether nesting is limited at all. -/
  guardEnabled : Bool
  /-- The priority of fallbacks that set none of their own. -/
  defaultFallbackPriority : Int
  handlers : List HandlerSettings
  languages : List Language

namespace Settings

/-- The settings without any document. -/
def defaults : Settings :=
  { maxDepth := 100
    guardEnabled := true
    defaultFallbackPriority := 0
    handlers := HandlerSettings.defaults
    languages := Language.defaults }

/-- The first handler of a name. -/
def handler? (s : Settings) (name : String) : Option HandlerSettings :=
  s.handlers.find? fun h => h.name = name

/-- Switches off the first handler of a name. -/
def disable (s : Settings) (name : String) : Settings :=
  { s with handlers := go s.handlers }
where
  /-- Switches off the first handler of the name in a list. -/
  go : List HandlerSettings → List HandlerSettings
    | [] => []
    | h :: rest => if h.name = name then { h with enabled := false } :: rest else h :: go rest

/-- The nesting guard. -/
def guard (s : Settings) : Guard := ⟨s.maxDepth, s.guardEnabled⟩

end Settings

/-- The registry with one handler for each handler entry. -/
def Registry.ofSettings (s : Settings) : Registry :=
  s.handlers.foldl (fun r h => r.register (Handler.builtin h))
    (Registry.empty s.defaultFallbackPriority)

namespace Parser

/-- A parser that dispatches through a given registry and takes all else from
    settings. -/
def withRegistry (s : Settings) (registry : Registry) : Parser :=
  ⟨registry, LanguageTable.ofList s.languages, s.guard⟩

/-- The parser that settings describe. -/
def ofSettings (s : Settings) : Parser := withRegistry s (Registry.ofSettings s)

end Parser

end PolyScript
