import PolyScript.Settings.Basic
import PolyScript.Text.Quoted
import PolyScript.Tree.Source

/-!
# Tables of Settings

Plain text overviews of the handlers and the guest languages.

## Main definitions

* `Settings.handlerTable`: The handlers in the order in which they are tried.
* `Settings.languageTable`: The languages with their aliases.
* `Registry.describe`: One line about a registry.
-/

namespace PolyScript

/-- A text with blanks after it, to a width in characters. -/
def padRight (width : Nat) (s : String) : String :=
  s ++ String.ofList (List.replicate (width - s.length) ' ')

/-- A text with blanks before it, to a width in characters. -/
def padLeft (width : Nat) (s : String) : String :=
  String.ofList (List.replicate (width - s.length) ' ') ++ s

/-- How a table shows a token pattern. -/
def TokenPattern.describe (p : TokenPattern) : String :=
  match p.value with
  | some v => p.kind.describe ++ "=" ++ Text.quoted v ++ "@" ++ toString p.offset
  | none => p.kind.describe ++ "@" ++ toString p.offset

/-- One line of the handler table. -/
def handlerRow (name construct priority order patterns : String) : String :=
  padRight 16 name ++ " " ++ padRight 14 construct ++ " " ++ padLeft 8 priority ++ " " ++
    padLeft 6 order ++ "  " ++ patterns ++ "\n"

/-- The line of a handler, with the last column given. -/
def HandlerSettings.row (h : HandlerSettings) (lastColumn : String) : String :=
  handlerRow h.name h.construct.name (toString h.priority) (toString h.order) lastColumn

namespace Settings

/-- The handlers in the order in which they are tried, then the fallbacks in
    theirs. -/
def handlerTable (s : Settings) : String :=
  let registry := Registry.ofSettings s
  let primaries := (registry.all.map Handler.settings).filter fun h => !h.fallback
  let primaryRow (h : HandlerSettings) : String :=
    h.row (SourcePrinter.joinWith " | " (h.patterns.map TokenPattern.describe) ++
      if h.enabled then "" else "  (disabled)")
  let fallbackRow (h : Handler) : String :=
    h.settings.row ("fallback (priority " ++ toString (registry.fallbackPriority h) ++ ")")
  handlerRow "NAME" "CONSTRUCT" "PRIORITY" "ORDER" "PATTERNS" ++
    String.join (primaries.map primaryRow) ++ String.join (registry.fallbacks.map fallbackRow)

/-- The languages with their aliases, one on each line. -/
def languageTable (s : Settings) : String :=
  String.join (s.languages.map fun l =>
    l.name ++
      (if l.aliases.isEmpty then ""
        else " (aliases: " ++ SourcePrinter.joinWith ", " l.aliases ++ ")") ++
      (if l.codeBlocks then "" else " [no code blocks]") ++ "\n")

end Settings

/-- One line about a registry: its handlers in the order of registration, and how
    many tokens they look at. -/
def Registry.describe (r : Registry) : String :=
  let names := r.handlers.toList.map fun h => Text.quoted h.settings.name
  "HandlerRegistry \x7b handlers: [" ++ SourcePrinter.joinWith ", " names ++
    "], window_size: " ++ toString r.windowSize ++ " \x7d"

end PolyScript
