import PolyScript.Settings.Basic
import PolyScript.Settings.Error

/-!
# Validation

The rules that settings have to keep, checked in a fixed order so that the first
fault is the one reported: the nesting limit, then each handler, then each
language.

## Main definitions

* `Settings.isHandlerName`, `Settings.isLanguageName`: Well-formed names.
* `Settings.validate`: The first fault, if there is one.
-/

namespace PolyScript

namespace Settings

/-- The greatest nesting limit that is accepted. -/
def depthLimit : Nat := 1000

/-- The offsets that a token pattern may have are below this. -/
def offsetLimit : Nat := 8

/-- Whether a character is a lower-case ASCII letter. -/
def isLower (c : Char) : Bool := 'a' ≤ c && c ≤ 'z'

/-- Whether a character is a lower-case ASCII letter or a digit. -/
def isLowerOrDigit (c : Char) : Bool := isLower c || ('0' ≤ c && c ≤ '9')

/-- Whether a handler name may go on like this. A dash or an underscore has to be
    followed by a letter or digit. -/
def handlerNameTail : Bool → List Char → Bool
  | afterDash, [] => !afterDash
  | afterDash, c :: cs =>
    if isLowerOrDigit c then handlerNameTail false cs
    else (c = '-' || c = '_') && !afterDash && handlerNameTail true cs

/-- Whether a text is a handler name: a letter, then letters and digits, in groups
    joined by single dashes or underscores. -/
def isHandlerName (s : String) : Bool :=
  match s.toList with
  | [] => false
  | c :: cs => isLower c && handlerNameTail false cs

/-- Whether a text is a language name: a letter, then letters, digits and
    underscores. -/
def isLanguageName (s : String) : Bool :=
  match s.toList with
  | [] => false
  | c :: cs => isLower c && cs.all fun c => isLowerOrDigit c || c = '_'

/-- The path of an item of a list. -/
def itemPath (path : String) (i : Nat) : String := path ++ "[" ++ toString i ++ "]"

/-- Checks the nesting limit. -/
def validateDepth (maxDepth : Nat) : Except SettingsError Unit :=
  if maxDepth = 0 then .error (.invalid "maxDepth" "must be greater than zero")
  else if depthLimit < maxDepth then
    .error (.invalid "maxDepth" ("must not exceed " ++ toString depthLimit))
  else .ok ()

/-- Checks the offsets of patterns, from the `j`-th on. -/
def validatePatterns (path : String) : Nat → List TokenPattern → Except SettingsError Unit
  | _, [] => .ok ()
  | j, p :: rest =>
    if offsetLimit ≤ p.offset then
      .error (.invalid (itemPath (path ++ ".patterns") j ++ ".offset")
        ("must be below " ++ toString offsetLimit))
    else validatePatterns path (j + 1) rest

/-- Checks one handler. The names of the handlers before it are given. -/
def validateHandler (path : String) (seen : List String) (h : HandlerSettings) :
    Except SettingsError Unit :=
  if !isHandlerName h.name then
    .error (.invalid (path ++ ".name") ("'" ++ h.name ++ "' is not a valid handler name"))
  else if seen.contains h.name then
    .error (.invalid (path ++ ".name") ("duplicate handler name '" ++ h.name ++ "'"))
  else if h.enabled && !h.fallback && h.patterns.isEmpty then
    .error (.invalid (path ++ ".patterns") "a primary handler needs at least one token pattern")
  else validatePatterns path 0 h.patterns

/-- Checks handlers, from the `i`-th on. -/
def validateHandlers : Nat → List String → List HandlerSettings → Except SettingsError Unit
  | _, _, [] => .ok ()
  | i, seen, h :: rest =>
    match validateHandler (itemPath "handlers" i) seen h with
    | .ok () => validateHandlers (i + 1) (h.name :: seen) rest
    | .error e => .error e

/-- Checks one name of a language. The names before it are given. -/
def validateName (path : String) (seen : List String) (name : String) :
    Except SettingsError Unit :=
  if !isLanguageName name then
    .error (.invalid path ("'" ++ name ++ "' is not a valid language name"))
  else if seen.contains name then
    .error (.invalid path ("'" ++ name ++ "' is already defined"))
  else .ok ()

/-- Checks aliases, from the `j`-th on, and adds them to the names so far. -/
def validateAliases (path : String) :
    Nat → List String → List String → Except SettingsError (List String)
  | _, seen, [] => .ok seen
  | j, seen, name :: rest =>
    match validateName (itemPath (path ++ ".aliases") j) seen name with
    | .ok () => validateAliases path (j + 1) (name :: seen) rest
    | .error e => .error e

/-- Checks languages, from the `i`-th on. -/
def validateLanguages : Nat → List String → List Language → Except SettingsError Unit
  | _, _, [] => .ok ()
  | i, seen, l :: rest =>
    let path := itemPath "languages" i
    match validateName (path ++ ".name") seen l.name with
    | .error e => .error e
    | .ok () =>
      match validateAliases path 0 (l.name :: seen) l.aliases with
      | .error e => .error e
      | .ok seen => validateLanguages (i + 1) seen rest

/-- The first fault of the settings, if there is one. -/
def validate (s : Settings) : Except SettingsError Unit :=
  match validateDepth s.maxDepth with
  | .error e => .error e
  | .ok () =>
    match validateHandlers 0 [] s.handlers with
    | .error e => .error e
    | .ok () => validateLanguages 0 [] s.languages

/-- The settings themselves, if they are without fault. -/
def validated (s : Settings) : Except SettingsError Settings :=
  match s.validate with
  | .ok () => .ok s
  | .error e => .error e

end Settings

end PolyScript
