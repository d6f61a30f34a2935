/-!
# Errors of Settings

## Main definitions

* `SettingsError`: Why settings cannot be loaded.
* `SettingsError.message`: Its wording.
-/

namespace PolyScript

/-- Why settings cannot be loaded. -/
inductive SettingsError where
  /-- A file that cannot be read. -/
  | unreadable (path reason : String)
  /-- A text that is no JSON document, or a document that describes no
      settings. -/
  | malformedJson (origin : String)
  /-- A text that is no TOML document. -/
  | malformedToml (origin : String)
  /-- A file whose name does not tell its format. -/
  | unsupportedFormat (path : String)
  /-- Settings that break a rule. The path names the offending field. -/
  | invalid (path reason : String)
  deriving DecidableEq, Repr, Inhabited

/-- The wording of the error. -/
def SettingsError.message : SettingsError → String
  | unreadable path reason => "failed to read " ++ path ++ ": " ++ reason
  | malformedJson origin => "invalid JSON in " ++ origin
  | malformedToml origin => "invalid TOML in " ++ origin
  | unsupportedFormat path =>
    "unsupported configuration format for " ++ path ++ " (expected .json or .toml)"
  | invalid path reason => "invalid configuration at '" ++ path ++ "': " ++ reason

end PolyScript
