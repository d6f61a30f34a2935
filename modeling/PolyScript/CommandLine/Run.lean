import PolyScript.CommandLine.Arguments
import PolyScript.Json.Printer
import PolyScript.Report.Tables
import PolyScript.Settings.Load

/-!
# Running Commands

What a command writes and how it ends, given the files it may read. Reading is
the only effect that a command needs, so it is passed in as a function.

## Main definitions

* `CommandError`: Why a command fails.
* `loadSettings`, `checkSource`: The work behind the commands.
* `Command.run`: The outcome of a command.
* `Request.run`: The outcome of a command line.
-/

namespace PolyScript

/-- What files hold, or why they cannot be read. -/
abbrev Files := String → Except String String

/-- Why a command fails. -/
inductive CommandError where
  | parse (error : ParseError)
  | settings (error : SettingsError)
  | input (reason : String)

/-- The wording of the error. -/
def CommandError.message : CommandError → String
  | parse e => "Parse error: " ++ e.message
  | settings e => "Configuration error: " ++ e.message
  | input reason => "IO error: " ++ reason

/-- The settings that files describe, with another nesting limit if one is
    given. -/
def loadSettings (files : Files) (config : List String) (maxDepth : Option Nat) :
    Except CommandError Settings :=
  match Settings.load (config.map fun path => .file path (files path)) with
  | .error e => .error (.settings e)
  | .ok s =>
    match s.withMaxDepth maxDepth with
    | .error e => .error (.settings e)
    | .ok s => .ok s

/-- Parses a script under the settings that files describe. -/
def checkSource (files : Files) (config : List String) (maxDepth : Option Nat)
    (source : String) : Except CommandError Program :=
  match loadSettings files config maxDepth with
  | .error e => .error e
  | .ok s =>
    match (Parser.ofSettings s).parse source with
    | .error e => .error (.parse e)
    | .ok program => .ok program

/-- What a command writes, and the code it ends with. -/
structure Outcome where
  code : Nat
  output : String
  errors : String
  deriving DecidableEq, Repr

namespace Outcome

/-- A command that ends well. -/
def success (output : String) : Outcome := ⟨0, output, ""⟩

/-- A command that fails. -/
def failure (e : CommandError) : Outcome := ⟨1, "", e.message ++ "\n"⟩

/-- The outcome of a computation whose result is shown. -/
def ofExcept {α : Type} (render : α → String) : Except CommandError α → Outcome
  | .ok a => success (render a)
  | .error e => failure e

end Outcome

namespace Command

/-- The script that the check command works on. -/
def script (files : Files) (input : String) (options : CheckOptions) :
    Except CommandError String :=
  match options.file, options.source with
  | some path, _ =>
    match files path with
    | .ok text => .ok text
    | .error reason => .error (.input reason)
  | none, some source => .ok source
  | none, none => .ok input

/-- The text of a checked program. The members of its document are sorted. -/
def showProgram (options : CheckOptions) (program : Program) : String :=
  if options.validityOnly then "Syntax is valid\n"
  else
    let document := program.toJson.sorted
    (if options.pretty then document.pretty else document.compact) ++ "\n"

/-- The outcome of a command. -/
def run (files : Files) (input : String) : Command → Outcome
  | check options =>
    match script files input options with
    | .error e => .failure e
    | .ok source =>
      .ofExcept (showProgram options) (checkSource files options.config options.maxDepth source)
  | handlers config => .ofExcept Settings.handlerTable (loadSettings files config none)
  | languages config => .ofExcept Settings.languageTable (loadSettings files config none)

/-- The files that a command may read. -/
def paths : Command → List String
  | check options => options.file.toList ++ options.config
  | handlers config | languages config => config

/-- Whether a command reads the standard input. -/
def readsInput : Command → Bool
  | check options => options.file.isNone && options.source.isNone
  | _ => false

end Command

namespace Request

/-- The name and version of the program. -/
def versionText : String := "mosaic 0.1.0\n"

/-- How the program is used. -/
def usageText : String :=
  "Usage: mosaic [-v] check [FILE | -s SOURCE] [-c CONFIG]... [--max-depth N] [-p]\n" ++
  "              [--syntax-only]\n" ++
  "       mosaic [-v] handlers [-c CONFIG]...\n" ++
  "       mosaic [-v] languages [-c CONFIG]...\n"

/-- The outcome of a command line. -/
def run (files : Files) (input : String) : Request → Outcome
  | execute command => command.run files input
  | version => .success versionText
  | misuse => ⟨2, "", usageText⟩

end Request

end PolyScript
