import PolyScript.Text.Word

/-!
# Arguments

How the words of a command line become a command. A command has flags, options
that take a value, and perhaps one word of its own. An option takes its value
from the same word, after an equals sign or right after a short name, or else
from the next word, unless that looks like an option itself. Short flags may
share a word. After two dashes everything is a plain word. Only options that
collect their values may be given twice.

## Main definitions

* `Switch`: A flag or option that a command knows.
* `Switch.scan?`: The switches and words of a command line.
* `Command`: What a command does.
* `Request.ofArguments`: What a command line asks for.
-/

namespace PolyScript

/-- What a flag or option is about. -/
inductive SwitchName where
  | verbose
  | source
  | config
  | maxDepth
  | pretty
  | validityOnly
  deriving DecidableEq, Repr, Inhabited

/-- A flag or option that a command knows. -/
structure Switch where
  name : SwitchName
  short : Option Char
  long : String
  takesValue : Bool
  /-- Whether it may be given more than once. -/
  repeatable : Bool

/-- The switches of a command line with their values, and its plain words. A flag
    has an empty value. -/
structure Scanned where
  switches : List (SwitchName × String)
  words : List String

namespace Scanned

/-- The values given for a name. -/
def values (s : Scanned) (name : SwitchName) : List String :=
  (s.switches.filter fun given => given.1 = name).map Prod.snd

/-- Whether a name is given. -/
def has (s : Scanned) (name : SwitchName) : Bool := s.switches.any fun given => given.1 = name

/-- Adds a switch in front. -/
def withSwitch (name : SwitchName) (value : String) (s : Scanned) : Scanned :=
  { s with switches := (name, value) :: s.switches }

end Scanned

namespace Switch

/-- Whether a word is a switch rather than a value: a dash alone is none. -/
def looksLikeSwitch (word : String) : Bool :=
  match word.toList with
  | '-' :: _ :: _ => true
  | _ => false

/-- A word of short names: the flags in it, and what is left once a name takes a
    value. -/
def shortNames? (known : List Switch) :
    List Char → Option (List SwitchName × Option (SwitchName × List Char))
  | [] => some ([], none)
  | c :: cs =>
    match known.find? fun s => s.short = some c with
    | none => none
    | some s =>
      if s.takesValue then some ([], some (s.name, cs))
      else (shortNames? known cs).map fun (flags, pending) => (s.name :: flags, pending)

/-- Reads the words of a command line. -/
def scan? (known : List Switch) : List String → Option Scanned
  | [] => some ⟨[], []⟩
  | word :: rest =>
    match word.toList with
    | ['-', '-'] => some ⟨[], rest⟩
    | '-' :: '-' :: body =>
      let (name, value) := body.span (· ≠ '=')
      match known.find? fun s => s.long = String.ofList name with
      | none => none
      | some s =>
        match s.takesValue, value with
        | false, [] => (scan? known rest).map (Scanned.withSwitch s.name "")
        | false, _ :: _ => none
        | true, _ :: text =>
          (scan? known rest).map (Scanned.withSwitch s.name (String.ofList text))
        | true, [] =>
          match rest with
          | [] => none
          | next :: rest =>
            if looksLikeSwitch next then none
            else (scan? known rest).map (Scanned.withSwitch s.name next)
    | '-' :: c :: cs =>
      match shortNames? known (c :: cs) with
      | none => none
      | some (flags, pending) =>
        let addFlags (s : Scanned) : Scanned :=
          flags.foldr (fun name s => s.withSwitch name "") s
        match pending with
        | none => (scan? known rest).map addFlags
        | some (name, '=' :: text) =>
          (scan? known rest).map fun s =>
            addFlags (s.withSwitch name (String.ofList text))
        | some (name, c :: text) =>
          (scan? known rest).map fun s =>
            addFlags (s.withSwitch name (String.ofList (c :: text)))
        | some (name, []) =>
          match rest with
          | [] => none
          | next :: rest =>
            if looksLikeSwitch next then none
            else (scan? known rest).map fun s => addFlags (s.withSwitch name next)
    | _ => (scan? known rest).map fun s => { s with words := word :: s.words }

/-- Whether no switch is given too often. -/
def allowedCounts (known : List Switch) (s : Scanned) : Bool :=
  known.all fun k => k.repeatable || (s.values k.name).length ≤ 1

end Switch

/-- What the check command works on. -/
structure CheckOptions where
  /-- The script file, if one is named. -/
  file : Option String
  /-- The script itself, if it is given. -/
  source : Option String
  /-- The files with settings, in order. -/
  config : List String
  maxDepth : Option Nat
  /-- Whether the tree is spread over several lines. -/
  pretty : Bool
  /-- Whether only validity is reported. -/
  validityOnly : Bool

/-- What a command does. -/
inductive Command where
  /-- Parses a script and shows its tree. -/
  | check (options : CheckOptions)
  /-- Lists the handlers. -/
  | handlers (config : List String)
  /-- Lists the guest languages. -/
  | languages (config : List String)

namespace Command

/-- The flag that every command knows. -/
def verboseSwitch : Switch := ⟨.verbose, some 'v', "verbose", false, false⟩

/-- The option that names a file with settings. -/
def configSwitch : Switch := ⟨.config, some 'c', "config", true, true⟩

/-- The switches of the check command. -/
def checkSwitches : List Switch :=
  [verboseSwitch, configSwitch, ⟨.source, some 's', "source", true, false⟩,
   ⟨.maxDepth, none, "max-depth", true, false⟩, ⟨.pretty, some 'p', "pretty", false, false⟩,
   ⟨.validityOnly, none, "syntax-only", false, false⟩]

/-- The switches of the commands that list something. -/
def listSwitches : List Switch := [verboseSwitch, configSwitch]

/-- The nesting limit of a command line, if it is given and well formed. -/
def depth? (s : Scanned) : Option (Option Nat) :=
  match s.values .maxDepth with
  | [] => some none
  | text :: _ => (Text.word? text).map some

/-- The files with settings. None may be nameless. -/
def config? (s : Scanned) : Option (List String) :=
  let paths := s.values .config
  if paths.contains "" then none else some paths

/-- The check command of scanned words. A script is named or given, not both. -/
def ofCheck? (s : Scanned) : Option Command :=
  match depth? s, config? s, s.words, (s.values .source).head? with
  | some maxDepth, some config, [], source =>
    some (.check ⟨none, source, config, maxDepth, s.has .pretty, s.has .validityOnly⟩)
  | some maxDepth, some config, [file], none =>
    if file = "" then none
    else some (.check ⟨some file, none, config, maxDepth, s.has .pretty, s.has .validityOnly⟩)
  | _, _, _, _ => none

/-- A command that lists something, of scanned words. -/
def ofList? (command : List String → Command) (s : Scanned) : Option Command :=
  match s.words with
  | [] => (config? s).map command
  | _ => none

/-- The command of a name and the words after it. -/
def ofWords? (name : String) (words : List String) : Option Command :=
  let build (known : List Switch) (make : Scanned → Option Command) : Option Command :=
    match Switch.scan? known words with
    | some s => if Switch.allowedCounts known s then make s else none
    | none => none
  match name with
  | "check" => build checkSwitches ofCheck?
  | "handlers" => build listSwitches (ofList? .handlers)
  | "languages" => build listSwitches (ofList? .languages)
  | _ => none

end Command

/-- What a command line asks for. -/
inductive Request where
  | execute (command : Command)
  | version
  /-- Nothing that makes sense. -/
  | misuse

namespace Request

/-- Reads the short names before a command: nothing if the word is misused, else
    whether the version is asked for and whether the verbose flag is set. -/
def leadingFlags? : Bool → List Char → Option (Bool × Bool)
  | verbose, [] => some (false, verbose)
  | verbose, c :: cs =>
    if c = 'V' then some (true, verbose)
    else if c = 'v' && !verbose then leadingFlags? true cs
    else none

/-- Reads a command line; the flag says whether the verbose flag has come. -/
def ofArgumentsFrom : Bool → List String → Request
  | _, [] => misuse
  | verbose, word :: rest =>
    if word = "--version" then version
    else if word = "--verbose" then
      if verbose then misuse else ofArgumentsFrom true rest
    else
      match word.toList with
      | '-' :: '-' :: _ => misuse
      | '-' :: c :: cs =>
        match leadingFlags? verbose (c :: cs) with
        | some (true, _) => version
        | some (false, verbose) => ofArgumentsFrom verbose rest
        | none => misuse
      | _ =>
        match Command.ofWords? word rest with
        | some command => execute command
        | none => misuse

/-- What a command line asks for. -/
def ofArguments (words : List String) : Request := ofArgumentsFrom false words

end Request

end PolyScript
