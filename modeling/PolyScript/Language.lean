import PolyScript.Parse.Error

/-!
# Guest Languages

Which languages a program may call into, under which names, and what a language
name introduces.

Names are kept as a list in which a later registration stands before an earlier
one, so that looking a name up finds the latest.

## Main definitions

* `Language`: A language with its aliases.
* `LanguageTable`: The languages and the names that resolve to them.
* `LanguageTable.resolve?`: The canonical name behind a name or alias.
* `LanguageTable.constructFor?`: What a language name introduces.
-/

namespace PolyScript

/-- A guest language: its canonical name, other names for it, and whether blocks
    of its code are accepted. -/
structure Language where
  name : String
  aliases : List String
  codeBlocks : Bool
  deriving DecidableEq, Repr, Inhabited

/-- The languages that are known unless a configuration says otherwise. -/
def Language.defaults : List Language :=
  [⟨"lua", [], true⟩, ⟨"python", ["py"], true⟩, ⟨"go", [], true⟩, ⟨"node", ["js"], true⟩]

/-- What a language name introduces. -/
inductive LanguageConstruct where
  /-- A call of a function of the language. -/
  | call
  /-- A name of the language. -/
  | qualified
  /-- A block of code of the language. -/
  | codeBlock
  deriving DecidableEq, Repr, Inhabited

/-- The known languages, and the names that resolve to them. -/
structure LanguageTable where
  languages : List Language
  /-- Names and aliases with the canonical name, the latest registration
      first. -/
  names : List (String × String)
  deriving Inhabited

namespace LanguageTable

/-- A table without languages. -/
def empty : LanguageTable := ⟨[], []⟩

/-- Adds a language, in place of one with the same canonical name. Its names
    shadow equal names of other languages. -/
def register (t : LanguageTable) (l : Language) : LanguageTable :=
  { languages := t.languages.filter (fun k => k.name ≠ l.name) ++ [l]
    names := (l.aliases.map fun a => (a, l.name)).reverse ++ (l.name, l.name) :: t.names }

/-- The table of a list of languages. -/
def ofList (languages : List Language) : LanguageTable := languages.foldl register empty

/-- The canonical name behind a name or alias. -/
def resolve? (t : LanguageTable) (name : String) : Option String := t.names.lookup name

/-- Whether a name or alias belongs to a language. -/
def isLanguage (t : LanguageTable) (name : String) : Bool := (t.resolve? name).isSome

/-- The canonical name, or the error of naming an unknown language. -/
def resolveAt (t : LanguageTable) (name : String) (p : Position) : Except ParseError String :=
  match t.resolve? name with
  | some canonical => .ok canonical
  | none => .error (.unknownLanguage name p)

/-- What a language name introduces, given the kind of the token after it and
    whether the dotted chain that it begins ends in a call. -/
def constructFor? (t : LanguageTable) (name : String) (next : Kind) (endsInCall : Bool) :
    Option LanguageConstruct :=
  match t.resolve? name with
  | none => none
  | some canonical =>
    match t.languages.find? fun l => l.name = canonical with
    | none => none
    | some language =>
      match next with
      | .dot => some (if endsInCall then .call else .qualified)
      | .leftBrace | .leftParen => if language.codeBlocks then some .codeBlock else none
      | _ => none

end LanguageTable

end PolyScript
