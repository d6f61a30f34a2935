import PolyScript.Json.Printer
import PolyScript.Lexer.Scan
import PolyScript.Tree.Pattern

/-!
# Printing Trees as Source Text

Expressions and patterns written as source text again. A printer that groups
puts parentheses around every binary, ternary and elvis node, which makes the
structure of a tree visible; parentheses that were in the source are then not
doubled.

## Main definitions

* `SourcePrinter`: Whether to group.
* `SourcePrinter.expr`: The text of an expression.
* `SourcePrinter.pattern`: The text of a pattern.
-/

namespace PolyScript

/-- How trees are printed. -/
structure SourcePrinter where
  /-- Whether every operator node gets parentheses. -/
  grouping : Bool
  deriving DecidableEq, Repr

namespace SourcePrinter

/-- Prints trees as they were written. -/
def plain : SourcePrinter := ⟨false⟩

/-- Prints trees with their grouping made visible. -/
def parenthesized : SourcePrinter := ⟨true⟩

/-- Joins texts with a separator between two of them. -/
def joinWith (separator : String) : List String → String
  | [] => ""
  | [s] => s
  | s :: rest => s ++ separator ++ joinWith separator rest

/-- Puts a text in parentheses. -/
def parens (s : String) : String := "(" ++ s ++ ")"

/-- Puts the text of an operator node in parentheses if the printer groups. -/
def wrap (p : SourcePrinter) (s : String) : String := if p.grouping then parens s else s

/-- The text of an object literal key. -/
def key : ObjectKey → String
  | .identifier name => name
  | .string name => Json.quote name

/-- Whether a text is one word without dashes. -/
def isWord (s : String) : Bool :=
  match s.toList with
  | [] => false
  | c :: cs => Lexer.isNameStart c && cs.all Lexer.isNamePart

/-- The text of an object pattern key. It is left bare if it would be read as the
    same key again: a word that is no keyword, or a language tag. -/
def patternKey (s : String) : String :=
  let bare := isWord s &&
    match Kind.keyword? s with
    | none | some .language | some .underscore => true
    | some _ => false
  if bare then s else Json.quote s

/-- Whether an expression gets parentheses from a printer that groups. -/
def isOperation : Expr → Bool
  | .binary .. | .ternary .. | .elvis .. => true
  | _ => false

mutual

/-- The text of an expression. -/
def expr (p : SourcePrinter) : Expr → String
  | .identifier name _ => name
  | .qualified language path name _ => language ++ "." ++ joinWith "." (path ++ [name])
  | .number _ raw _ => raw
  | .string _ raw _ => raw
  | .boolean true _ => "true"
  | .boolean false _ => "false"
  | .nil _ => "nil"
  | .array elements _ => "[" ++ joinWith ", " (exprs p elements) ++ "]"
  | .object entries _ => "\x7b" ++ joinWith ", " (entryTexts p entries) ++ "\x7d"
  | .bitstring segments _ => "<<" ++ joinWith ", " (segmentTexts p segments) ++ ">>"
  | .binary left op right _ => wrap p (expr p left ++ " " ++ op.symbol ++ " " ++ expr p right)
  | .unary op operand _ => op.symbol ++ expr p operand
  | .ternary condition onTrue onFalse _ =>
    wrap p (expr p condition ++ " ? " ++ expr p onTrue ++ " : " ++ expr p onFalse)
  | .elvis condition fallback _ => wrap p (expr p condition ++ " ? : " ++ expr p fallback)
  | .grouped inner _ =>
    if p.grouping && isOperation inner then expr p inner else parens (expr p inner)
  | .languageCall language function arguments _ =>
    language ++ "." ++ function ++ parens (joinWith ", " (exprs p arguments))
  | .builtinCall name arguments _ => name ++ parens (joinWith ", " (exprs p arguments))
  | .index object index _ => expr p object ++ "[" ++ expr p index ++ "]"
  | .fieldAccess object field _ => expr p object ++ "." ++ field
  | .pipe stages _ _ => joinWith " |> " (exprs p stages)

/-- The texts of several expressions. -/
def exprs (p : SourcePrinter) : List Expr → List String
  | [] => []
  | e :: rest => expr p e :: exprs p rest

/-- The texts of the entries of an object literal. -/
def entryTexts (p : SourcePrinter) : List ObjectEntry → List String
  | [] => []
  | .mk k e :: rest => (key k ++ ": " ++ expr p e) :: entryTexts p rest

/-- The texts of the segments of a bit string. -/
def segmentTexts (p : SourcePrinter) : List BitSegment → List String
  | [] => []
  | .mk value size _ specifiers _ :: rest =>
    let size := match size with
      | some e => ":" ++ expr p e
      | none => ""
    let specifiers := if specifiers.isEmpty then "" else "/" ++ joinWith "-" specifiers
    (expr p value ++ size ++ specifiers) :: segmentTexts p rest

end

mutual

/-- The text of a pattern. -/
def pattern (p : SourcePrinter) : Pattern → String
  | .literal value _ => expr p value
  | .capture name _ => name
  | .wildcard _ => "_"
  | .array elements rest _ =>
    let rest := match rest with
      | some name => ["..." ++ name]
      | none => []
    "[" ++ joinWith ", " (patterns p elements ++ rest) ++ "]"
  | .object fields _ => "\x7b" ++ joinWith ", " (fieldTexts p fields) ++ "\x7d"
  | .bitstring segments _ => "<<" ++ joinWith ", " (segmentTexts p segments) ++ ">>"

/-- The texts of several patterns. -/
def patterns (p : SourcePrinter) : List Pattern → List String
  | [] => []
  | q :: rest => pattern p q :: patterns p rest

/-- The texts of the fields of an object pattern. -/
def fieldTexts (p : SourcePrinter) : List PatternField → List String
  | [] => []
  | .mk k q :: rest => (patternKey k ++ ": " ++ pattern p q) :: fieldTexts p rest

end

end SourcePrinter

end PolyScript
