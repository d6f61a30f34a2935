import PolyScript.Json.Basic
import PolyScript.Tree.Statement

/-!
# Trees as Documents

The document form of positions, tokens and trees. Members are listed in a fixed
order: the type of a node first, its parts in the order of the source, its
position last.

## Main definitions

* `Expr.toJson`, `Pattern.toJson`, `Statement.toJson`, `Program.toJson`: The
  document of a tree.
-/

namespace PolyScript

/-- The document of a position. -/
def Position.toJson (p : Position) : Json :=
  .object [("line", .int p.line), ("column", .int p.column), ("offset", .int p.offset)]

/-- The document of a token. -/
def Token.toJson (t : Token) : Json :=
  .object [("kind", .string t.kind.name), ("literal", .string t.text),
    ("offset", .int t.position.offset), ("end", .int t.stop), ("line", .int t.position.line),
    ("column", .int t.position.column)]

/-- The document of a number: integers by their decimal digits, so that no size
    is too large. -/
def Number.toJson : Number → Json
  | integer n => .object [("integer", .string (toString n))]
  | float d => .object [("float", if d.isFinite then .float d else .null)]

/-- The document of an object key. -/
def ObjectKey.toJson : ObjectKey → Json
  | identifier s => .object [("identifier", .string s)]
  | string s => .object [("string", .string s)]

/-- The document of a list of texts. -/
def Json.ofStrings (texts : List String) : Json := .array (texts.map .string)

/-- The document of a node: its type, its parts and its place. -/
def Json.node (type : String) (parts : List (String × Json)) (p : Position) : Json :=
  .object (("type", .string type) :: parts ++ [("position", p.toJson)])

mutual

/-- The document of an expression. -/
def Expr.toJson : Expr → Json
  | .identifier name p => Json.node "identifier" [("name", .string name)] p
  | .qualified language path name p =>
    Json.node "qualified"
      [("language", .string language), ("path", Json.ofStrings path), ("name", .string name)] p
  | .number value raw p =>
    Json.node "number" [("value", value.toJson), ("raw", .string raw)] p
  | .string value raw p => Json.node "string" [("value", .string value), ("raw", .string raw)] p
  | .boolean value p => Json.node "boolean" [("value", .bool value)] p
  | .nil p => Json.node "nil" [] p
  | .array elements p => Json.node "array" [("elements", .array (exprDocuments elements))] p
  | .object entries p => Json.node "object" [("entries", .array (entryDocuments entries))] p
  | .bitstring segments p =>
    Json.node "bitstring" [("segments", .array (segmentDocuments segments))] p
  | .binary left op right p =>
    Json.node "binary"
      [("left", left.toJson), ("op", .string op.name), ("right", right.toJson)] p
  | .unary op operand p =>
    Json.node "unary" [("op", .string op.name), ("operand", operand.toJson)] p
  | .ternary condition onTrue onFalse p =>
    Json.node "ternary"
      [("condition", condition.toJson), ("then_branch", onTrue.toJson),
       ("else_branch", onFalse.toJson)] p
  | .elvis condition fallback p =>
    Json.node "elvis" [("condition", condition.toJson), ("default", fallback.toJson)] p
  | .grouped inner p => Json.node "grouped" [("inner", inner.toJson)] p
  | .languageCall language function arguments p =>
    Json.node "language_call"
      [("language", .string language), ("function", .string function),
       ("arguments", .array (exprDocuments arguments))] p
  | .builtinCall name arguments p =>
    Json.node "builtin_call"
      [("name", .string name), ("arguments", .array (exprDocuments arguments))] p
  | .index object index p =>
    Json.node "index" [("object", object.toJson), ("index", index.toJson)] p
  | .fieldAccess object field p =>
    Json.node "field_access" [("object", object.toJson), ("field", .string field)] p
  | .pipe stages operators p =>
    Json.node "pipe"
      [("stages", .array (exprDocuments stages)),
       ("operators", .array (operators.map Token.toJson))] p

/-- The documents of several expressions. -/
def exprDocuments : List Expr → List Json
  | [] => []
  | e :: rest => e.toJson :: exprDocuments rest

/-- The documents of the entries of an object literal. -/
def entryDocuments : List ObjectEntry → List Json
  | [] => []
  | .mk key value :: rest =>
    .object [("key", key.toJson), ("value", value.toJson)] :: entryDocuments rest

/-- The documents of the segments of a bit string. -/
def segmentDocuments : List BitSegment → List Json
  | [] => []
  | .mk value size dynamicSize specifiers p :: rest =>
    let size := match size with
      | some e => e.toJson
      | none => .null
    .object [("value", value.toJson), ("size", size), ("dynamic_size", .bool dynamicSize),
      ("specifiers", Json.ofStrings specifiers), ("position", p.toJson)] ::
      segmentDocuments rest

end

mutual

/-- The document of a pattern. -/
def Pattern.toJson : Pattern → Json
  | .literal value p => Json.node "literal" [("value", value.toJson)] p
  | .capture name p => Json.node "variable" [("name", .string name)] p
  | .wildcard p => Json.node "wildcard" [] p
  | .array elements rest p =>
    let rest := match rest with
      | some name => .string name
      | none => .null
    Json.node "array" [("elements", .array (patternDocuments elements)), ("rest", rest)] p
  | .object fields p => Json.node "object" [("fields", .object (fieldDocuments fields))] p
  | .bitstring segments p =>
    Json.node "bitstring" [("segments", .array (segmentDocuments segments))] p

/-- The documents of several patterns. -/
def patternDocuments : List Pattern → List Json
  | [] => []
  | q :: rest => q.toJson :: patternDocuments rest

/-- The members that stand for the fields of an object pattern. -/
def fieldDocuments : List PatternField → List (String × Json)
  | [] => []
  | .mk key q :: rest => (key, q.toJson) :: fieldDocuments rest

end

mutual

/-- The document of a statement. -/
def Statement.toJson : Statement → Json
  | .assignment target value p =>
    Json.node "assignment" [("target", target.toJson), ("value", value.toJson)] p
  | .expression expr p => Json.node "expression" [("expr", expr.toJson)] p
  | .conditional condition onTrue onFalse p =>
    let onFalse := match onFalse with
      | some b => b.toJson
      | none => .null
    Json.node "if"
      [("condition", condition.toJson), ("then_block", onTrue.toJson), ("else_block", onFalse)] p
  | .forIn names iterable body p =>
    Json.node "for_in"
      [("variables", Json.ofStrings names), ("iterable", iterable.toJson),
       ("body", body.toJson)] p
  | .numericFor name first last step body p =>
    let step := match step with
      | some e => e.toJson
      | none => .null
    Json.node "numeric_for"
      [("variable", .string name), ("start", first.toJson), ("end", last.toJson), ("step", step),
       ("body", body.toJson)] p
  | .whileLoop condition body p =>
    Json.node "while" [("condition", condition.toJson), ("body", body.toJson)] p
  | .breakLoop token => .object [("type", .string "break"), ("token", token.toJson)]
  | .continueLoop token => .object [("type", .string "continue"), ("token", token.toJson)]
  | .block (.mk statements p) =>
    Json.node "block" [("statements", .array (statementDocuments statements))] p
  | .codeBlock language captures code p =>
    Json.node "code_block"
      [("language", .string language), ("captures", Json.ofStrings captures),
       ("code", .string code)] p
  | .languageCall call background p =>
    Json.node "language_call" [("call", call.toJson), ("background", .bool background)] p
  | .select scrutinee arms p =>
    Json.node "match" [("scrutinee", scrutinee.toJson), ("arms", .array (armDocuments arms))] p

/-- The document of a block. -/
def Block.toJson : Block → Json
  | .mk statements p =>
    .object [("statements", .array (statementDocuments statements)), ("position", p.toJson)]

/-- The documents of several statements. -/
def statementDocuments : List Statement → List Json
  | [] => []
  | s :: rest => s.toJson :: statementDocuments rest

/-- The documents of the arms of a match statement. -/
def armDocuments : List MatchArm → List Json
  | [] => []
  | .mk pattern body p :: rest =>
    .object [("pattern", pattern.toJson), ("body", body.toJson), ("position", p.toJson)] ::
      armDocuments rest

end

/-- The document of a program. -/
def Program.toJson (program : Program) : Json :=
  .object [("statements", .array (statementDocuments program.statements))]

end PolyScript
