import PolyScript.Parse.Grammar
import PolyScript.Tree.Number

/-!
# Literals and Lists

The leaves of the grammar, and the shape that bracketed lists share.

## Main definitions

* `Parse.literal`: A number, string, truth value or nil.
* `Parse.commaList`: Items up to a closing bracket.
-/

namespace PolyScript

namespace Parse

/-- The literal that a token of a source text is. -/
def literalOf (source : String) (token : Token) : Except ParseError Expr :=
  match token.kind with
  | .number =>
    match Number.ofText? token.text with
    | some value => .ok (.number value token.text token.position)
    | none => .error (.unexpectedToken "number" token)
  | .string =>
    .ok (.string token.text (Text.slice source token.position.offset token.stop) token.position)
  | .kwTrue => .ok (.boolean true token.position)
  | .kwFalse => .ok (.boolean false token.position)
  | .kwNil => .ok (.nil token.position)
  | _ => .error (.unexpectedToken "literal" token)

/-- A number, string, truth value or nil. -/
def literal : Parse Expr := do
  let token ← current
  match literalOf (← read).source token with
  | .ok expr =>
    let _ ← consume
    return expr
  | .error e => throw e

/-- Items with commas between them, up to but not including the closing bracket.
    A comma may follow the last item, and newlines may stand around each. The
    items are folded into an accumulator. -/
def commaList {α : Type} (closer : Kind) (start : α) (item : α → Parse α) : Parse α := do
  let _ ← skipNewlines
  loop start fun acc => do
    if ← check closer then return .inr acc
    else
      let acc ← item acc
      let _ ← skipNewlines
      if ← check .comma then
        let _ ← consume
        let _ ← skipNewlines
        return .inl acc
      else return .inr acc

end Parse

end PolyScript
