import PolyScript.Parse.Basic
import PolyScript.Tree.Statement

/-!
# The Recursive Parts of the Grammar

The rules of the grammar refer to each other in circles. Each rule is written as
a plain function of a `Grammar`, which supplies the parsers for the parts that a
construct contains; no rule calls itself. The circle is closed in one place, by
levels: the parsers of one level use those of the level below, and the lowest
level only fails.

## Main definitions

* `Grammar`: Parsers for the parts of a construct.
* `Grammar.bottom`: The parsers of the lowest level.
* `Grammar.delay`: A grammar that is built when one of its parsers runs.

## Theorems

* `Grammar.delay_eq`: Building a grammar late makes no difference.
-/

namespace PolyScript

/-- Parsers for the parts that a construct may contain. -/
structure Grammar where
  /-- A whole expression. -/
  expression : Parse Expr
  /-- An operand with its prefix operators. -/
  operand : Parse Expr
  pattern : Parse Pattern
  statement : Parse Statement
  /-- A conditional, from its keyword on. -/
  conditional : Parse Statement

namespace Grammar

/-- The parsers of the lowest level, which only fail. -/
def bottom : Grammar :=
  ⟨Parse.exhausted, Parse.exhausted, Parse.exhausted, Parse.exhausted, Parse.exhausted⟩

/-- A grammar that is built only when one of its parsers runs. -/
def delay (g : Unit → Grammar) : Grammar where
  expression := fun env s => (g ()).expression env s
  operand := fun env s => (g ()).operand env s
  pattern := fun env s => (g ()).pattern env s
  statement := fun env s => (g ()).statement env s
  conditional := fun env s => (g ()).conditional env s

theorem delay_eq (g : Grammar) : delay (fun _ => g) = g := rfl

end Grammar

end PolyScript
