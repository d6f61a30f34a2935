/-!
# Positions

Where something stands in a source text. Lines and columns count from one, a
column in characters; the offset counts from zero in bytes of the UTF-8
encoding. All three advance together, one character at a time, so a position is
a function of the text before it.

## Main definitions

* `Position`: Line, column and byte offset.
* `Position.advance`: The position after one more character.
* `Position.advanceAll`: The position after a piece of text.
* `Position.after`: The position at the end of a text read from its start.

## Theorems

* `Position.advanceAll_append`: Advancing over a concatenation.
* `Position.offset_advance`: The offset grows by the encoded size.
-/

namespace PolyScript

/-- A place in a source text. -/
structure Position where
  line : Nat
  column : Nat
  offset : Nat
  deriving DecidableEq, Repr, Inhabited

namespace Position

/-- The place of the first character. -/
def start : Position := ⟨1, 1, 0⟩

/-- How messages name a place. -/
def describe (p : Position) : String :=
  "line " ++ toString p.line ++ ", column " ++ toString p.column

/-- The place after one more character. A line feed, and nothing else, begins a
    new line. -/
def advance (p : Position) (c : Char) : Position :=
  if c = '\n' then ⟨p.line + 1, 1, p.offset + c.utf8Size⟩
  else ⟨p.line, p.column + 1, p.offset + c.utf8Size⟩

/-- The place after a piece of text. -/
def advanceAll (p : Position) (cs : List Char) : Position := cs.foldl advance p

/-- The place at the end of a text that is read from its start. -/
def after (cs : List Char) : Position := start.advanceAll cs

@[simp] theorem advanceAll_nil (p : Position) : p.advanceAll [] = p := rfl

@[simp] theorem advanceAll_cons (p : Position) (c : Char) (cs : List Char) :
    p.advanceAll (c :: cs) = (p.advance c).advanceAll cs := rfl

@[simp] theorem advanceAll_append (p : Position) (xs ys : List Char) :
    p.advanceAll (xs ++ ys) = (p.advanceAll xs).advanceAll ys :=
  List.foldl_append

@[simp] theorem offset_advance (p : Position) (c : Char) :
    (p.advance c).offset = p.offset + c.utf8Size := by
  unfold advance
  split <;> rfl

end Position

end PolyScript
