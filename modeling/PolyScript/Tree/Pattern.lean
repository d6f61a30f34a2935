import PolyScript.Tree.Expr

/-!
# Patterns

The tree of a pattern, as it stands before the arrow of a match arm.

## Main definitions

* `Pattern`: A pattern.
* `Pattern.boundNames`: The names that a match binds.
-/

namespace PolyScript

mutual

/-- A pattern. -/
inductive Pattern where
  /-- A number, string, truth value or nil. -/
  | literal (value : Expr) (position : Position)
  /-- A name that takes the value. -/
  | capture (name : String) (position : Position)
  /-- Matches everything and binds nothing. -/
  | wildcard (position : Position)
  /-- Elements in order; a rest name takes the items after them. -/
  | array (elements : List Pattern) (rest : Option String) (position : Position)
  /-- Fields that have to be present, sorted by key. Other keys do not matter. -/
  | object (fields : List PatternField) (position : Position)
  | bitstring (segments : List BitSegment) (position : Position)

/-- One field of an object pattern. -/
inductive PatternField where
  | mk (key : String) (pattern : Pattern)

end

instance : Inhabited Pattern := ⟨.wildcard default⟩

namespace PatternField

/-- The key of a field. -/
def key : PatternField → String
  | mk k _ => k

/-- The pattern that the value under the key has to match. -/
def pattern : PatternField → Pattern
  | mk _ p => p

/-- Puts a field into a list sorted by key, or gives nothing if the key is
    already taken. -/
def insert? (key : String) (pattern : Pattern) : List PatternField → Option (List PatternField)
  | [] => some [mk key pattern]
  | f :: rest =>
    if key < f.key then some (mk key pattern :: f :: rest)
    else if key = f.key then none
    else (insert? key pattern rest).map (f :: ·)

end PatternField

namespace Pattern

/-- The place of the first token of a pattern. -/
def position : Pattern → Position
  | literal _ p | capture _ p | wildcard p | array _ _ p | object _ p | bitstring _ p => p

/-- The name that a bit string segment binds. -/
def segmentName? (segment : BitSegment) : Option String :=
  match segment.value with
  | .identifier name _ => if name = "_" then none else some name
  | _ => none

mutual

/-- The names that a match binds, in the order in which they are bound. -/
def boundNames : Pattern → List String
  | literal .. | wildcard _ => []
  | capture name _ => [name]
  | array elements rest _ => elementNames elements ++ rest.toList
  | object fields _ => fieldNames fields
  | bitstring segments _ => segments.filterMap segmentName?

/-- The names that the elements of an array pattern bind. -/
def elementNames : List Pattern → List String
  | [] => []
  | p :: rest => boundNames p ++ elementNames rest

/-- The names that the fields of an object pattern bind. -/
def fieldNames : List PatternField → List String
  | [] => []
  | .mk _ p :: rest => boundNames p ++ fieldNames rest

end

end Pattern

end PolyScript
