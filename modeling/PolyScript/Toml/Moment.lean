import PolyScript.Json.Basic
import PolyScript.Text.Radix

/-!
# Dates and Times in TOML

A date, a time, or both with or without an offset. Their document is an object
with a single member that holds the normalised text. The name of that member is
reserved: a table whose first key it is stands for the moment that the text under
the key denotes.

## Main definitions

* `Toml.moment?`: A date, a time, or both.
* `Toml.momentOfText?`: The same as the whole of a text.
-/

namespace PolyScript

namespace Toml

/-- Reads a number of exactly so many digits that lies between two bounds. -/
def fixed? (count least greatest : Nat) (cs : List Char) : Option (Nat × List Char) :=
  match Text.natInRadix? 10 (cs.take count) with
  | some n =>
    if (cs.take count).length = count ∧ least ≤ n ∧ n ≤ greatest then some (n, cs.drop count)
    else none
  | none => none

/-- Takes one given character. -/
def char? (c : Char) : List Char → Option (List Char)
  | d :: cs => if d = c then some cs else none
  | [] => none

/-- The number of days of a month. -/
def daysIn (year month : Nat) : Nat :=
  if month = 2 then
    if (year % 4 = 0 ∧ year % 100 ≠ 0) ∨ year % 400 = 0 then 29 else 28
  else if month = 4 ∨ month = 6 ∨ month = 9 ∨ month = 11 then 30
  else 31

/-- A number with zeros in front of it. -/
def padded (width n : Nat) : String :=
  let digits := Nat.toDigits 10 n
  String.ofList (List.replicate (width - digits.length) '0' ++ digits)

/-- Reads a date. -/
def date? (cs : List Char) : Option (String × List Char) := do
  let (year, cs) ← fixed? 4 0 9999 cs
  let cs ← char? '-' cs
  let (month, cs) ← fixed? 2 1 12 cs
  let cs ← char? '-' cs
  let (day, cs) ← fixed? 2 1 (daysIn year month) cs
  return (padded 4 year ++ "-" ++ padded 2 month ++ "-" ++ padded 2 day, cs)

/-- Reads a fraction of a second. Nine digits count, and zeros at the end do
    not. -/
def secondFraction? : List Char → Option (String × List Char)
  | '.' :: cs =>
    let (digits, rest) := cs.span Char.isDigit
    if digits.isEmpty then none
    else
      let kept := ((digits.take 9).reverse.dropWhile (· = '0')).reverse
      some (if kept.isEmpty then "" else "." ++ String.ofList kept, rest)
  | cs => some ("", cs)

/-- Reads a time of day. -/
def time? (cs : List Char) : Option (String × List Char) := do
  let (hour, cs) ← fixed? 2 0 23 cs
  let cs ← char? ':' cs
  let (minute, cs) ← fixed? 2 0 59 cs
  let cs ← char? ':' cs
  let (second, cs) ← fixed? 2 0 60 cs
  let (fraction, cs) ← secondFraction? cs
  return (padded 2 hour ++ ":" ++ padded 2 minute ++ ":" ++ padded 2 second ++ fraction, cs)

/-- The sign that an offset is shown with. An offset of nothing has a plus
    sign. -/
def offsetSign (sign : Char) (hour minute : Nat) : Char :=
  if hour = 0 ∧ minute = 0 then '+' else sign

/-- Reads an offset, if one begins here. -/
def offset? : List Char → Option (String × List Char)
  | c :: cs =>
    if c = 'Z' ∨ c = 'z' then some ("Z", cs)
    else if c = '+' ∨ c = '-' then do
      let (hour, cs) ← fixed? 2 0 23 cs
      let cs ← char? ':' cs
      let (minute, cs) ← fixed? 2 0 59 cs
      let sign := offsetSign c hour minute
      return (sign.toString ++ padded 2 hour ++ ":" ++ padded 2 minute, cs)
    else some ("", c :: cs)
  | [] => some ("", [])

/-- Whether a character may stand between a date and a time. -/
def isTimeMark (c : Char) : Bool := c = 'T' || c = 't' || c = ' '

/-- Whether a time begins here, as far as its first colon tells. -/
def timeAhead (cs : List Char) : Bool :=
  match fixed? 2 0 23 cs with
  | some (_, ':' :: _) => true
  | _ => false

/-- The name of the member that holds a date or time. -/
def momentKey : String := "$__toml_private_datetime"

/-- The document of a date or time. -/
def momentJson (text : String) : Json := .object [(momentKey, .string text)]

/-- Whether a date or a time begins here, as far as its first mark tells. -/
def momentAhead (cs : List Char) : Bool :=
  timeAhead cs ||
    match fixed? 4 0 9999 cs with
    | some (_, '-' :: _) => true
    | _ => false

/-- Reads a date, a time, or both. -/
def moment? (cs : List Char) : Option (Json × List Char) :=
  if timeAhead cs then (time? cs).map fun r => (momentJson r.1, r.2)
  else
    match date? cs with
    | none => none
    | some (date, rest) =>
      match rest with
      | c :: tail =>
        if isTimeMark c && timeAhead tail then do
          let (time, rest) ← time? tail
          let (offset, rest) ← offset? rest
          return (momentJson (date ++ "T" ++ time ++ offset), rest)
        else some (momentJson date, rest)
      | [] => some (momentJson date, [])

/-- The document of a text that is a date, a time, or both, and nothing more. -/
def momentOfText? (text : String) : Option Json :=
  match moment? text.toList with
  | some (json, []) => some json
  | _ => none

end Toml

end PolyScript
