import Mathlib.Data.List.Sort
import PolyScript.Proofs.HandlerOrder

/-!
# Running a Parser in a Proof

The handlers for a window are merge sorted, and that recursion is well-founded but not
structural: the kernel does not evaluate it. Here they are inserted one after the other
instead. Both sorts are stable, so the handlers are asked in the same order, whatever their
names. So a parser can be run on a given text within a proof.

## Main definitions

* `Registry.inOrder`: The handlers to ask, inserted one after the other.
* `Parser.parseInOrder`: Parses a program with these.

## Theorems

* `mergeSort_eq_inserted`: Merge sort and insertion agree.
* `Parser.parseInOrder_eq`: The program is the same.
* `Parser.accepts_of_inOrder`: What is computed with it holds of the program.
-/

namespace PolyScript

/-- Merge sort and insertion agree on all items, also on those that may stand in either
    order. -/
theorem mergeSort_eq_inserted {α : Type} {le : α → α → Bool} (xs : List α)
    (htrans : ∀ a b c, le a b = true → le b c = true → le a c = true)
    (htotal : ∀ a b, (le a b || le b a) = true) :
    xs.mergeSort le = xs.insertionSort fun a b => le a b = true := by
  induction xs with
  | nil => exact List.mergeSort_nil
  | cons a xs ih =>
      rcases List.mergeSort_cons htrans htotal a xs with ⟨before, behind, hcons, hxs, hbefore⟩
      have hsorted := List.pairwise_mergeSort htrans htotal (a :: xs)
      rw [hcons, List.pairwise_append, List.pairwise_cons] at hsorted
      have hbehind : ∀ b ∈ behind, le a b = true := hsorted.2.1.1
      rw [hcons, List.insertionSort_cons, ← ih, hxs]
      -- What stands before the new item is passed, and then it finds its place.
      clear hcons hxs hsorted ih
      induction before with
      | nil =>
          cases behind with
          | nil => rfl
          | cons b rest => exact (if_pos (hbehind b List.mem_cons_self)).symm
      | cons b before ih =>
          have hb : ¬le a b = true := by
            rw [Bool.not_eq_true, ← Bool.not_eq_true']
            exact hbefore b List.mem_cons_self
          refine (congrArg (b :: ·) (ih fun c hc => hbefore c (List.mem_cons_of_mem b hc))).trans ?_
          exact (if_neg hb).symm

namespace Registry

/-- The handlers to ask for a window, fallbacks behind the others. -/
def inOrder (r : Registry) (window : List Token) : List Handler :=
  (match window with
    | [] => []
    | first :: _ =>
      ((select r.handlers (filed first.kind r.byLeadingKind ++ r.unanchored)).filter
        (isCandidate first window)).insertionSort fun a b => a.triedBefore b = true) ++
  (r.handlers.toList.filter fun h => h.settings.enabled && h.settings.fallback).insertionSort
    fun a b => r.fallbackBefore a b = true

/-- The order in which handlers are asked is that of the candidates, with the fallbacks behind
    them. -/
theorem inOrder_eq (r : Registry) (window : List Token) :
    r.inOrder window = r.candidates window ++ r.fallbacks := by
  unfold inOrder fallbacks
  rw [mergeSort_eq_inserted _ r.fallbackBefore_trans r.fallbackBefore_total]
  congr 1
  cases window with
  | nil => rfl
  | cons first rest =>
      exact (mergeSort_eq_inserted _
        (fun a b c => HandlerSettings.triedBefore_trans a.settings b.settings c.settings)
        fun a b => HandlerSettings.triedBefore_total a.settings b.settings).symm

end Registry

/-- A statement, parsed by the first handler that does not decline. -/
def Parse.dispatchInOrder (r : Registry) (g : Grammar) : Parse Statement := do
  let start ← cursor
  let pending ← window r.windowSize
  match pending with
  | [] => unexpected "statement"
  | first :: _ => tryHandlers g first start (r.inOrder pending)

/-- The grammar at a level. -/
def Grammar.levelInOrder (r : Registry) : Nat → Grammar
  | 0 => bottom
  | n + 1 =>
    let g := delay fun _ => levelInOrder r n
    { above r g with statement := Parse.dispatchInOrder r g }

theorem Parse.dispatchInOrder_eq (r : Registry) (g : Grammar) :
    dispatchInOrder r g = dispatch r g := by
  have horder : r.inOrder = fun window => r.candidates window ++ r.fallbacks := funext r.inOrder_eq
  unfold dispatchInOrder
  rw [horder]
  rfl

theorem Grammar.levelInOrder_eq (r : Registry) (n : Nat) : levelInOrder r n = level r n := by
  induction n with
  | zero => rfl
  | succ n ih =>
      rw [levelInOrder, level, ih, Parse.dispatchInOrder_eq]
      rfl

/-- Parses a whole program. -/
def Parser.parseInOrder (parser : Parser) (source : String) : Except ParseError Program :=
  Parse.run (Parse.program (Grammar.levelInOrder parser.registry (4 * source.utf8ByteSize + 8)))
    (parser.env source)

theorem Parser.parseInOrder_eq (parser : Parser) (source : String) :
    parser.parseInOrder source = parser.parse source := by
  unfold parseInOrder parse grammar Grammar.forSource
  rw [Grammar.levelInOrder_eq]

/-- A program that passes a check, found by a computation. -/
theorem Parser.accepts_of_inOrder (parser : Parser) (source : String) (check : Program → Bool)
    (h : (parser.parseInOrder source).toOption.any check = true) :
    ∃ program, parser.parse source = .ok program ∧ check program = true := by
  rw [parseInOrder_eq] at h
  cases hparse : parser.parse source with
  | error e =>
      rw [hparse] at h
      cases h
  | ok program =>
      rw [hparse] at h
      exact ⟨program, rfl, h⟩

end PolyScript
