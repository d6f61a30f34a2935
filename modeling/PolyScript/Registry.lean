import PolyScript.Handler.Basic

/-!
# The Handler Registry

Holds handlers and finds the ones to ask for a window of pending tokens. Handlers
all of whose patterns concern the leading token are filed under the kinds that
these patterns name, so that one look-up finds the few that can matter; every
other handler is a candidate for every window.

The order among candidates is by priority, then by order, then by name, and
handlers that agree in all three are asked in the order in which they were
found. Fallbacks are kept apart.

## Main definitions

* `Registry`: Handlers and their index.
* `Registry.register`: Adds a handler.
* `Registry.candidates`: The handlers to ask for a window.
* `Registry.fallbacks`: The handlers to ask when all candidates have declined.
-/

namespace PolyScript

/-- Handlers with an index. Handlers are referred to by their place in the order
    of registration. -/
structure Registry where
  handlers : Array Handler
  /-- For each kind, the handlers filed under it. -/
  byLeadingKind : List (Kind × List Nat)
  /-- The handlers that are candidates for every window. -/
  unanchored : List Nat
  /-- For each construct, its handlers in the order in which they are tried. -/
  byConstruct : List (Construct × List Nat)
  /-- The priority of fallbacks that set none of their own. -/
  defaultFallbackPriority : Int
  /-- How many pending tokens the patterns look at. -/
  windowSize : Nat

namespace Registry

/-- A registry without handlers. -/
def empty (defaultFallbackPriority : Int) : Registry :=
  ⟨#[], [], [], [], defaultFallbackPriority, 1⟩

/-- Replaces the list filed under a key. -/
def refile {κ : Type} [DecidableEq κ] (key : κ) (change : List Nat → List Nat) :
    List (κ × List Nat) → List (κ × List Nat)
  | [] => [(key, change [])]
  | (k, entries) :: rest =>
    if k = key then (k, change entries) :: rest else (k, entries) :: refile key change rest

/-- The list filed under a key. -/
def filed {κ : Type} [DecidableEq κ] (key : κ) : List (κ × List Nat) → List Nat
  | [] => []
  | (k, entries) :: rest => if k = key then entries else filed key rest

/-- The kinds that patterns for the leading token name, each once. -/
def leadingKinds (patterns : List TokenPattern) : List Kind :=
  ((patterns.filter fun p => p.offset = 0).map TokenPattern.kind).eraseDups

/-- Whether a handler can be filed under the kinds of its leading token. A pattern
    for a later token can match on its own, so it forbids that. -/
def isAnchored (patterns : List TokenPattern) : Bool :=
  !patterns.isEmpty && patterns.all fun p => p.offset = 0

/-- The handlers at the given places. -/
def select (handlers : Array Handler) (indices : List Nat) : List Handler :=
  indices.filterMap fun i => handlers[i]?

/-- Whether the handler at one place is tried no later than that at another. -/
def indexBefore (handlers : Array Handler) (i j : Nat) : Bool :=
  match handlers[i]?, handlers[j]? with
  | some a, some b => a.triedBefore b
  | _, _ => true

/-- Adds a handler. -/
def register (r : Registry) (h : Handler) : Registry :=
  let index := r.handlers.size
  let handlers := r.handlers.push h
  let patterns := h.settings.patterns
  let anchored := isAnchored patterns
  { r with
    handlers
    byLeadingKind :=
      if anchored then
        (leadingKinds patterns).foldl (fun m k => refile k (· ++ [index]) m) r.byLeadingKind
      else r.byLeadingKind
    unanchored := if anchored then r.unanchored else r.unanchored ++ [index]
    byConstruct :=
      refile h.settings.construct
        (fun entries => (entries ++ [index]).mergeSort (indexBefore handlers)) r.byConstruct
    windowSize := patterns.foldl (fun n p => max n (p.offset + 1)) r.windowSize }

/-- The number of handlers. -/
def size (r : Registry) : Nat := r.handlers.size

/-- All handlers in the order in which they are tried, fallbacks included. -/
def all (r : Registry) : List Handler := r.handlers.toList.mergeSort Handler.triedBefore

/-- Whether a handler is to be asked for a window that begins with a token. -/
def isCandidate (first : Token) (window : List Token) (h : Handler) : Bool :=
  h.settings.enabled && !h.settings.fallback && h.canHandle first &&
    h.settings.matchesWindow window

/-- The enabled handlers to ask for a window, in order, without fallbacks. -/
def candidates (r : Registry) (window : List Token) : List Handler :=
  match window with
  | [] => []
  | first :: _ =>
    let places := filed first.kind r.byLeadingKind ++ r.unanchored
    ((select r.handlers places).filter (isCandidate first window)).mergeSort Handler.triedBefore

/-- The handler that is asked first for a window. -/
def resolve? (r : Registry) (window : List Token) : Option Handler := (r.candidates window).head?

/-- The enabled handlers of a construct, in order, without fallbacks. -/
def forConstruct (r : Registry) (c : Construct) : List Handler :=
  (select r.handlers (filed c r.byConstruct)).filter fun h =>
    h.settings.enabled && !h.settings.fallback

/-- The priority of a handler among fallbacks. -/
def fallbackPriority (r : Registry) (h : Handler) : Int :=
  h.settings.fallbackPriority.getD r.defaultFallbackPriority

/-- Whether the first fallback is tried no later than the second: by fallback
    priority, then as other handlers are. -/
def fallbackBefore (r : Registry) (a b : Handler) : Bool :=
  if r.fallbackPriority a ≠ r.fallbackPriority b then r.fallbackPriority b < r.fallbackPriority a
  else a.triedBefore b

/-- The enabled fallbacks, in order. -/
def fallbacks (r : Registry) : List Handler :=
  (r.handlers.toList.filter fun h => h.settings.enabled && h.settings.fallback).mergeSort
    r.fallbackBefore

/-- The enabled fallbacks of a construct, in order. -/
def fallbacksFor (r : Registry) (c : Construct) : List Handler :=
  r.fallbacks.filter fun h => h.settings.construct = c

end Registry

end PolyScript
