import Mathlib.Data.List.Nodup
import Mathlib.Data.List.Perm.Basic
import PolyScript.Proofs.AtEnd
import PolyScript.Settings.Validate

/-!
# The Order of Handlers

In which order handlers are asked does not depend on the order in which they were
registered. A registry files handlers under places that count registrations, and it keeps
the places of a list in that order; but before handlers are asked they are sorted, by
priority, then by order, then by name. Among handlers that have different names this is a
strict order, so sorting forgets in which order they came.

Settings give no name to two handlers, if they have been validated. So the entries of
handlers may be listed in any order: the registry has the same candidates for a window, the
same fallbacks and windows of the same size.

## Main definitions

* `Registry.Holds`: The handlers of a registry, and how they are filed.
* `Registry.Agrees`: Two registries answer in the same way.

## Theorems

* `mergeSort_eq_of_perm`: Sorting forgets the order, if it is strict.
* `Registry.holds_ofSettings`: What is in the registry of some settings.
* `Settings.unique_handlerName`: No two handlers of validated settings share a name.
* `Registry.agrees_ofSettings`: The order of the entries does not matter.
-/

namespace PolyScript

/-! ### Which handler is tried first -/

theorem HandlerSettings.triedBefore_total (a b : HandlerSettings) :
    (a.triedBefore b || b.triedBefore a) = true := by
  have hname : a.name < b.name → ¬b.name < a.name := String.lt_asymm
  unfold triedBefore
  grind

theorem HandlerSettings.triedBefore_trans (a b c : HandlerSettings)
    (hab : a.triedBefore b = true) (hbc : b.triedBefore c = true) : a.triedBefore c = true := by
  have hname : ¬b.name < a.name → ¬c.name < b.name → ¬c.name < a.name := fun hab hbc =>
    String.not_lt.2 (String.le_trans (String.not_lt.1 hab) (String.not_lt.1 hbc))
  unfold triedBefore at *
  grind

/-- Only handlers of one name may be tried in either order. -/
theorem HandlerSettings.name_eq_of_triedBefore {a b : HandlerSettings}
    (hab : a.triedBefore b = true) (hba : b.triedBefore a = true) : a.name = b.name := by
  have hname : ¬b.name < a.name → ¬a.name < b.name → a.name = b.name := fun hab hba =>
    String.le_antisymm (String.not_lt.1 hab) (String.not_lt.1 hba)
  unfold triedBefore at *
  grind

/-- A sorted list does not tell the order it was sorted from, if no two of its items may
    stand in either order. -/
theorem mergeSort_eq_of_perm {α : Type} {le : α → α → Bool} {xs ys : List α}
    (hperm : xs.Perm ys) (htrans : ∀ a b c, le a b = true → le b c = true → le a c = true)
    (htotal : ∀ a b, (le a b || le b a) = true)
    (hstrict : ∀ a ∈ xs, ∀ b ∈ xs, le a b = true → le b a = true → a = b) :
    xs.mergeSort le = ys.mergeSort le := by
  refine List.Perm.eq_of_pairwise (fun a b ha hb => ?_) (List.pairwise_mergeSort htrans htotal xs)
    (List.pairwise_mergeSort htrans htotal ys)
    ((List.mergeSort_perm xs le).trans (hperm.trans (List.mergeSort_perm ys le).symm))
  exact hstrict a (List.mem_mergeSort.1 ha) b (hperm.mem_iff.2 (List.mem_mergeSort.1 hb))

namespace Registry

/-! ### How handlers are filed -/

/-- Changing what is filed under one key changes nothing under the others. -/
theorem filed_refile {κ : Type} [DecidableEq κ] (key other : κ) (change : List Nat → List Nat)
    (index : List (κ × List Nat)) :
    filed other (refile key change index) =
      if key = other then change (filed other index) else filed other index := by
  induction index with
  | nil => rfl
  | cons entry rest ih =>
      rcases entry with ⟨k, entries⟩
      rw [refile]
      by_cases hkey : k = key
      · rw [if_pos hkey, filed, filed, hkey]
        split <;> rfl
      · rw [if_neg hkey, filed, filed, ih]
        split
        · rename_i hother
          rw [if_neg (by rw [← hother]; exact Ne.symm hkey)]
        · rfl

/-- A place is filed once under each of some kinds. -/
theorem filed_foldl_refile {kinds : List Kind} (hkinds : kinds.Nodup) (place : Nat) (kind : Kind)
    (index : List (Kind × List Nat)) :
    filed kind (kinds.foldl (fun m k => refile k (· ++ [place]) m) index) =
      if kind ∈ kinds then filed kind index ++ [place] else filed kind index := by
  induction kinds generalizing index with
  | nil => rfl
  | cons k rest ih =>
      rcases List.nodup_cons.1 hkinds with ⟨hk, hrest⟩
      rw [List.foldl_cons, ih hrest, filed_refile]
      by_cases heq : k = kind
      · subst heq
        rw [if_neg hk, if_pos rfl, if_pos List.mem_cons_self]
      · simp only [heq, if_false, List.mem_cons, Ne.symm heq, false_or]

theorem nodup_eraseDupsBy_loop (kinds seen : List Kind) (hseen : seen.Nodup) :
    (List.eraseDupsBy.loop (· == ·) kinds seen).Nodup := by
  induction kinds generalizing seen with
  | nil => exact List.nodup_reverse.2 hseen
  | cons k rest ih =>
      rw [List.eraseDupsBy.loop]
      cases hmem : seen.any (k == ·) with
      | true => exact ih seen hseen
      | false =>
          refine ih (k :: seen) (List.nodup_cons.2 ⟨fun h => ?_, hseen⟩)
          exact Bool.false_ne_true (hmem.symm.trans (List.any_eq_true.2 ⟨k, h, by simp⟩))

theorem nodup_leadingKinds (patterns : List TokenPattern) : (leadingKinds patterns).Nodup :=
  nodup_eraseDupsBy_loop _ [] List.nodup_nil

/-- A handler that joins the others is selected if its place is among the places. -/
theorem select_push {handlers : Array Handler} {places : List Nat} {hs : List Handler}
    (h : Handler) (keeps : Handler → Bool) (hplaces : ∀ i ∈ places, i < handlers.size)
    (hselect : select handlers places = hs.filter keeps) :
    select (handlers.push h) (if keeps h then places ++ [handlers.size] else places) =
      (hs ++ [h]).filter keeps := by
  have hbefore : select (handlers.push h) places = hs.filter keeps := by
    rw [← hselect]
    refine List.filterMap_congr fun i hi => ?_
    rw [Array.getElem?_push, if_neg (Nat.ne_of_lt (hplaces i hi))]
  have hlast : select (handlers.push h) [handlers.size] = [h] := by
    rw [select, List.filterMap_cons, Array.getElem?_push, if_pos rfl]
    rfl
  rw [List.filter_append, List.filter_singleton, ← hbefore]
  cases keeps h with
  | true =>
      rw [← hlast]
      exact List.filterMap_append
  | false => exact (List.append_nil _).symm

theorem place_lt {places : List Nat} {n : Nat} {joins : Bool} (hplaces : ∀ i ∈ places, i < n) :
    ∀ i ∈ if joins then places ++ [n] else places, i < n + 1 := by
  intro i hi
  cases joins with
  | true =>
      rcases List.mem_append.1 hi with hi | hi
      · exact Nat.lt_succ_of_lt (hplaces i hi)
      · rw [List.mem_singleton.1 hi]
        exact Nat.lt_succ_self n
  | false => exact Nat.lt_succ_of_lt (hplaces i hi)

/-- Whether a handler is filed under a kind. -/
def isFiledUnder (kind : Kind) (h : Handler) : Bool :=
  isAnchored h.settings.patterns && (leadingKinds h.settings.patterns).contains kind

/-- Whether a handler is filed as a candidate for every window. -/
def isUnanchored (h : Handler) : Bool := !isAnchored h.settings.patterns

/-- How many tokens the patterns of a handler look at, or the given number if they look at
    fewer. -/
def reach (n : Nat) (h : Handler) : Nat :=
  h.settings.patterns.foldl (fun n p => max n (p.offset + 1)) n

/-- These are the handlers of a registry, in the order in which they were registered. -/
structure Holds (r : Registry) (hs : List Handler) : Prop where
  handlers : r.handlers.toList = hs
  filed : ∀ kind, select r.handlers (filed kind r.byLeadingKind) = hs.filter (isFiledUnder kind)
  unanchored : select r.handlers r.unanchored = hs.filter isUnanchored
  window : r.windowSize = hs.foldl reach 1
  filed_lt : ∀ kind, ∀ i ∈ Registry.filed kind r.byLeadingKind, i < r.handlers.size
  unanchored_lt : ∀ i ∈ r.unanchored, i < r.handlers.size

theorem holds_empty (priority : Int) : (empty priority).Holds [] :=
  ⟨rfl, fun _ => rfl, rfl, rfl, fun _ => List.forall_mem_nil _, List.forall_mem_nil _⟩

theorem filed_register (r : Registry) (h : Handler) (kind : Kind) :
    filed kind (r.register h).byLeadingKind =
      if isFiledUnder kind h then filed kind r.byLeadingKind ++ [r.handlers.size]
      else filed kind r.byLeadingKind := by
  simp only [register, isFiledUnder, Bool.and_eq_true, List.contains_iff_mem]
  by_cases hanchored : isAnchored h.settings.patterns = true
  · simp only [hanchored, if_true, true_and]
    exact filed_foldl_refile (nodup_leadingKinds _) _ _ _
  · simp only [hanchored, false_and, if_false, Bool.false_eq_true]

theorem unanchored_register (r : Registry) (h : Handler) :
    (r.register h).unanchored =
      if isUnanchored h then r.unanchored ++ [r.handlers.size] else r.unanchored := by
  simp only [register, isUnanchored, Bool.not_eq_true', ← Bool.not_eq_true, ite_not]

/-- A handler that is registered comes after the others. -/
theorem Holds.register {r : Registry} {hs : List Handler} (hr : r.Holds hs) (h : Handler) :
    (r.register h).Holds (hs ++ [h]) := by
  have hsize : (r.register h).handlers.size = r.handlers.size + 1 := Array.size_push _
  constructor
  · rw [← hr.handlers]
    exact Array.toList_push
  · intro kind
    rw [filed_register]
    exact select_push h (isFiledUnder kind) (hr.filed_lt kind) (hr.filed kind)
  · rw [unanchored_register]
    exact select_push h isUnanchored hr.unanchored_lt hr.unanchored
  · rw [List.foldl_append, ← hr.window]
    rfl
  · intro kind
    rw [filed_register, hsize]
    exact place_lt (hr.filed_lt kind)
  · rw [unanchored_register, hsize]
    exact place_lt hr.unanchored_lt

/-- What registering one handler preserves, registering several does. -/
theorem registerAll {P : Registry → List Handler → Prop}
    (hregister : ∀ r hs h, P r hs → P (r.register h) (hs ++ [h])) {r : Registry}
    {hs : List Handler} (hr : P r hs) (entries : List HandlerSettings) :
    P (entries.foldl (fun r h => r.register (Handler.builtin h)) r)
      (hs ++ entries.map Handler.builtin) := by
  induction entries generalizing r hs with
  | nil =>
      rw [List.map_nil, List.append_nil]
      exact hr
  | cons entry entries ih =>
      have hnext := ih (hregister r hs (Handler.builtin entry) hr)
      rw [List.append_assoc] at hnext
      exact hnext

theorem Holds.registerAll {r : Registry} {hs : List Handler} (hr : r.Holds hs)
    (entries : List HandlerSettings) :
    (entries.foldl (fun r h => r.register (Handler.builtin h)) r).Holds
      (hs ++ entries.map Handler.builtin) :=
  Registry.registerAll (fun _ _ h hr => hr.register h) hr entries

/-- The registry of some settings has one handler for each entry. -/
theorem holds_ofSettings (s : Settings) :
    (ofSettings s).Holds (s.handlers.map Handler.builtin) := (holds_empty _).registerAll s.handlers

/-- A dispatcher looks at one token at least. -/
theorem windowSize_pos (s : Settings) : 0 < (ofSettings s).windowSize := by
  have hreach : ∀ (n : Nat) (h : Handler), n ≤ reach n h := by
    intro n h
    unfold reach
    induction h.settings.patterns generalizing n with
    | nil => exact Nat.le_refl n
    | cons p ps ih => exact Nat.le_trans (Nat.le_max_left n (p.offset + 1)) (ih _)
  have hfold : ∀ (hs : List Handler) (n : Nat), n ≤ hs.foldl reach n := by
    intro hs
    induction hs with
    | nil => exact fun n => Nat.le_refl n
    | cons h hs ih => exact fun n => Nat.le_trans (hreach n h) (ih _)
  rw [(holds_ofSettings s).window]
  exact hfold _ 1

/-! ### Registries that answer in the same way -/

/-- Two registries have the same handlers asked, in the same order. -/
structure Agrees (r r' : Registry) : Prop where
  window : r.windowSize = r'.windowSize
  candidates : ∀ tokens, r.candidates tokens = r'.candidates tokens
  fallbacks : r.fallbacks = r'.fallbacks

/-- How far a handler looks is the greatest of its own patterns and of what was needed before. -/
theorem reach_eq_max (n : Nat) (h : Handler) : reach n h = max n (reach 0 h) := by
  have hfold : ∀ (patterns : List TokenPattern) (n k : Nat),
      patterns.foldl (fun n p => max n (p.offset + 1)) (max n k) =
        max n (patterns.foldl (fun n p => max n (p.offset + 1)) k) := by
    intro patterns
    induction patterns with
    | nil => exact fun _ _ => rfl
    | cons p rest ih => exact fun n k => by rw [List.foldl_cons, List.foldl_cons, Nat.max_assoc, ih]
  have hzero := hfold h.settings.patterns n 0
  rw [Nat.max_zero] at hzero
  exact hzero

theorem fallbackBefore_total (r : Registry) (a b : Handler) :
    (r.fallbackBefore a b || r.fallbackBefore b a) = true := by
  have htotal := HandlerSettings.triedBefore_total a.settings b.settings
  unfold fallbackBefore Handler.triedBefore
  grind

theorem fallbackBefore_trans (r : Registry) (a b c : Handler) (hab : r.fallbackBefore a b = true)
    (hbc : r.fallbackBefore b c = true) : r.fallbackBefore a c = true := by
  have htrans := HandlerSettings.triedBefore_trans a.settings b.settings c.settings
  unfold fallbackBefore Handler.triedBefore at *
  grind

theorem triedBefore_of_fallbackBefore {r : Registry} {a b : Handler}
    (hab : r.fallbackBefore a b = true) (hba : r.fallbackBefore b a = true) :
    a.triedBefore b = true := by
  unfold fallbackBefore at *
  grind

variable {r r' : Registry} {hs hs' : List Handler}

/-- Handlers that are registered in another order are asked in the same order, if their
    names tell them apart. -/
theorem Holds.agrees (hr : r.Holds hs) (hr' : r'.Holds hs') (hperm : hs.Perm hs')
    (hpriority : r.defaultFallbackPriority = r'.defaultFallbackPriority)
    (hnames : ∀ a ∈ hs, ∀ b ∈ hs, a.settings.name = b.settings.name → a = b) : r.Agrees r' := by
  have hstrict : ∀ a ∈ hs, ∀ b ∈ hs, a.triedBefore b = true → b.triedBefore a = true → a = b :=
    fun a ha b hb hab hba => hnames a ha b hb (HandlerSettings.name_eq_of_triedBefore hab hba)
  constructor
  · rw [hr.window, hr'.window]
    refine hperm.foldl_eq' (fun a _ b _ n => ?_) 1
    rw [reach_eq_max, reach_eq_max n, reach_eq_max (reach n b), reach_eq_max n b]
    omega
  · intro tokens
    cases tokens with
    | nil => rfl
    | cons first rest =>
        unfold candidates select
        simp only [List.filterMap_append]
        change (List.filter _ (select r.handlers _ ++ select r.handlers _)).mergeSort _ =
          (List.filter _ (select r'.handlers _ ++ select r'.handlers _)).mergeSort _
        rw [hr.filed, hr.unanchored, hr'.filed, hr'.unanchored]
        -- sorting undoes the permutation, because no two of the handlers tie
        refine mergeSort_eq_of_perm (((hperm.filter _).append (hperm.filter _)).filter _)
          (fun a b c => HandlerSettings.triedBefore_trans a.settings b.settings c.settings)
          (fun a b => HandlerSettings.triedBefore_total a.settings b.settings)
          fun a ha b hb => ?_
        have hmem : ∀ h, h ∈ List.filter (isCandidate first (first :: rest))
            (hs.filter (isFiledUnder first.kind) ++ hs.filter isUnanchored) → h ∈ hs := by
          intro h hh
          rcases List.mem_append.1 (List.mem_of_mem_filter hh) with hh | hh <;>
            exact List.mem_of_mem_filter hh
        exact hstrict a (hmem a ha) b (hmem b hb)
  · have hbefore : r'.fallbackBefore = r.fallbackBefore := by
      funext a b
      unfold fallbackBefore fallbackPriority
      rw [hpriority]
    unfold fallbacks
    rw [hr.handlers, hr'.handlers, hbefore]
    refine mergeSort_eq_of_perm (hperm.filter _) r.fallbackBefore_trans
      r.fallbackBefore_total fun a ha b hb hab hba => ?_
    exact hstrict a (List.mem_of_mem_filter ha) b (List.mem_of_mem_filter hb)
      (triedBefore_of_fallbackBefore hab hba) (triedBefore_of_fallbackBefore hba hab)

end Registry

/-! ### Validated settings -/

namespace Settings

theorem name_of_validateHandler {path : String} {seen : List String} {h : HandlerSettings}
    (hvalid : validateHandler path seen h = .ok ()) : h.name ∉ seen := by
  intro hmem
  unfold validateHandler at hvalid
  split at hvalid
  · cases hvalid
  · rw [if_pos (List.contains_iff_mem.2 hmem)] at hvalid
    cases hvalid

/-- Names that were seen before are refused, and so is a second handler of one name. -/
theorem names_of_validateHandlers {hs : List HandlerSettings} {i : Nat} {seen : List String}
    (hvalid : validateHandlers i seen hs = .ok ()) :
    (hs.map HandlerSettings.name).Nodup ∧ ∀ h ∈ hs, h.name ∉ seen := by
  induction hs generalizing i seen with
  | nil => exact ⟨List.nodup_nil, fun _ h => by cases h⟩
  | cons h rest ih =>
      rw [validateHandlers] at hvalid
      cases hfirst : validateHandler (itemPath "handlers" i) seen h with
      | error e => rw [hfirst] at hvalid; cases hvalid
      | ok u =>
          rw [hfirst] at hvalid
          rcases ih hvalid with ⟨hnodup, hunseen⟩
          constructor
          · refine List.nodup_cons.2 ⟨fun hmem => ?_, hnodup⟩
            rcases List.mem_map.1 hmem with ⟨other, hother, hname⟩
            exact hunseen other hother (hname ▸ List.mem_cons_self)
          · refine List.forall_mem_cons.2
              ⟨name_of_validateHandler hfirst, fun other hother hmem => ?_⟩
            exact hunseen other hother (List.mem_cons_of_mem _ hmem)

/-- The checks of the parts of settings that have been validated. -/
theorem parts_of_validate {s : Settings} (hvalid : s.validate = .ok ()) :
    validateHandlers 0 [] s.handlers = .ok () ∧ validateLanguages 0 [] s.languages = .ok () := by
  unfold validate at hvalid
  split at hvalid
  · cases hvalid
  · split at hvalid
    · cases hvalid
    · exact ⟨by assumption, hvalid⟩

/-- The name of a handler of validated settings is no name of another. -/
theorem unique_handlerName {s : Settings} (hvalid : s.validate = .ok ()) :
    ∀ a ∈ s.handlers, ∀ b ∈ s.handlers, a.name = b.name → a = b := fun _ ha _ hb =>
  List.inj_on_of_nodup_map (names_of_validateHandlers (parts_of_validate hvalid).1).1 ha hb

end Settings

/-- Registries of settings that list their handlers in different orders agree. -/
theorem Registry.agrees_ofSettings {s s' : Settings} (hvalid : s.validate = .ok ())
    (hhandlers : s'.handlers.Perm s.handlers)
    (hpriority : s'.defaultFallbackPriority = s.defaultFallbackPriority) :
    (ofSettings s).Agrees (ofSettings s') := by
  have hdefault : ∀ (entries : List HandlerSettings) (r : Registry),
      (entries.foldl (fun r h => r.register (Handler.builtin h)) r).defaultFallbackPriority =
        r.defaultFallbackPriority := by
    intro entries
    induction entries with
    | nil => exact fun _ => rfl
    | cons entry entries ih => exact fun r => ih _
  refine (holds_ofSettings s).agrees (holds_ofSettings s') (hhandlers.map _).symm ?_ ?_
  · rw [ofSettings, ofSettings, hdefault, hdefault]
    exact hpriority.symm
  · intro a ha b hb hname
    rcases List.mem_map.1 ha with ⟨x, hx, rfl⟩
    rcases List.mem_map.1 hb with ⟨y, hy, rfl⟩
    exact congrArg Handler.builtin (Settings.unique_handlerName hvalid x hx y hy hname)

end PolyScript
