import Mathlib.Data.List.Nodup
import PolyScript.Proofs.SortedDocuments
import PolyScript.Settings.Decode

/-!
# Records and Their Members

What is decoded from an object depends on what is found under the names of the fields, and
on nothing else. Each record has a structure that says, field by field, what its members
give; a document describes a record exactly if that holds. Reading a record back uses this
in one direction, and following a field through layers of documents in the other.

## Main definitions

* `TokenPattern.DescribedBy`, `HandlerSettings.DescribedBy`, `Language.DescribedBy`,
  `Settings.DescribedBy`: What the members of an object give for each field.

## Theorems

* `TokenPattern.ofJson?_eq_some_iff`, `HandlerSettings.ofJson?_eq_some_iff`,
  `Language.ofJson?_eq_some_iff`, `Settings.ofJson?_eq_some_iff`: Which records an object
  describes.
* `Decode.list?_array_eq_some_iff`: Which lists an array describes.
-/

namespace PolyScript

open Decode

@[simp] theorem Decode.optional_some {α : Type} {decode : Json → Option α} (default : α)
    (j : Json) : optional default decode (some j) = decode j := rfl

variable {members : List (String × Json)}

/-- What members give for the fields of a token pattern. -/
structure TokenPattern.DescribedBy (members : List (String × Json)) (p : TokenPattern) :
    Prop where
  kind : required (fun j => (case? j).bind Kind.ofName?) (members.lookup "kind") = some p.kind
  value : optional none (nullable Json.string?) (members.lookup "value") = some p.value
  offset : optional 0 size? (members.lookup "offset") = some p.offset

theorem TokenPattern.ofJson?_eq_some_iff {p : TokenPattern} :
    TokenPattern.ofJson? (.object members) = some p ↔ p.DescribedBy members := by
  simp only [TokenPattern.ofJson?, fields?, List.map, Option.bind_eq_bind,
    Option.bind_eq_some_iff, Option.pure_def, Option.some.injEq]
  constructor
  · rintro ⟨kind, hkind, value, hvalue, offset, hoffset, rfl⟩
    exact ⟨hkind, hvalue, hoffset⟩
  · rintro ⟨hkind, hvalue, hoffset⟩
    exact ⟨_, hkind, _, hvalue, _, hoffset, rfl⟩

/-- What members give for the fields of a handler. -/
structure HandlerSettings.DescribedBy (members : List (String × Json)) (h : HandlerSettings) :
    Prop where
  construct : required (fun j => (case? j).bind Construct.ofName?) (members.lookup "construct") =
    some h.construct
  name : required Json.string? (members.lookup "name") = some h.name
  priority : optional 0 int32? (members.lookup "priority") = some h.priority
  order : optional 0 int32? (members.lookup "order") = some h.order
  enabled : optional true Json.bool? (members.lookup "enabled") = some h.enabled
  fallback : optional false Json.bool? (members.lookup "fallback") = some h.fallback
  fallbackPriority : optional none (nullable int32?) (members.lookup "fallbackPriority") =
    some h.fallbackPriority
  patterns : optional [] (list? TokenPattern.ofJson?) (members.lookup "patterns") =
    some h.patterns
  params : optional [] members? (members.lookup "params") = some h.params

/-- A handler is read from an object exactly if the members describe it, each field by its
    own. -/
theorem HandlerSettings.ofJson?_eq_some_iff {h : HandlerSettings} :
    HandlerSettings.ofJson? (.object members) = some h ↔ h.DescribedBy members := by
  simp only [HandlerSettings.ofJson?, fields?, List.map, Option.bind_eq_bind,
    Option.bind_eq_some_iff, Option.pure_def, Option.some.injEq]
  constructor
  · rintro ⟨construct, hconstruct, name, hname, priority, hpriority, order, horder, enabled,
      henabled, fallback, hfallback, fallbackPriority, hfallbackPriority, patterns, hpatterns,
      params, hparams, rfl⟩
    exact ⟨hconstruct, hname, hpriority, horder, henabled, hfallback, hfallbackPriority,
      hpatterns, hparams⟩
  · rintro ⟨hconstruct, hname, hpriority, horder, henabled, hfallback, hfallbackPriority,
      hpatterns, hparams⟩
    exact ⟨_, hconstruct, _, hname, _, hpriority, _, horder, _, henabled, _, hfallback, _,
      hfallbackPriority, _, hpatterns, _, hparams, rfl⟩

/-- What members give for the fields of a language. -/
structure Language.DescribedBy (members : List (String × Json)) (l : Language) : Prop where
  name : required Json.string? (members.lookup "name") = some l.name
  aliases : optional [] (list? Json.string?) (members.lookup "aliases") = some l.aliases
  codeBlocks : optional true Json.bool? (members.lookup "codeBlocks") = some l.codeBlocks

theorem Language.ofJson?_eq_some_iff {l : Language} :
    Language.ofJson? (.object members) = some l ↔ l.DescribedBy members := by
  simp only [Language.ofJson?, fields?, List.map, Option.bind_eq_bind,
    Option.bind_eq_some_iff, Option.pure_def, Option.some.injEq]
  constructor
  · rintro ⟨name, hname, aliases, haliases, codeBlocks, hcodeBlocks, rfl⟩
    exact ⟨hname, haliases, hcodeBlocks⟩
  · rintro ⟨hname, haliases, hcodeBlocks⟩
    exact ⟨_, hname, _, haliases, _, hcodeBlocks, rfl⟩

/-- What members give for the fields of settings. -/
structure Settings.DescribedBy (members : List (String × Json)) (s : Settings) : Prop where
  maxDepth : optional defaults.maxDepth size? (members.lookup "maxDepth") = some s.maxDepth
  guardEnabled : optional defaults.guardEnabled Json.bool?
    (members.lookup "enableRecursionGuard") = some s.guardEnabled
  defaultFallbackPriority : optional defaults.defaultFallbackPriority int32?
    (members.lookup "defaultFallbackPriority") = some s.defaultFallbackPriority
  handlers : optional defaults.handlers (list? HandlerSettings.ofJson?)
    (members.lookup "handlers") = some s.handlers
  languages : optional defaults.languages (list? Language.ofJson?)
    (members.lookup "languages") = some s.languages

/-- Settings are read from an object exactly if the members describe them. -/
theorem Settings.ofJson?_eq_some_iff {s : Settings} :
    Settings.ofJson? (.object members) = some s ↔ s.DescribedBy members := by
  simp only [Settings.ofJson?, fields?, List.map, Option.bind_eq_bind,
    Option.bind_eq_some_iff, Option.pure_def, Option.some.injEq]
  constructor
  · rintro ⟨maxDepth, hmaxDepth, guardEnabled, hguardEnabled, defaultFallbackPriority,
      hdefaultFallbackPriority, handlers, hhandlers, languages, hlanguages, rfl⟩
    exact ⟨hmaxDepth, hguardEnabled, hdefaultFallbackPriority, hhandlers, hlanguages⟩
  · rintro ⟨hmaxDepth, hguardEnabled, hdefaultFallbackPriority, hhandlers, hlanguages⟩
    exact ⟨_, hmaxDepth, _, hguardEnabled, _, hdefaultFallbackPriority, _, hhandlers, _,
      hlanguages, rfl⟩

/-! ### Lists -/

/-- What is related to an item of the second of two lists. -/
theorem forall₂_mem_right {α β : Type} {R : α → β → Prop} {xs : List α} {ys : List β}
    (h : List.Forall₂ R xs ys) {y : β} (hy : y ∈ ys) : ∃ x ∈ xs, R x y := by
  induction h with
  | nil => cases hy
  | cons hfirst _ ih =>
      rcases List.mem_cons.1 hy with rfl | hy
      · exact ⟨_, List.mem_cons_self, hfirst⟩
      · rcases ih hy with ⟨x, hx, hrel⟩
        exact ⟨x, List.mem_cons_of_mem _ hx, hrel⟩

/-- A list is decoded item by item. -/
theorem Decode.list?_array_eq_some_iff {α : Type} {decode : Json → Option α} {items : List Json}
    {xs : List α} : list? decode (.array items) = some xs ↔
      List.Forall₂ (fun j x => decode j = some x) items xs := by
  change items.mapM decode = some xs ↔ _
  induction items generalizing xs with
  | nil =>
      rw [List.mapM_nil, List.forall₂_nil_left_iff]
      exact ⟨fun h => (Option.some.inj h).symm, fun h => congrArg some h.symm⟩
  | cons j rest ih =>
      simp only [List.mapM_cons, Option.bind_eq_bind, Option.bind_eq_some_iff, Option.pure_def,
        Option.some.injEq, List.forall₂_cons_left_iff]
      constructor
      · rintro ⟨x, hx, ys, hys, rfl⟩
        exact ⟨x, ys, hx, ih.1 hys, rfl⟩
      · rintro ⟨x, ys, hx, hys, rfl⟩
        exact ⟨x, hx, ys, ih.2 hys, rfl⟩

/-! ### Fields in order -/

/-- If names are given to items in order then each name finds its own, and those left over find
    nothing. -/
theorem Decode.map_lookup_zip {names : List String} (hnodup : names.Nodup) {items : List Json}
    (hlength : items.length ≤ names.length) :
    (names.map fun name => (names.zip items).lookup name) =
      items.map some ++ List.replicate (names.length - items.length) none := by
  induction names generalizing items with
  | nil =>
      rw [List.eq_nil_of_length_eq_zero (Nat.le_zero.1 hlength)]
      rfl
  | cons name rest ih =>
      cases items with
      | nil => simp [List.map_const', List.replicate_succ]
      | cons j items =>
          rcases List.nodup_cons.1 hnodup with ⟨hname, hrest⟩
          have htail : (rest.map fun key => ((name, j) :: rest.zip items).lookup key) =
              rest.map fun key => (rest.zip items).lookup key :=
            List.map_congr_left fun key hkey => by
              have hne : key ≠ name := fun h => hname (h ▸ hkey)
              rw [Json.lookup_cons_eq_ite, if_neg hne]
          rw [List.zip_cons_cons, List.map_cons, htail, ih hrest (Nat.le_of_succ_le_succ hlength),
            List.lookup_cons_self, List.length_cons, List.length_cons, Nat.add_sub_add_right]
          rfl

/-- A record given by an array is read like an object that has the items under the names of
    the fields. -/
theorem Decode.exists_members {names : List String} (hnodup : names.Nodup) {j : Json}
    (h : fields? names j ≠ none) :
    ∃ members, fields? names j = fields? names (.object members) ∧
      (j.IsSorted → ∀ m ∈ members, m.2.IsSorted) := by
  cases j with
  | object members =>
      refine ⟨members, rfl, fun hsorted => ?_⟩
      cases hsorted with
      | object _ hvalues => exact hvalues
  | array items =>
      have hlength : items.length ≤ names.length := by
        by_contra hlong
        exact h (if_neg hlong)
      refine ⟨names.zip items, ?_, fun hsorted m hm => ?_⟩
      · change (if items.length ≤ names.length then _ else _) = _
        rw [if_pos hlength, ← map_lookup_zip hnodup hlength]
        rfl
      · cases hsorted with
        | array hitems => exact hitems _ (List.of_mem_zip hm).2
  | null | bool | int | float | string => exact absurd rfl h

theorem TokenPattern.exists_describedBy {j : Json} {p : TokenPattern}
    (h : TokenPattern.ofJson? j = some p) : ∃ members, p.DescribedBy members ∧
      (j.IsSorted → ∀ m ∈ members, m.2.IsSorted) := by
  have hfields : fields? ["kind", "value", "offset"] j ≠ none := fun hnone => by
    rw [TokenPattern.ofJson?, hnone] at h
    cases h
  rcases exists_members (by decide) hfields with ⟨members, hmembers, hsorted⟩
  rw [TokenPattern.ofJson?, hmembers] at h
  exact ⟨members, TokenPattern.ofJson?_eq_some_iff.1 h, hsorted⟩

theorem HandlerSettings.exists_describedBy {j : Json} {h : HandlerSettings}
    (hh : HandlerSettings.ofJson? j = some h) : ∃ members, h.DescribedBy members ∧
      (j.IsSorted → ∀ m ∈ members, m.2.IsSorted) := by
  have hfields : fields? ["construct", "name", "priority", "order", "enabled", "fallback",
      "fallbackPriority", "patterns", "params"] j ≠ none := fun hnone => by
    rw [HandlerSettings.ofJson?, hnone] at hh
    cases hh
  rcases exists_members (by decide) hfields with ⟨members, hmembers, hsorted⟩
  rw [HandlerSettings.ofJson?, hmembers] at hh
  exact ⟨members, HandlerSettings.ofJson?_eq_some_iff.1 hh, hsorted⟩

theorem Settings.exists_describedBy {j : Json} {s : Settings} (h : Settings.ofJson? j = some s) :
    ∃ members, s.DescribedBy members ∧ (j.IsSorted → ∀ m ∈ members, m.2.IsSorted) := by
  have hfields : fields? ["maxDepth", "enableRecursionGuard", "defaultFallbackPriority",
      "handlers", "languages"] j ≠ none := fun hnone => by
    rw [Settings.ofJson?, hnone] at h
    cases h
  rcases exists_members (by decide) hfields with ⟨members, hmembers, hsorted⟩
  rw [Settings.ofJson?, hmembers] at h
  exact ⟨members, Settings.ofJson?_eq_some_iff.1 h, hsorted⟩

end PolyScript
