import PolyScript.Proofs.SettingsFit

/-!
# Settings Read Back

Settings are decoded from the document that they are encoded as. The document lists the
members of its objects in a fixed order, and loading sorts them before anything is laid
over; since a record is decoded by looking its fields up, neither order matters. The
arguments below are therefore made once, for any rearrangement of members.

Numbers have to fit the fields that hold them, and parameters have to be sorted, as they
are in all settings that were loaded. A field that is not written comes back as its
default: it is left out only if it has that value.

## Main definitions

* `Json.Rearranges`: A change to the order of members at most.

## Theorems

* `Settings.ofJson?_rearranged`: Settings are read back from their document, however its
  members are ordered.
* `Settings.load_nil`: Without any layer the defaults are loaded.
* `settings_read_back`: Settings are read back from their document, sorted or not.
-/

namespace PolyScript

/-! ### Rearranged documents -/

/-- A change to documents that affects the order of members at most, and leaves sorted
    documents as they are. -/
structure Json.Rearranges (arrange : Json → Json) : Prop where
  sorted : ∀ {j : Json}, j.IsSorted → arrange j = j
  array : ∀ items, arrange (.array items) = .array (items.map arrange)
  object : ∀ {members : List (String × Json)}, (members.map Prod.fst).Nodup →
    ∃ members', arrange (.object members) = .object members' ∧
      ∀ name, members'.lookup name = (members.lookup name).map arrange

namespace Json

theorem rearranges_id : Rearranges id where
  sorted _ := rfl
  array items := by rw [List.map_id, id]
  object _ := ⟨_, rfl, fun _ => (congrFun Option.map_id _).symm⟩

theorem rearranges_sorted : Rearranges sorted where
  sorted := IsSorted.sorted_eq
  array items := by rw [sorted, sortedItems_eq_map]
  object {members} hnodup := by
    refine ⟨_, rfl, fun name => ?_⟩
    have hnames : (sortedMembers members).map Prod.fst = members.map Prod.fst := by
      rw [sortedMembers_eq_map, List.map_map]
      rfl
    rw [lookup_sortMembers (hnames ▸ hnodup), lookup_sortedMembers]

end Json

/-! ### Values -/

namespace Decode

theorem int32?_int {n : Int} (h : FitsInt32 n) : int32? (.int n) = some n := if_pos h

theorem size?_int {n : Nat} (h : n < 2 ^ 64) : size? (.int n) = some n := by
  have hfits : 0 ≤ (n : Int) ∧ (n : Int) < 2 ^ 64 := by omega
  rw [size?, if_pos hfits, Int.toNat_natCast]

/-- A list is decoded if all its items are. -/
theorem list?_map {α : Type} {arrange : Json → Json} (harrange : Json.Rearranges arrange)
    {decode : Json → Option α} {encode : α → Json} {xs : List α}
    (h : ∀ x ∈ xs, decode (arrange (encode x)) = some x) :
    list? decode (arrange (.array (xs.map encode))) = some xs := by
  rw [harrange.array, List.map_map, list?_array_eq_some_iff, List.forall₂_map_left_iff]
  exact List.forall₂_same.2 h

end Decode

theorem Kind.ofName?_name (k : Kind) : Kind.ofName? k.name = some k :=
  find?_eq_some_of_mem (by decide +kernel) k.mem_all

theorem Construct.ofName?_name (c : Construct) : Construct.ofName? c.name = some c :=
  find?_eq_some_of_mem (by decide +kernel) c.mem_all

/-! ### Records -/

/-- What is found in the document of a token pattern. -/
theorem TokenPattern.toJson_eq (p : TokenPattern) : ∃ members, p.toJson = .object members ∧
    (members.map Prod.fst).Nodup ∧ members.lookup "kind" = some (.string p.kind.name) ∧
    members.lookup "value" = p.value.map .string ∧
    members.lookup "offset" = some (.int p.offset) := by
  rcases p with ⟨kind, value, offset⟩
  refine ⟨_, rfl, ?_, rfl, ?_, ?_⟩
  · cases value <;> simp
  · cases value <;> rfl
  · cases value <;> rfl

/-- What is found in the document of a handler's settings. -/
theorem HandlerSettings.toJson_eq (h : HandlerSettings) : ∃ members,
    h.toJson = .object members ∧ (members.map Prod.fst).Nodup ∧
    members.lookup "construct" = some (.string h.construct.name) ∧
    members.lookup "name" = some (.string h.name) ∧
    members.lookup "priority" = some (.int h.priority) ∧
    members.lookup "order" = some (.int h.order) ∧
    members.lookup "enabled" = some (.bool h.enabled) ∧
    members.lookup "fallback" = some (.bool h.fallback) ∧
    members.lookup "fallbackPriority" = h.fallbackPriority.map .int ∧
    members.lookup "patterns" = some (.array (h.patterns.map TokenPattern.toJson)) ∧
    members.lookup "params" = if h.params.isEmpty then none else some (.object h.params) := by
  rcases h with ⟨construct, name, priority, order, enabled, fallback, fallbackPriority, patterns,
    params⟩
  refine ⟨_, rfl, ?_, rfl, rfl, rfl, rfl, rfl, rfl, ?_, ?_, ?_⟩
  · cases fallbackPriority <;> cases params <;> simp
  · cases fallbackPriority <;> cases params <;> rfl
  · cases fallbackPriority <;> rfl
  · cases fallbackPriority <;> cases params <;> rfl

/-- What is found in the document of a language. -/
theorem Language.toJson_eq (l : Language) : ∃ members, l.toJson = .object members ∧
    (members.map Prod.fst).Nodup ∧ members.lookup "name" = some (.string l.name) ∧
    members.lookup "aliases" = some (.array (l.aliases.map .string)) ∧
    members.lookup "codeBlocks" = some (.bool l.codeBlocks) :=
  ⟨_, rfl, by simp, rfl, rfl, rfl⟩

/-- What is found in the document of settings. -/
theorem Settings.toJson_eq (s : Settings) : ∃ members, s.toJson = .object members ∧
    (members.map Prod.fst).Nodup ∧ members.lookup "maxDepth" = some (.int s.maxDepth) ∧
    members.lookup "enableRecursionGuard" = some (.bool s.guardEnabled) ∧
    members.lookup "defaultFallbackPriority" = some (.int s.defaultFallbackPriority) ∧
    members.lookup "handlers" = some (.array (s.handlers.map HandlerSettings.toJson)) ∧
    members.lookup "languages" = some (.array (s.languages.map Language.toJson)) :=
  ⟨_, rfl, by simp, rfl, rfl, rfl, rfl, rfl⟩

section Rearranged

variable {arrange : Json → Json}

/-- A token pattern is read back from what it is written as, however the members are arranged. -/
theorem TokenPattern.ofJson?_rearranged (harrange : Json.Rearranges arrange) {p : TokenPattern}
    (hoffset : p.offset < 2 ^ 64) : TokenPattern.ofJson? (arrange p.toJson) = some p := by
  rcases p.toJson_eq with ⟨members, hp, hnodup, hkind, hvalue, hsize⟩
  rcases harrange.object hnodup with ⟨members', hmembers', hlookup⟩
  rw [hp, hmembers', TokenPattern.ofJson?_eq_some_iff]
  constructor
  · rw [hlookup, hkind, Option.map_some, harrange.sorted (.string _)]
    exact p.kind.ofName?_name
  · rw [hlookup, hvalue]
    cases p.value with
    | none => rfl
    | some v =>
        rw [Option.map_some, Option.map_some, harrange.sorted (.string v)]
        rfl
  · rw [hlookup, hsize, Option.map_some, harrange.sorted (.int _), Decode.optional_some,
      Decode.size?_int hoffset]

/-- A handler is read back from what it is written as, however the members are arranged. A
    fallback priority or parameters that are not there are not written, and come back as their
    default. -/
theorem HandlerSettings.ofJson?_rearranged (harrange : Json.Rearranges arrange)
    {h : HandlerSettings} (hfits : h.Fits) :
    HandlerSettings.ofJson? (arrange h.toJson) = some h := by
  -- The members are known by name, and rearranging them does not change what a name stands for.
  rcases h.toJson_eq with ⟨members, hh, hnodup, hconstruct, hname, hpriority, horder, henabled,
    hfallback, hfallbackPriority, hpatterns, hparams⟩
  rcases harrange.object hnodup with ⟨members', hmembers', hlookup⟩
  rw [hh, hmembers', HandlerSettings.ofJson?_eq_some_iff]
  constructor
  · rw [hlookup, hconstruct, Option.map_some, harrange.sorted (.string _)]
    exact h.construct.ofName?_name
  · rw [hlookup, hname, Option.map_some, harrange.sorted (.string _)]
    rfl
  · rw [hlookup, hpriority, Option.map_some, harrange.sorted (.int _), Decode.optional_some,
      Decode.int32?_int hfits.priority]
  · rw [hlookup, horder, Option.map_some, harrange.sorted (.int _), Decode.optional_some,
      Decode.int32?_int hfits.order]
  · rw [hlookup, henabled, Option.map_some, harrange.sorted (.bool _)]
    rfl
  · rw [hlookup, hfallback, Option.map_some, harrange.sorted (.bool _)]
    rfl
  -- No fallback priority is written as null, and no parameters are not written at all.
  · rw [hlookup, hfallbackPriority]
    cases hn : h.fallbackPriority with
    | none => rfl
    | some n =>
        rw [Option.map_some, Option.map_some, harrange.sorted (.int n)]
        change (Decode.int32? (.int n)).map some = _
        rw [Decode.int32?_int (hfits.fallbackPriority n hn), Option.map_some]
  · rw [hlookup, hpatterns, Option.map_some, Decode.optional_some]
    exact Decode.list?_map harrange fun p hp =>
      TokenPattern.ofJson?_rearranged harrange (hfits.patterns p hp)
  · rw [hlookup, hparams]
    cases hempty : h.params.isEmpty with
    | true => exact congrArg some (List.isEmpty_iff.1 hempty).symm
    | false =>
        rw [if_neg Bool.false_ne_true, Option.map_some, harrange.sorted hfits.params]
        rfl

/-- A language is read back from what it is written as, however the members are arranged. -/
theorem Language.ofJson?_rearranged (harrange : Json.Rearranges arrange) (l : Language) :
    Language.ofJson? (arrange l.toJson) = some l := by
  rcases l.toJson_eq with ⟨members, hl, hnodup, hname, haliases, hcodeBlocks⟩
  rcases harrange.object hnodup with ⟨members', hmembers', hlookup⟩
  rw [hl, hmembers', Language.ofJson?_eq_some_iff]
  constructor
  · rw [hlookup, hname, Option.map_some, harrange.sorted (.string _)]
    rfl
  · rw [hlookup, haliases, Option.map_some, Decode.optional_some]
    exact Decode.list?_map harrange fun name _ =>
      congrArg Json.string? (harrange.sorted (.string name))
  · rw [hlookup, hcodeBlocks, Option.map_some, harrange.sorted (.bool _)]
    rfl

/-- Settings are read back from their document, however its members are ordered. -/
theorem Settings.ofJson?_rearranged (harrange : Json.Rearranges arrange) {s : Settings}
    (hfits : s.Fits) : Settings.ofJson? (arrange s.toJson) = some s := by
  rcases s.toJson_eq with ⟨members, hs, hnodup, hmaxDepth, hguardEnabled,
    hdefaultFallbackPriority, hhandlers, hlanguages⟩
  rcases harrange.object hnodup with ⟨members', hmembers', hlookup⟩
  rw [hs, hmembers', Settings.ofJson?_eq_some_iff]
  constructor
  · rw [hlookup, hmaxDepth, Option.map_some, harrange.sorted (.int _), Decode.optional_some,
      Decode.size?_int hfits.maxDepth]
  · rw [hlookup, hguardEnabled, Option.map_some, harrange.sorted (.bool _)]
    rfl
  · rw [hlookup, hdefaultFallbackPriority, Option.map_some, harrange.sorted (.int _),
      Decode.optional_some, Decode.int32?_int hfits.defaultFallbackPriority]
  · rw [hlookup, hhandlers, Option.map_some, Decode.optional_some]
    exact Decode.list?_map harrange fun h hh =>
      HandlerSettings.ofJson?_rearranged harrange (hfits.handlers h hh)
  · rw [hlookup, hlanguages, Option.map_some, Decode.optional_some]
    exact Decode.list?_map harrange fun l _ => Language.ofJson?_rearranged harrange l

end Rearranged

/-! ### Loading without layers -/

theorem Settings.load_nil : load [] = .ok defaults :=
  load_eq_ok_iff.2 ⟨_, rfl, ofJson?_rearranged Json.rearranges_sorted fits_defaults,
    by decide +kernel⟩

/-! ### Reading back -/

/-- Settings are read back from their document, as it is written and as loading sorts it.
    All that is ever loaded can be read back, and without any layer the defaults are
    loaded. -/
theorem settings_read_back (s : Settings) (hfits : s.Fits) :
    Settings.ofJson? s.toJson = some s ∧ Settings.ofJson? s.toJson.sorted = some s ∧
      (∀ layers t, Settings.load layers = .ok t → Settings.ofJson? t.toJson = some t) ∧
      Settings.load [] = .ok Settings.defaults :=
  ⟨Settings.ofJson?_rearranged Json.rearranges_id hfits,
    Settings.ofJson?_rearranged Json.rearranges_sorted hfits,
    fun _ _ hload => Settings.ofJson?_rearranged Json.rearranges_id (Settings.fits_of_load hload),
    Settings.load_nil⟩

/-- A handler with parameters, a pattern that asks for a text, and a fallback priority
    without being a fallback. -/
theorem settings_read_back_params :
    let h : HandlerSettings :=
      { construct := .whileLoop, name := "if", priority := -2147483648, order := 0
        enabled := false, fallback := false, fallbackPriority := some (-1)
        patterns := [⟨.identifier, some "unless", 7⟩, ⟨.kwIf, none, 0⟩]
        params := [("deep", .object [("a", .array [.null])]), ("flag", .bool true)] }
    let s : Settings := { Settings.defaults with
      maxDepth := 0, handlers := [h], languages := [⟨"lua", ["l"], false⟩] }
    s.Fits ∧ Settings.ofJson? s.toJson = some s ∧ Settings.ofJson? s.toJson.sorted = some s := by
  intro h s
  have hdeep : (Json.object [("a", .array [.null])]).IsSorted :=
    .object (by decide) (List.forall_mem_singleton.2 (.array (List.forall_mem_singleton.2 .null)))
  have hparams : (Json.object h.params).IsSorted :=
    .object (by decide) (List.forall_mem_cons.2 ⟨hdeep, List.forall_mem_singleton.2 (.bool true)⟩)
  have hfits : s.Fits := ⟨by decide, by decide,
    List.forall_mem_singleton.2 ⟨by decide, by decide, by decide, by decide, hparams⟩⟩
  rcases settings_read_back s hfits with ⟨hread, hsorted, -⟩
  exact ⟨hfits, hread, hsorted⟩

end PolyScript
