import PolyScript.Proofs.HandlerOrder
import PolyScript.Proofs.LanguageOrder
import PolyScript.Proofs.NamedRecords
import PolyScript.Proofs.SettingsReadBack

/-!
# Layers of Settings

Layers change only what they mention, and the last to mention something decides. This is
said of layers that give handlers and languages by name: each handler and each language
then goes through the layers by itself, field by field, and so do the settings that are
neither.

There is one exception. A construct may be written as an object with a single member, and
an object is merged with the object that is there already. One without members therefore
changes nothing, although a document that has only that describes no construct at all.

## Main definitions

* `Layer.documents`: The documents of layers.
* `Settings.entries`: The entries for handlers or languages, in the order of the layers.
* `Settings.LastWins`: Settings that follow the last mention of everything.

## Theorems

* `Settings.layers_last_wins`: The last layer that sets a field decides.
* `Settings.empty_construct_does_not_win`: The exception.
-/

namespace PolyScript

/-! ### Documents -/

/-- The documents of layers, from the `k`-th on. -/
def Layer.documents : Nat → List Layer → Except SettingsError (List Json)
  | _, [] => .ok []
  | k, layer :: rest =>
    match layer.read k with
    | .error e => .error e
    | .ok d =>
      match documents (k + 1) rest with
      | .error e => .error e
      | .ok docs => .ok (d :: docs)

/-- The documents of layers are sorted objects, and it is they that are laid over. -/
theorem Layer.of_documents {k : Nat} {layers : List Layer} {docs : List Json}
    (h : documents k layers = .ok docs) :
    (∀ d ∈ docs, d.IsSorted ∧ ∃ members, d = .object members) ∧
      ∀ base merged, Settings.applyLayers k layers base = .ok merged →
        Json.overAll? (docs.map some) (some base) = some merged := by
  induction layers generalizing k docs with
  | nil =>
      cases h
      exact ⟨List.forall_mem_nil _, fun base merged hmerged => by cases hmerged; rfl⟩
  | cons layer rest ih =>
      rw [documents] at h
      split at h
      · cases h
      · rename_i d hd
        split at h
        · cases h
        · rename_i docs' hdocs
          cases h
          rcases ih hdocs with ⟨hrest, hlaid⟩
          refine ⟨List.forall_mem_cons.2 ⟨of_read hd, hrest⟩,
            fun base merged hmerged => ?_⟩
          rw [Settings.applyLayers, hd] at hmerged
          exact hlaid _ _ hmerged

/-! ### Entries -/

/-- Whether a document is an array of items with names, and has at least one. -/
def Json.NamesItems (j : Json) : Prop :=
  ∃ items, j = .array items ∧ items ≠ [] ∧ ∀ e ∈ items, (itemName? e).isSome = true

theorem Json.namesItems_array_iff {items : List Json} : NamesItems (.array items) ↔
    items ≠ [] ∧ ∀ e ∈ items, (itemName? e).isSome = true :=
  ⟨fun ⟨_, heq, h⟩ => Json.array.inj heq ▸ h, fun h => ⟨items, rfl, h⟩⟩

instance : DecidablePred Json.NamesItems
  | .array _ => decidable_of_iff' _ Json.namesItems_array_iff
  | .null | .bool _ | .int _ | .float _ | .string _ | .object _ =>
    isFalse fun ⟨_, heq, _⟩ => nomatch heq

namespace Settings

/-- The items that documents have in the array of a name, in the order of the documents. -/
def entries (member : String) (docs : List Json) : List Json :=
  docs.flatMap fun d =>
    match d.get? member with
    | some (.array items) => items
    | _ => []

section Entries

variable {member : String} {docs : List Json}
  (hnames : ∀ d ∈ docs, ∀ j ∈ d.get? member, j.NamesItems)

include hnames

theorem itemName_of_mem_entries : ∀ e ∈ entries member docs, (Json.itemName? e).isSome = true := by
  intro e he
  rcases List.mem_flatMap.1 he with ⟨d, hd, hmem⟩
  split at hmem
  · rename_i items hitems
    rcases hnames d hd _ hitems with ⟨_, heq, -, hnamed⟩
    cases heq
    exact hnamed e hmem
  · cases hmem

/-- Arrays of named items are laid over each other entry by entry. -/
theorem overAll?_entries (base : List Json) :
    Json.overAll? (docs.map (Json.get? member)) (some (.array base)) =
      some (.array (Json.itemsOver (entries member docs) base)) := by
  induction docs generalizing base with
  | nil => rfl
  | cons d rest ih =>
      rcases List.forall_mem_cons.1 hnames with ⟨hfirst, hrest⟩
      rw [List.map_cons, Json.overAll?_cons, entries, List.flatMap_cons]
      cases hget : d.get? member with
      | none => exact ih hrest base
      | some j =>
          rcases hfirst j hget with ⟨items, rfl, hne, hnamed⟩
          rw [Json.over?_some_some, Json.laidOver, if_pos (Json.mergesItems_iff.2 ⟨hne, hnamed⟩),
            ih hrest, Json.itemsOver_append]
          rfl

end Entries

/-- The entries that documents have under a member are sorted if the documents are. -/
theorem isSorted_of_mem_entries {member : String} {docs : List Json}
    (hsorted : ∀ d ∈ docs, d.IsSorted) : ∀ e ∈ entries member docs, e.IsSorted := by
  intro e he
  rcases List.mem_flatMap.1 he with ⟨d, hd, hmem⟩
  split at hmem
  · rename_i items hitems
    have harray : (Json.array items).IsSorted := (hsorted d hd).of_get? hitems
    cases harray with
    | array hall => exact hall e hmem
  · cases hmem

end Settings

/-! ### Following the last mention -/

/-- A handler that has, field by field, what the last of its own entries to set the field
    says, or else what it had below, or else the default of the field. What counts as setting
    the construct is left open. -/
structure HandlerSettings.LastWins (setsConstruct : Json → Bool) (own : List Json)
    (below : Option HandlerSettings) (h : HandlerSettings) : Prop where
  construct : Json.lastSays setsConstruct "construct"
    (fun j => (Decode.case? j).bind Construct.ofName?) (below.map HandlerSettings.construct) own =
      some h.construct
  priority : Json.lastSays (fun _ => true) "priority" Decode.int32?
    ((below.map HandlerSettings.priority).or (some 0)) own = some h.priority
  order : Json.lastSays (fun _ => true) "order" Decode.int32?
    ((below.map HandlerSettings.order).or (some 0)) own = some h.order
  enabled : Json.lastSays (fun _ => true) "enabled" Json.bool?
    ((below.map HandlerSettings.enabled).or (some true)) own = some h.enabled
  fallback : Json.lastSays (fun _ => true) "fallback" Json.bool?
    ((below.map HandlerSettings.fallback).or (some false)) own = some h.fallback
  fallbackPriority : Json.lastSays (fun _ => true) "fallbackPriority"
    (Decode.nullable Decode.int32?)
    ((below.map HandlerSettings.fallbackPriority).or (some none)) own = some h.fallbackPriority

/-- The same for a language. -/
structure Language.LastWins (own : List Json) (below : Option Language) (l : Language) :
    Prop where
  aliases : Json.lastSays (fun _ => true) "aliases" (Decode.list? Json.string?)
    ((below.map Language.aliases).or (some [])) own = some l.aliases
  codeBlocks : Json.lastSays (fun _ => true) "codeBlocks" Json.bool?
    ((below.map Language.codeBlocks).or (some true)) own = some l.codeBlocks

/-- Settings that follow the last mention of everything. Handlers and languages come in the
    order of the defaults, and then as entries mention them first; those that no entry
    mentions are as they were. -/
structure Settings.LastWins (setsConstruct : Json → Bool) (docs : List Json) (s : Settings) :
    Prop where
  handlerNames : s.handlers.map HandlerSettings.name =
    Json.layeredNames (HandlerSettings.defaults.map HandlerSettings.name) (entries "handlers" docs)
  handlersKept : ∀ h ∈ s.handlers,
    (∀ e ∈ entries "handlers" docs, Json.itemName? e ≠ some h.name) → h ∈ HandlerSettings.defaults
  handlers : ∀ h ∈ s.handlers, h.LastWins setsConstruct
    (Json.entriesOf h.name (entries "handlers" docs))
    (HandlerSettings.defaults.find? fun k => k.name = h.name)
  languageNames : s.languages.map Language.name =
    Json.layeredNames (Language.defaults.map Language.name) (entries "languages" docs)
  languagesKept : ∀ l ∈ s.languages,
    (∀ e ∈ entries "languages" docs, Json.itemName? e ≠ some l.name) → l ∈ Language.defaults
  languages : ∀ l ∈ s.languages, l.LastWins (Json.entriesOf l.name (entries "languages" docs))
    (Language.defaults.find? fun k => k.name = l.name)
  maxDepth : Json.lastSays (fun _ => true) "maxDepth" Decode.size? (some defaults.maxDepth) docs =
    some s.maxDepth
  guardEnabled : Json.lastSays (fun _ => true) "enableRecursionGuard" Json.bool?
    (some defaults.guardEnabled) docs = some s.guardEnabled
  defaultFallbackPriority : Json.lastSays (fun _ => true) "defaultFallbackPriority" Decode.int32?
    (some defaults.defaultFallbackPriority) docs = some s.defaultFallbackPriority

/-! ### Records -/

theorem Decode.eq_string_of_required {field : Option Json} {text : String}
    (h : required Json.string? field = some text) : field = some (.string text) := by
  cases field with
  | none => cases h
  | some j =>
      cases j with
      | string s =>
          cases h
          rfl
      | null | bool | int | float | array | object => cases h

theorem HandlerSettings.records : Json.Records HandlerSettings.ofJson? HandlerSettings.name
    (fun h => h.toJson.sorted) HandlerSettings.defaults where
  named hread := Decode.eq_string_of_required (HandlerSettings.ofJson?_eq_some_iff.1 hread).name
  encoded h hmem :=
    ofJson?_rearranged Json.rearranges_sorted (Settings.fits_defaults.handlers h hmem)
  object _ _ := ⟨_, rfl⟩

theorem Language.records : Json.Records Language.ofJson? Language.name
    (fun l => l.toJson.sorted) Language.defaults where
  named hread := Decode.eq_string_of_required (Language.ofJson?_eq_some_iff.1 hread).name
  encoded l _ := ofJson?_rearranged Json.rearranges_sorted l
  object _ _ := ⟨_, rfl⟩

namespace Settings

/-- The array of a name in the document of the defaults. -/
theorem get?_sorted_defaults :
    defaults.toJson.sorted.get? "handlers" =
      some (.array (HandlerSettings.defaults.map fun h => h.toJson.sorted)) ∧
    defaults.toJson.sorted.get? "languages" =
      some (.array (Language.defaults.map fun l => l.toJson.sorted)) := by
  rcases defaults.toJson_eq with ⟨members, heq, hnodup, -, -, -, hhandlers, hlanguages⟩
  rcases Json.rearranges_sorted.object hnodup with ⟨members', hmembers', hlookup⟩
  rw [heq, hmembers']
  constructor
  · change members'.lookup "handlers" = _
    rw [hlookup, hhandlers, Option.map_some, Json.rearranges_sorted.array, List.map_map]
    rfl
  · change members'.lookup "languages" = _
    rw [hlookup, hlanguages, Option.map_some, Json.rearranges_sorted.array, List.map_map]
    rfl

/-- Documents in which handlers and languages, where there are any, are arrays of items with
    names. -/
def NamesRecords (docs : List Json) : Prop :=
  ∀ member ∈ ["handlers", "languages"], ∀ d ∈ docs, ∀ j ∈ d.get? member, j.NamesItems

instance : DecidablePred NamesRecords := fun docs =>
  inferInstanceAs (Decidable (∀ member ∈ ["handlers", "languages"], ∀ d ∈ docs, ∀ j ∈ d.get? member,
    j.NamesItems))

section Merged

variable {docs : List Json} {members : List (String × Json)} {s : Settings}
  (hsorted : ∀ d ∈ docs, d.IsSorted) (hobject : ∀ d ∈ docs, ∃ members, d = .object members)
  (hmerged : Json.overAll? (docs.map some) (some defaults.toJson.sorted) = some (.object members))
  (hread : ofJson? (.object members) = some s)

include hsorted hobject hmerged

theorem lookup_merged (member : String) : members.lookup member =
    Json.overAll? (docs.map (Json.get? member)) (defaults.toJson.sorted.get? member) := by
  have hbase : ∀ j ∈ some defaults.toJson.sorted, ∃ members, j = Json.object members :=
    fun j hj => Option.some.inj hj ▸ ⟨_, rfl⟩
  have hget := Json.get?_overAll hsorted hobject hbase member
  rw [hmerged] at hget
  exact hget

include hread

/-- A field of the settings themselves. -/
theorem lastSays_merged {α : Type} {member : String} {decode : Json → Option α}
    {default : Option α} {field : Settings → α} {sets : Json → Bool}
    (hreads : ∀ {members : List (String × Json)} {s : Settings},
      ofJson? (.object members) = some s →
        Decode.keeping default decode (members.lookup member) = some (field s))
    (hfirm : Decode.Firm sets decode) :
    Json.lastSays sets member decode (some (field defaults)) docs = some (field s) := by
  have hbase : Option.Rel
      (fun j r => (∃ members, j = Json.object members) ∧ ofJson? j = some r)
      (some defaults.toJson.sorted) (some defaults) :=
    .some ⟨⟨_, rfl⟩, ofJson?_rearranged Json.rearranges_sorted fits_defaults⟩
  exact Decode.lastSays_of_ofJson hreads hfirm hsorted hobject hbase hmerged hread

variable (hnames : NamesRecords docs)

include hnames

/-- The handlers are read from the entries laid over the defaults. -/
theorem handlers_merged : List.Forall₂ (fun j h => HandlerSettings.ofJson? j = some h)
    (Json.itemsOver (entries "handlers" docs)
      (HandlerSettings.defaults.map fun h => h.toJson.sorted)) s.handlers := by
  have hhandlers := (ofJson?_eq_some_iff.1 hread).handlers
  rw [lookup_merged hsorted hobject hmerged, get?_sorted_defaults.1,
    overAll?_entries (hnames "handlers" (by simp)), Decode.optional_some] at hhandlers
  exact Decode.list?_array_eq_some_iff.1 hhandlers

/-- The languages are read from the entries laid over the defaults. -/
theorem languages_merged : List.Forall₂ (fun j l => Language.ofJson? j = some l)
    (Json.itemsOver (entries "languages" docs)
      (Language.defaults.map fun l => l.toJson.sorted)) s.languages := by
  have hlanguages := (ofJson?_eq_some_iff.1 hread).languages
  rw [lookup_merged hsorted hobject hmerged, get?_sorted_defaults.2,
    overAll?_entries (hnames "languages" (by simp)), Decode.optional_some] at hlanguages
  exact Decode.list?_array_eq_some_iff.1 hlanguages

end Merged

/-- Handlers follow the last entries of their names. -/
theorem handler_lastWins {items : List Json} {hs : List HandlerSettings}
    (hsorted : ∀ e ∈ items, e.IsSorted) (hnamed : ∀ e ∈ items, (Json.itemName? e).isSome = true)
    (hread : List.Forall₂ (fun j h => HandlerSettings.ofJson? j = some h)
      (Json.itemsOver items (HandlerSettings.defaults.map fun h => h.toJson.sorted)) hs)
    (hnodup : (hs.map HandlerSettings.name).Nodup) {h : HandlerSettings} (hh : h ∈ hs) :
    h.LastWins Decode.namesCase (Json.entriesOf h.name items)
      (HandlerSettings.defaults.find? fun k => k.name = h.name) where
  -- All fields but this one have a default; a construct has to be named by some layer.
  construct := by
    have hlast : Json.lastSays Decode.namesCase "construct"
        (fun j => (Decode.case? j).bind Construct.ofName?)
        (((HandlerSettings.defaults.find? fun k => k.name = h.name).map
          HandlerSettings.construct).or none) (Json.entriesOf h.name items) = some h.construct :=
      HandlerSettings.records.lastSays hsorted hnamed hread hnodup hh
        (fun hr => Decode.keeping_of_required (HandlerSettings.ofJson?_eq_some_iff.1 hr).construct)
        (Decode.firm_case Construct.ofName?)
    rwa [Option.or_none] at hlast
  priority := HandlerSettings.records.lastSays hsorted hnamed hread hnodup hh
    (fun hr => Decode.keeping_of_optional (HandlerSettings.ofJson?_eq_some_iff.1 hr).priority)
    Decode.firm_int32
  order := HandlerSettings.records.lastSays hsorted hnamed hread hnodup hh
    (fun hr => Decode.keeping_of_optional (HandlerSettings.ofJson?_eq_some_iff.1 hr).order)
    Decode.firm_int32
  enabled := HandlerSettings.records.lastSays hsorted hnamed hread hnodup hh
    (fun hr => Decode.keeping_of_optional (HandlerSettings.ofJson?_eq_some_iff.1 hr).enabled)
    Decode.firm_bool
  fallback := HandlerSettings.records.lastSays hsorted hnamed hread hnodup hh
    (fun hr => Decode.keeping_of_optional (HandlerSettings.ofJson?_eq_some_iff.1 hr).fallback)
    Decode.firm_bool
  fallbackPriority := HandlerSettings.records.lastSays hsorted hnamed hread hnodup hh
    (fun hr => Decode.keeping_of_optional
      (HandlerSettings.ofJson?_eq_some_iff.1 hr).fallbackPriority)
    Decode.firm_nullable_int32

/-- Languages follow the last entries of their names. -/
theorem language_lastWins {items : List Json} {ls : List Language}
    (hsorted : ∀ e ∈ items, e.IsSorted) (hnamed : ∀ e ∈ items, (Json.itemName? e).isSome = true)
    (hread : List.Forall₂ (fun j l => Language.ofJson? j = some l)
      (Json.itemsOver items (Language.defaults.map fun l => l.toJson.sorted)) ls)
    (hnodup : (ls.map Language.name).Nodup) {l : Language} (hl : l ∈ ls) :
    l.LastWins (Json.entriesOf l.name items)
      (Language.defaults.find? fun k => k.name = l.name) where
  aliases := Language.records.lastSays hsorted hnamed hread hnodup hl
    (fun hr => Decode.keeping_of_optional (Language.ofJson?_eq_some_iff.1 hr).aliases)
    Decode.firm_texts
  codeBlocks := Language.records.lastSays hsorted hnamed hread hnodup hl
    (fun hr => Decode.keeping_of_optional (Language.ofJson?_eq_some_iff.1 hr).codeBlocks)
    Decode.firm_bool

/-! ### A construct without a name -/

/-- Two layers that mention the construct of one handler, the second without naming any. -/
def emptyConstruct : List Layer :=
  [.inline .json
     "\x7b\"handlers\":[\x7b\"name\":\"if\",\"construct\":\x7b\"while\":null\x7d\x7d]\x7d",
   .inline .json
     "\x7b\"handlers\":[\x7b\"name\":\"if\",\"construct\":\x7b\x7d\x7d]\x7d"]

theorem exists_load_emptyConstruct : ∃ s, load emptyConstruct = .ok s := by
  have hloads : (load emptyConstruct).toOption.isSome = true := by decide +kernel
  cases h : load emptyConstruct with
  | ok s => exact ⟨s, rfl⟩
  | error e =>
      rw [h] at hloads
      cases hloads

/-- What the layers say of the construct, if an object without members counts as saying
    something and if it does not. -/
theorem documents_emptyConstruct : ∃ docs, Layer.documents 1 emptyConstruct = .ok docs ∧
    NamesRecords docs ∧
    (let own := Json.entriesOf "if" (entries "handlers" docs)
     let decode := fun j => (Decode.case? j).bind Construct.ofName?
     Json.lastSays (fun _ => true) "construct" decode (some .conditional) own = none ∧
     Json.lastSays Decode.namesCase "construct" decode (some .conditional) own =
       some .whileLoop) := by
  -- The whole statement is decided at once, on the documents if they can be read.
  have hdocs : ∃ docs ∈ (Layer.documents 1 emptyConstruct).toOption, NamesRecords docs ∧
      (let own := Json.entriesOf "if" (entries "handlers" docs)
       let decode := fun j => (Decode.case? j).bind Construct.ofName?
       Json.lastSays (fun _ => true) "construct" decode (some .conditional) own = none ∧
       Json.lastSays Decode.namesCase "construct" decode (some .conditional) own =
         some .whileLoop) := by decide +kernel
  rcases hdocs with ⟨docs, hmem, h⟩
  refine ⟨docs, ?_, h⟩
  cases hread : Layer.documents 1 emptyConstruct with
  | ok docs' =>
      rw [hread] at hmem
      exact congrArg _ (Option.some.inj hmem)
  | error e =>
      rw [hread] at hmem
      cases hmem

/-- The handler of a name that is among the defaults, and what it says of its construct. -/
theorem LastWins.construct_if {setsConstruct : Json → Bool} {docs : List Json} {s : Settings}
    (h : s.LastWins setsConstruct docs) : ∃ k ∈ s.handlers, k.name = "if" ∧
      Json.lastSays setsConstruct "construct" (fun j => (Decode.case? j).bind Construct.ofName?)
        (some .conditional) (Json.entriesOf "if" (entries "handlers" docs)) =
          some k.construct := by
  have hmem : "if" ∈ s.handlers.map HandlerSettings.name := by
    rw [h.handlerNames]
    exact List.mem_append_left _ (by decide)
  rcases List.mem_map.1 hmem with ⟨k, hk, hname⟩
  have hconstruct := (h.handlers k hk).construct
  rw [hname] at hconstruct
  exact ⟨k, hk, hname, hconstruct⟩

/-- The last layer that sets a field decides, except that an object without members does not
    set a construct. -/
theorem layers_last_wins {layers : List Layer} {docs : List Json} {s : Settings}
    (hdocs : Layer.documents 1 layers = .ok docs) (hnames : NamesRecords docs)
    (hload : load layers = .ok s) : s.LastWins Decode.namesCase docs := by
  rcases Layer.of_documents hdocs with ⟨hall, hlaid⟩
  rcases load_eq_ok_iff.1 hload with ⟨merged, hmerged, hread, hvalid⟩
  have hsorted : ∀ d ∈ docs, d.IsSorted := fun d hd => (hall d hd).1
  have hobject : ∀ d ∈ docs, ∃ members, d = .object members := fun d hd => (hall d hd).2
  rcases Json.exists_object_overAll hobject _ with ⟨members, hmembers⟩
  -- Documents are objects, and so is what they are merged into.
  obtain rfl : merged = .object members :=
    Option.some.inj ((hlaid _ _ hmerged).symm.trans hmembers)
  have hhandlers := handlers_merged hsorted hobject hmembers hread hnames
  have hlanguages := languages_merged hsorted hobject hmembers hread hnames
  have hhandlerNames := (names_of_validateHandlers (parts_of_validate hvalid).1).1
  have hlanguageNames := nodup_languageNames hvalid
  have hentries : ∀ member, ∀ e ∈ entries member docs, e.IsSorted := fun _ =>
    isSorted_of_mem_entries hsorted
  have hnamedHandlers := itemName_of_mem_entries (hnames "handlers" (by simp))
  have hnamedLanguages := itemName_of_mem_entries (hnames "languages" (by simp))
  exact {
    handlerNames := HandlerSettings.records.names (hentries _) hnamedHandlers hhandlers
    handlersKept := fun h hh => HandlerSettings.records.kept (hentries _) hnamedHandlers hhandlers
      hhandlerNames hh
    handlers := fun h hh => handler_lastWins (hentries _) hnamedHandlers hhandlers hhandlerNames hh
    languageNames := Language.records.names (hentries _) hnamedLanguages hlanguages
    languagesKept := fun l hl => Language.records.kept (hentries _) hnamedLanguages hlanguages
      hlanguageNames hl
    languages := fun l hl => language_lastWins (hentries _) hnamedLanguages hlanguages
      hlanguageNames hl
    maxDepth := lastSays_merged hsorted hobject hmembers hread
      (fun hr => Decode.keeping_of_optional (ofJson?_eq_some_iff.1 hr).maxDepth) Decode.firm_size
    guardEnabled := lastSays_merged hsorted hobject hmembers hread
      (fun hr => Decode.keeping_of_optional (ofJson?_eq_some_iff.1 hr).guardEnabled)
      Decode.firm_bool
    defaultFallbackPriority := lastSays_merged hsorted hobject hmembers hread
      (fun hr => Decode.keeping_of_optional (ofJson?_eq_some_iff.1 hr).defaultFallbackPriority)
      Decode.firm_int32 }

/-- The second layer leaves the construct that the first one gives. -/
theorem layers_last_wins_emptyConstruct : ∃ docs s,
    Layer.documents 1 emptyConstruct = .ok docs ∧ NamesRecords docs ∧
      load emptyConstruct = .ok s ∧ s.LastWins Decode.namesCase docs ∧
      ∃ k ∈ s.handlers, k.name = "if" ∧ k.construct = .whileLoop := by
  rcases documents_emptyConstruct with ⟨docs, hdocs, hnames, -, hword⟩
  rcases exists_load_emptyConstruct with ⟨s, hload⟩
  have hlast := layers_last_wins hdocs hnames hload
  rcases hlast.construct_if with ⟨k, hk, hname, hconstruct⟩
  exact ⟨docs, s, hdocs, hnames, hload, hlast, k, hk, hname,
    Option.some.inj (hconstruct.symm.trans hword)⟩

/-- So not every layer that mentions a construct decides it: what the last one says here is
    no construct, and the settings are loaded all the same. -/
theorem empty_construct_does_not_win :
    ¬∀ layers docs s, Layer.documents 1 layers = .ok docs → NamesRecords docs →
      load layers = .ok s → s.LastWins (fun _ => true) docs := by
  intro h
  rcases documents_emptyConstruct with ⟨docs, hdocs, hnames, hword, -⟩
  rcases exists_load_emptyConstruct with ⟨s, hload⟩
  rcases (h emptyConstruct docs s hdocs hnames hload).construct_if with ⟨k, -, -, hconstruct⟩
  rw [hword] at hconstruct
  cases hconstruct

end Settings

end PolyScript
