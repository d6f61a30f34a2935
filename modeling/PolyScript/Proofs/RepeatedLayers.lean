import PolyScript.Proofs.Overlays
import PolyScript.Proofs.SettingsFit

/-!
# Layers That Are Repeated

A document that is laid over another once more changes nothing. Laying it over a second time
meets what the first time has left, so it is enough to know the documents that an overlay
leaves as they are. An object does so if each of its members leaves the member below alone,
and an array of named items if each of its items leaves the item of its name alone.

What the first time leaves under a name is either laid over what was there before or the
overlay's own member, if nothing was there. The second case is the first one over a document
that is no container, so one induction on the overlay covers both.

Items with one name in one array would be laid over each other, and the first of them would
be laid over the last once the array comes again. Therefore names must not come twice in an
array.

A layer that is listed twice in a row is thus as good as listed once. Only the numbers of the
layers after it change, and documents without a file are called by their numbers in errors.

## Main definitions

* `Json.NamesOnce`: No array of named items has two items of one name.

## Theorems

* `Json.membersOver_eq_self`, `Json.itemsOver_eq_self`: What an overlay leaves as it is.
* `Json.laidOver_laidOver`: An overlay leaves what it was laid over already.
* `Settings.applyLayers_succ`: Layers that count from one number further on.
* `Settings.repeated_layer_changes_nothing`: Both for documents and for layers.
-/

namespace PolyScript

namespace Json

/-- No array of named items, at any depth, has two items of one name. -/
inductive NamesOnce : Json → Prop
  | null : NamesOnce null
  | bool (value : Bool) : NamesOnce (bool value)
  | int (value : Int) : NamesOnce (int value)
  | float (value : Double) : NamesOnce (float value)
  | string (value : String) : NamesOnce (string value)
  | array {items : List Json} : (∀ j ∈ items, NamesOnce j) →
    ((∀ j ∈ items, (itemName? j).isSome = true) → (items.map itemName?).Nodup) →
    NamesOnce (array items)
  | object {members : List (String × Json)} : (∀ m ∈ members, NamesOnce m.2) →
    NamesOnce (object members)

/-! ### What an overlay leaves as it is -/

/-- A member that is there already is put in its place without effect. -/
theorem insertMember_eq_self {members : List (String × Json)} {name : String} {j : Json}
    (hsorted : members.Pairwise fun m n => m.1 < n.1) (h : members.lookup name = some j) :
    insertMember name j members = members := by
  fun_induction insertMember name j members with
  | case1 => cases h
  | case2 k v rest hlt =>
      -- The name would come before all members.
      have hmem : (name, j) ∈ (k, v) :: rest := mem_of_lookup_eq_some h
      rcases List.mem_cons.1 hmem with heq | hmem
      · cases heq
        exact absurd hlt (String.lt_irrefl _)
      · exact absurd ((List.pairwise_cons.1 hsorted).1 _ hmem) (String.lt_asymm hlt)
  | case3 v rest _ =>
      rw [List.lookup_cons_self] at h
      cases h
      rfl
  | case4 k v rest _ hne ih =>
      rw [lookup_cons_eq_ite, if_neg hne] at h
      rw [ih (List.pairwise_cons.1 hsorted).2 h]

/-- An object leaves another as it is if each of its members leaves the one below alone. -/
theorem membersOver_eq_self {overlay base : List (String × Json)}
    (hsorted : base.Pairwise fun m n => m.1 < n.1)
    (h : ∀ m ∈ overlay, ∃ below, base.lookup m.1 = some below ∧ m.2.laidOver below = below) :
    membersOver overlay base = base := by
  induction overlay with
  | nil => rw [membersOver]
  | cons m rest ih =>
      rcases m with ⟨name, j⟩
      rcases List.forall_mem_cons.1 h with ⟨⟨below, hbelow, hj⟩, hrest⟩
      rw [membersOver]
      simp only [hbelow, hj]
      rw [insertMember_eq_self hsorted hbelow, ih hrest]

/-- An array of named items leaves another as it is if each of its items leaves the item of
    its name alone. -/
theorem itemsOver_eq_self {items base : List Json}
    (h : ∀ j ∈ items, ∃ name below, itemName? j = some name ∧ itemOf? name base = some below ∧
      j.laidOver below = below) : itemsOver items base = base := by
  -- One item first, by its place in the array below.
  have hone : ∀ {j below : Json} {name : String}, itemName? j = some name →
      j.laidOver below = below → ∀ base, itemOf? name base = some below →
        itemsOver [j] base = base := by
    intro j below name hname hj base hbelow
    induction base with
    | nil => cases hbelow
    | cons item rest ih =>
        rw [itemOf?_cons] at hbelow
        by_cases hitem : itemName? item = some name
        · rw [if_pos hitem] at hbelow
          cases hbelow
          rw [itemsOver_cons_of_name rest (hitem.trans hname.symm), hj]
        · rw [if_neg hitem] at hbelow
          rw [itemsOver_cons_of_ne rest (hname ▸ hitem), ih hbelow]
  induction items with
  | nil => rw [itemsOver]
  | cons j rest ih =>
      rcases List.forall_mem_cons.1 h with ⟨⟨name, below, hname, hbelow, hj⟩, hrest⟩
      rw [itemsOver_cons, hone hname hj base hbelow, ih hrest]

/-! ### What an overlay was laid over -/

/-- Laid over a document without parts, an overlay stands as it is; so it then leaves itself
    alone. -/
theorem laidOver_self {j : Json}
    (hj : ∀ below : Json, below.IsSorted → j.laidOver (j.laidOver below) = j.laidOver below) :
    j.laidOver j = j := by
  have hnull : j.laidOver .null = j := by cases j <;> rfl
  have hagain := hj .null .null
  rwa [hnull] at hagain

/-- What is found under a name where a member was laid over it: the member then leaves it
    alone. -/
theorem exists_over_of_some {j : Json} (base : Option Json) (hbase : ∀ b ∈ base, b.IsSorted)
    (hj : ∀ below : Json, below.IsSorted → j.laidOver (j.laidOver below) = j.laidOver below) :
    ∃ below, over? (some j) base = some below ∧ j.laidOver below = below := by
  cases base with
  | some b => exact ⟨_, rfl, hj b (hbase b rfl)⟩
  | none => exact ⟨j, rfl, laidOver_self hj⟩

/-- Among items with different names, each is the only one of its name. -/
theorem filter_name_of_nodup {items : List Json} {j : Json} {name : String}
    (hnodup : (items.map itemName?).Nodup) (hmem : j ∈ items) (hname : itemName? j = some name) :
    (items.filter fun k => itemName? k = some name) = [j] := by
  induction items with
  | nil => cases hmem
  | cons item rest ih =>
      rcases List.nodup_cons.1 hnodup with ⟨hfirst, hrest⟩
      rcases List.mem_cons.1 hmem with rfl | hmem
      · have hnone : (rest.filter fun k => itemName? k = some name) = [] :=
          List.filter_eq_nil_iff.2 fun k hk hsame =>
            hfirst (hname.trans (of_decide_eq_true hsame).symm ▸ List.mem_map_of_mem hk)
        rw [List.filter_cons_of_pos (by simpa using hname), hnone]
      · have hne : itemName? item ≠ some name := fun hsame =>
          hfirst (hsame.trans hname.symm ▸ List.mem_map_of_mem hmem)
        rw [List.filter_cons_of_neg (by simpa using hne), ih hrest hmem]

section Parts

variable {items : List Json} {members : List (String × Json)}

/-- Items laid over an array leave what they were laid over already. -/
theorem itemsOver_itemsOver (hsorted : ∀ j ∈ items, j.IsSorted)
    (hnamed : ∀ j ∈ items, (itemName? j).isSome = true) (hnodup : (items.map itemName?).Nodup)
    (hagain : ∀ j ∈ items, ∀ below : Json, below.IsSorted →
      j.laidOver (j.laidOver below) = j.laidOver below)
    {base : List Json} (hbase : ∀ b ∈ base, b.IsSorted) :
    itemsOver items (itemsOver items base) = itemsOver items base := by
  refine itemsOver_eq_self fun j hmem => ?_
  rcases Option.isSome_iff_exists.1 (hnamed j hmem) with ⟨name, hname⟩
  have hfound : itemOf? name (itemsOver items base) = over? (some j) (itemOf? name base) := by
    rw [itemOf?_itemsOver hsorted hnamed, filter_name_of_nodup hnodup hmem hname]
    rfl
  rcases exists_over_of_some (itemOf? name base)
    (fun b hb => hbase b (List.mem_of_find?_eq_some hb)) (hagain j hmem) with
    ⟨below, hbelow, hlaid⟩
  exact ⟨name, below, hname, hfound.trans hbelow, hlaid⟩

/-- Members laid over an object leave what they were laid over already. -/
theorem membersOver_membersOver (hmembers : (object members).IsSorted)
    (hagain : ∀ m ∈ members, ∀ below : Json, below.IsSorted →
      m.2.laidOver (m.2.laidOver below) = m.2.laidOver below)
    {base : List (String × Json)} (hbase : (object base).IsSorted) :
    membersOver members (membersOver members base) = membersOver members base := by
  have hlaid : ((object members).laidOver (object base)).IsSorted := hmembers.laidOver hbase
  rw [laidOver] at hlaid
  cases hlaid with
  | object hpairwise _ =>
      refine membersOver_eq_self hpairwise fun m hmem => ?_
      have hfound : (membersOver members base).lookup m.1 =
          over? (some m.2) (base.lookup m.1) := by
        rw [lookup_membersOver hmembers.nodup_names,
          lookup_of_mem hmembers.nodup_names hmem]
      rcases exists_over_of_some (base.lookup m.1)
        (fun b hb => hbase.of_get? (show (object base).get? m.1 = some b from hb))
        (hagain m hmem) with ⟨below, hbelow, hlaid⟩
      exact ⟨below, hfound.trans hbelow, hlaid⟩

/-- Named items leave themselves alone. -/
theorem itemsOver_self (hnamed : ∀ j ∈ items, (itemName? j).isSome = true)
    (hnodup : (items.map itemName?).Nodup) (hself : ∀ j ∈ items, j.laidOver j = j) :
    itemsOver items items = items := by
  refine itemsOver_eq_self fun j hmem => ?_
  rcases Option.isSome_iff_exists.1 (hnamed j hmem) with ⟨name, hname⟩
  have hfound := find?_eq_some_of_mem hnodup hmem
  rw [hname] at hfound
  exact ⟨name, j, hname, hfound, hself j hmem⟩

/-- Members leave themselves alone. -/
theorem membersOver_self (hpairwise : members.Pairwise fun m n => m.1 < n.1)
    (hself : ∀ m ∈ members, m.2.laidOver m.2 = m.2) : membersOver members members = members :=
  membersOver_eq_self hpairwise fun m hmem =>
    ⟨m.2, lookup_of_mem (nodup_names_of_pairwise hpairwise) hmem, hself m hmem⟩

end Parts

/-- An overlay leaves what it was laid over already. For named items this needs each name once in
    the overlay, as a second item of a name would be merged into the first one. -/
theorem laidOver_laidOver {j base : Json} (honce : j.NamesOnce) (hj : j.IsSorted)
    (hbase : base.IsSorted) : j.laidOver (j.laidOver base) = j.laidOver base := by
  induction honce generalizing base with
  | null | bool | int | float | string => cases base <;> rfl
  | @array items _ hnames ih =>
      cases hj with
      | array hsorted =>
          have hagain : ∀ j ∈ items, ∀ below : Json, below.IsSorted →
              j.laidOver (j.laidOver below) = j.laidOver below :=
            fun j hmem _ hbelow => ih j hmem (hsorted j hmem) hbelow
          by_cases hmerges : items ≠ [] ∧ ∀ j ∈ items, (itemName? j).isSome = true
          · have hnodup := hnames hmerges.2
            have hself : (array items).laidOver (array items) = array items := by
              rw [laidOver, if_pos (mergesItems_iff.2 hmerges),
                itemsOver_self hmerges.2 hnodup fun j hmem => laidOver_self (hagain j hmem)]
            cases hbase with
            | array hbase =>
                rw [laidOver, if_pos (mergesItems_iff.2 hmerges), laidOver,
                  if_pos (mergesItems_iff.2 hmerges),
                  itemsOver_itemsOver hsorted hmerges.2 hnodup hagain hbase]
            | null | bool | int | float | string | object => exact hself
          -- Other arrays replace whatever is below.
          · have hlaid : ∀ below, (array items).laidOver below = array items := fun below => by
              cases below with
              | array => rw [laidOver, if_neg (mt mergesItems_iff.1 hmerges)]
              | null | bool | int | float | string | object => rfl
            rw [hlaid, hlaid]
  | @object members _ ih =>
      cases hj with
      | object hpairwise hsorted =>
          have hagain : ∀ m ∈ members, ∀ below : Json, below.IsSorted →
              m.2.laidOver (m.2.laidOver below) = m.2.laidOver below :=
            fun m hmem _ hbelow => ih m hmem (hsorted m hmem) hbelow
          have hself : (object members).laidOver (object members) = object members := by
            rw [laidOver, membersOver_self hpairwise fun m hmem => laidOver_self (hagain m hmem)]
          cases hbase with
          | object hbase hvalues =>
              rw [laidOver, laidOver, membersOver_membersOver (.object hpairwise hsorted) hagain
                (.object hbase hvalues)]
          | null | bool | int | float | string | array => exact hself

end Json

/-! ### Layers -/

/-- Two answers to which one list of layers leads if it is numbered differently: from a number
    and from the one after it. They are the same, unless a document without a file cannot be
    read. Then both are its error, which calls it by its number in each list. -/
def Layer.AnswersAlike {α : Type} (layers : List Layer) (k : Nat)
    (answer answer' : Except SettingsError α) : Prop :=
  answer' = answer ∨ ∃ i format text, ∃ e : String → SettingsError,
    layers[i]? = some (.inline format text) ∧
      (∀ origin, Layer.document origin format text = .error (e origin)) ∧
      answer = .error (e ("inline document " ++ toString (k + i))) ∧
      answer' = .error (e ("inline document " ++ toString (k + i + 1)))

namespace Layer

/-- Whether a text can be read does not depend on what it is called. -/
theorem document_cases (format : Format) (text : String) :
    (∃ doc, ∀ origin, document origin format text = .ok doc) ∨
      ∃ e : String → SettingsError, ∀ origin, document origin format text = .error (e origin) := by
  unfold document
  cases format with
  | json =>
      cases Json.parse? text with
      | none => exact .inr ⟨_, fun _ => rfl⟩
      | some j =>
          cases j with
          | object => exact .inl ⟨_, fun _ => rfl⟩
          | null | bool | int | float | string | array => exact .inr ⟨_, fun _ => rfl⟩
  | toml =>
      cases Toml.parse? text with
      | none => exact .inr ⟨_, fun _ => rfl⟩
      | some j =>
          cases j with
          | object => exact .inl ⟨_, fun _ => rfl⟩
          | null | bool | int | float | string | array => exact .inr ⟨_, fun _ => rfl⟩

/-- What a layer holds does not depend on its number. -/
theorem read_ok {layer : Layer} {k : Nat} {doc : Json} (h : layer.read k = .ok doc) (n : Nat) :
    layer.read n = .ok doc := by
  cases layer with
  | file => exact h
  | inline format text =>
      rcases document_cases format text with ⟨doc', hdoc⟩ | ⟨e, he⟩
      · rw [read, hdoc] at h ⊢
        exact h
      · rw [read, he] at h
        cases h

namespace AnswersAlike

variable {α β : Type} {layers : List Layer} {k : Nat} {answer answer' : Except SettingsError α}

/-- What is done with documents that were read makes no difference. -/
theorem bind (f : α → Except SettingsError β) (h : AnswersAlike layers k answer answer') :
    AnswersAlike layers k (answer.bind f) (answer'.bind f) := by
  rcases h with rfl | ⟨i, format, text, e, hlayer, he, rfl, rfl⟩
  · exact .inl rfl
  · exact .inr ⟨i, format, text, e, hlayer, he, rfl, rfl⟩

/-- A layer in front. -/
theorem cons {layer : Layer} (h : AnswersAlike layers (k + 1) answer answer') :
    AnswersAlike (layer :: layers) k answer answer' := by
  rcases h with h | ⟨i, format, text, e, hlayer, he, hanswer, hanswer'⟩
  · exact .inl h
  · have hnumber : k + 1 + i = k + (i + 1) := by omega
    rw [hnumber] at hanswer hanswer'
    exact .inr ⟨i + 1, format, text, e, hlayer, he, hanswer, hanswer'⟩

end AnswersAlike

end Layer

namespace Settings

/-- Layers that count from one number further on. -/
theorem applyLayers_succ (layers : List Layer) (k : Nat) (base : Json) :
    Layer.AnswersAlike layers k (applyLayers k layers base) (applyLayers (k + 1) layers base) := by
  induction layers generalizing k base with
  | nil => exact .inl rfl
  | cons layer rest ih =>
      cases hread : layer.read k with
      | ok doc =>
          rw [applyLayers, applyLayers, hread, Layer.read_ok hread]
          exact (ih (k + 1) _).cons
      | error e =>
          -- A file is named by its path, a document in the text by its number, which alone has
          -- changed.
          cases layer with
          | file path content =>
              have hsame : (Layer.file path content).read (k + 1) = .error e := hread
              rw [applyLayers, applyLayers, hread, hsame]
              exact .inl rfl
          | inline format text =>
              rcases Layer.document_cases format text with ⟨doc, hdoc⟩ | ⟨e, he⟩
              · rw [Layer.read, hdoc] at hread
                cases hread
              · rw [applyLayers, applyLayers, Layer.read, he, Layer.read, he]
                exact .inr ⟨0, format, text, e, rfl, he, rfl, rfl⟩

/-- Layers are laid over a document one after the other. -/
theorem applyLayers_append (layers layers' : List Layer) (k : Nat) (base : Json) :
    applyLayers k (layers ++ layers') base =
      (applyLayers k layers base).bind (applyLayers (k + layers.length) layers') := by
  induction layers generalizing k base with
  | nil => rfl
  | cons layer rest ih =>
      rw [List.cons_append, applyLayers, applyLayers]
      cases layer.read k with
      | error e => rfl
      | ok doc =>
          simp only [ih, List.length_cons]
          rw [Nat.add_right_comm, Nat.add_assoc]

/-- A layer that is listed twice, over a document. -/
theorem applyLayers_repeated {layer : Layer} {base : Json} (hbase : base.IsSorted) (k : Nat)
    (honce : ∀ doc, layer.read k = .ok doc → doc.NamesOnce) (after : List Layer) :
    Layer.AnswersAlike after (k + 1) (applyLayers k (layer :: after) base)
      (applyLayers k (layer :: layer :: after) base) := by
  cases hread : layer.read k with
  | error e =>
      rw [applyLayers, applyLayers, hread]
      exact .inl rfl
  | ok doc =>
      have htwice := Json.laidOver_laidOver (honce doc hread) (Layer.of_read hread).1 hbase
      simp only [applyLayers, hread, Layer.read_ok hread, htwice]
      exact applyLayers_succ after (k + 1) _

/-- What is made of the document that all layers give. -/
def ofMerged (merged : Json) : Except SettingsError Settings :=
  match ofJson? merged with
  | none => .error (.malformedJson "merged configuration")
  | some s => s.validated

theorem load_eq_bind (layers : List Layer) :
    load layers = (applyLayers 1 layers defaults.toJson.sorted).bind ofMerged := by
  rw [load]
  cases applyLayers 1 layers defaults.toJson.sorted <;> rfl

/-- Laying a document over another a second time changes nothing, and neither does listing a
    layer twice in a row: the same settings are loaded, or there is the same error, in which a
    later document without a file goes by its number. -/
theorem repeated_layer_changes_nothing :
    (∀ base overlay : Json, base.IsSorted → overlay.IsSorted → overlay.NamesOnce →
      overlay.laidOver (overlay.laidOver base) = overlay.laidOver base) ∧
    ∀ (before : List Layer) (layer : Layer) (after : List Layer),
      (∀ k doc, layer.read k = .ok doc → doc.NamesOnce) →
        Layer.AnswersAlike after (before.length + 2) (load (before ++ layer :: after))
          (load (before ++ layer :: layer :: after)) := by
  refine ⟨fun base overlay hbase hoverlay honce => Json.laidOver_laidOver honce hoverlay hbase,
    fun before layer after honce => ?_⟩
  rw [load_eq_bind, load_eq_bind, applyLayers_append, applyLayers_append]
  refine Layer.AnswersAlike.bind ofMerged ?_
  cases hbefore : applyLayers 1 before defaults.toJson.sorted with
  | error e => exact .inl rfl
  | ok base =>
      have hbase := isSorted_of_applyLayers (Json.isSorted_sorted _) hbefore
      have halike := applyLayers_repeated hbase (1 + before.length) (honce _) after
      have hnumber : 1 + before.length + 1 = before.length + 2 := by omega
      rw [hnumber] at halike
      exact halike

/-- A document that changes one handler and adds another. -/
def twoHandlers : Json :=
  .object [("handlers", .array
    [.object [("name", .string "if"), ("priority", .int 7)],
     .object [("construct", .string "if"), ("name", .string "unless")]])]

theorem namesOnce_twoHandlers : twoHandlers.NamesOnce := by
  refine .object (List.forall_mem_singleton.2 (.array ?_ fun _ => by decide))
  refine List.forall_mem_cons.2 ⟨.object ?_, List.forall_mem_singleton.2 (.object ?_)⟩
  · exact List.forall_mem_cons.2 ⟨.string _, List.forall_mem_singleton.2 (.int _)⟩
  · exact List.forall_mem_cons.2 ⟨.string _, List.forall_mem_singleton.2 (.string _)⟩

/-- The text of that document. -/
def twoHandlersText : String :=
  "\x7b\"handlers\":[\x7b\"name\":\"if\",\"priority\":7\x7d," ++
    "\x7b\"name\":\"unless\",\"construct\":\"if\"\x7d]\x7d"

theorem read_twoHandlers (k : Nat) :
    (Layer.inline .json twoHandlersText).read k = .ok twoHandlers := by
  have hparse : Json.parse? twoHandlersText = some twoHandlers := by rfl
  rw [Layer.read, Layer.document]
  simp only [hparse]
  rfl

/-- The document changes the defaults once, and so do two layers of it. -/
theorem repeated_layer_changes_nothing_twoHandlers :
    defaults.toJson.sorted.IsSorted ∧ twoHandlers.IsSorted ∧ twoHandlers.NamesOnce ∧
      twoHandlers.laidOver (twoHandlers.laidOver defaults.toJson.sorted) =
        twoHandlers.laidOver defaults.toJson.sorted ∧
      load [.inline .json twoHandlersText, .inline .json twoHandlersText] =
        load [.inline .json twoHandlersText] := by
  have hsorted : twoHandlers.IsSorted := (Layer.of_read (read_twoHandlers 1)).1
  have honce : ∀ k doc, (Layer.inline .json twoHandlersText).read k = .ok doc →
      doc.NamesOnce := fun k doc hread => by
    rw [read_twoHandlers] at hread
    cases hread
    exact namesOnce_twoHandlers
  refine ⟨Json.isSorted_sorted _, hsorted, namesOnce_twoHandlers,
    repeated_layer_changes_nothing.1 _ _ (Json.isSorted_sorted _) hsorted namesOnce_twoHandlers,
    ?_⟩
  -- No layer comes after the two, so no number shows.
  rcases repeated_layer_changes_nothing.2 [] _ [] honce with h | ⟨i, _, _, _, hlayer, _⟩
  · exact h
  · cases hlayer

/-- The number of a later document does show: listing a layer twice can change an error. -/
theorem repeated_layer_renumbers :
    ¬∀ (before : List Layer) (layer : Layer) (after : List Layer),
      (∀ k doc, layer.read k = .ok doc → doc.NamesOnce) →
        load (before ++ layer :: layer :: after) = load (before ++ layer :: after) := by
  intro h
  -- One document is read whatever its number is, and the other tells its number.
  have hempty : ∀ k, (Layer.inline .json "\x7b\x7d").read k = .ok (.object []) := fun k => by
    have hparse : Json.parse? "\x7b\x7d" = some (.object []) := by rfl
    rw [Layer.read, Layer.document]
    simp only [hparse]
  have hbroken : ∀ k, (Layer.inline .json "\x7b").read k =
      .error (.malformedJson ("inline document " ++ toString k)) := fun k => by
    have hparse : Json.parse? "\x7b" = none := by rfl
    rw [Layer.read, Layer.document]
    simp only [hparse]
  have hsame := h [] (.inline .json "\x7b\x7d") [.inline .json "\x7b"] fun k doc hread => by
    rw [hempty] at hread
    cases hread
    exact .object (List.forall_mem_nil _)
  simp only [List.nil_append, load, applyLayers, hempty, hbroken] at hsame
  exact absurd (Except.error.inj hsame) (by decide)

end Settings

end PolyScript
