import PolyScript.Proofs.LanguageOrder
import PolyScript.Proofs.SettingsNames

/-!
# The First Fault of Settings

Settings that pass validation are those that keep all its rules, and settings that do not
pass are refused for the first rule that they break. The rules and their order are stated
here without regard to how they are checked. A check is told by what it is about and by the
index of the handler or language, and checks are ordered by a rank, which is a list of
numbers that is compared like a word in a dictionary. Whether settings fail a check depends
on the settings alone: a name is repeated if it stands at an earlier place too.

The proof follows the scan. At each moment it has come to some check, and no check before
that one fails (`Settings.Clean`). A check that is passed leads on to the next one
(`Settings.Clean.next`), and one that fails is the first that does. What is left to show of
a part of the scan is what `Settings.Covers` says: either it goes through and nothing fails
before the place that it leads to, or it reports the first failure of all.

## Main definitions

* `Check`: The checks of settings, with the path of the field each of them is about.
* `Check.rank`: Their order.
* `Settings.Fails`: The checks that settings fail, and what is said about them then.
* `Settings.Refused`: The error of the first failure.
* `Settings.Valid`: The rules that settings have to keep.

## Theorems

* `Settings.valid_iff`: Settings that keep the rules are those that fail no check.
* `Settings.covers_handlers`, `Settings.covers_languages`: The parts of the scan.
* `Settings.validation_names_first_fault`: What validation answers.
-/

namespace PolyScript

/-- The names that a language goes by: its own, and its aliases behind it. -/
def Language.spellings (l : Language) : List String := l.name :: l.aliases

/-- The checks of settings. Handlers, languages, patterns and the spellings of a language
    are told by their index. -/
inductive Check where
  | depthPositive
  | depthLimited
  | handlerName (i : Nat)
  | handlerUnique (i : Nat)
  | patterns (i : Nat)
  | offset (i j : Nat)
  | languageName (i j : Nat)
  | languageUnique (i j : Nat)
  deriving DecidableEq

namespace Check

/-- The path of a spelling of a language. -/
def spellingPath (i : Nat) : Nat → String
  | 0 => Settings.itemPath "languages" i ++ ".name"
  | j + 1 => Settings.itemPath (Settings.itemPath "languages" i ++ ".aliases") j

/-- The path of the field that a check is about. -/
def path : Check → String
  | depthPositive | depthLimited => "maxDepth"
  | handlerName i | handlerUnique i => Settings.itemPath "handlers" i ++ ".name"
  | patterns i => Settings.itemPath "handlers" i ++ ".patterns"
  | offset i j => Settings.itemPath (Settings.itemPath "handlers" i ++ ".patterns") j ++ ".offset"
  | languageName i j | languageUnique i j => spellingPath i j

/-- Where a check comes in their order. The nesting limit comes first, then the handlers,
    then the languages. -/
def rank : Check → List Nat
  | depthPositive => [0, 0]
  | depthLimited => [0, 1]
  | handlerName i => [1, i, 0]
  | handlerUnique i => [1, i, 1]
  | patterns i => [1, i, 2]
  | offset i j => [1, i, 3, j]
  | languageName i j => [2, i, j, 0]
  | languageUnique i j => [2, i, j, 1]

/-- The check that comes behind another one, as long as there are more patterns or spellings
    to look at. -/
def next : Check → Check
  | depthPositive => depthLimited
  | depthLimited => handlerName 0
  | handlerName i => handlerUnique i
  | handlerUnique i => patterns i
  | patterns i => offset i 0
  | offset i j => offset i (j + 1)
  | languageName i j => languageUnique i j
  | languageUnique i j => languageName i (j + 1)

variable {c d : Check}

theorem rank_injective (h : c.rank = d.rank) : c = d := by
  cases c <;> cases d <;> simp_all [rank]

/-- No check comes between a check and the next one. -/
theorem rank_lt_of_lt_next (h : d.rank < c.next.rank) : d.rank < c.rank ∨ d = c := by
  cases c <;> cases d <;> simp [rank, next, List.cons_lt_cons_iff] at h ⊢ <;> omega

end Check

/-- The checks that settings fail, and what is said about each of them. -/
inductive Settings.Fails (s : Settings) : Check → String → Prop
  | depthPositive : s.maxDepth = 0 → s.Fails .depthPositive "must be greater than zero"
  | depthLimited : 1000 < s.maxDepth → s.Fails .depthLimited "must not exceed 1000"
  | handlerName {i : Nat} {h : HandlerSettings} : s.handlers[i]? = some h →
    h.name.toList ∉ handlerName.matches' →
    s.Fails (.handlerName i) ("'" ++ h.name ++ "' is not a valid handler name")
  | handlerUnique {i : Nat} {h : HandlerSettings} : s.handlers[i]? = some h →
    h.name ∈ (s.handlers.take i).map HandlerSettings.name →
    s.Fails (.handlerUnique i) ("duplicate handler name '" ++ h.name ++ "'")
  | patterns {i : Nat} {h : HandlerSettings} : s.handlers[i]? = some h →
    h.enabled = true → h.fallback = false → h.patterns = [] →
    s.Fails (.patterns i) "a primary handler needs at least one token pattern"
  | offset {i j : Nat} {h : HandlerSettings} {p : TokenPattern} : s.handlers[i]? = some h →
    h.patterns[j]? = some p → 8 ≤ p.offset → s.Fails (.offset i j) "must be below 8"
  | languageName {i j : Nat} {l : Language} {name : String} : s.languages[i]? = some l →
    l.spellings[j]? = some name → name.toList ∉ languageName.matches' →
    s.Fails (.languageName i j) ("'" ++ name ++ "' is not a valid language name")
  | languageUnique {i j : Nat} {l : Language} {name : String} : s.languages[i]? = some l →
    l.spellings[j]? = some name →
    name ∈ (s.languages.take i).flatMap Language.spellings ++ l.spellings.take j →
    s.Fails (.languageUnique i j) ("'" ++ name ++ "' is already defined")

namespace Settings

/-- The rules that settings have to keep. -/
structure Valid (s : Settings) : Prop where
  depth : 1 ≤ s.maxDepth ∧ s.maxDepth ≤ 1000
  handlerNames : ∀ h ∈ s.handlers, h.name.toList ∈ handlerName.matches'
  handlersUnique : (s.handlers.map HandlerSettings.name).Nodup
  patterns : ∀ h ∈ s.handlers, h.enabled = true → h.fallback = false → h.patterns ≠ []
  offsets : ∀ h ∈ s.handlers, ∀ p ∈ h.patterns, p.offset < 8
  languageNames : ∀ l ∈ s.languages, ∀ name ∈ l.spellings, name.toList ∈ languageName.matches'
  languagesUnique : (s.languages.flatMap Language.spellings).Nodup

/-- The error that names the first check that settings fail. -/
def Refused (s : Settings) (e : SettingsError) : Prop :=
  ∃ check message, s.Fails check message ∧
    (∀ other said, s.Fails other said → other ≠ check → check.rank < other.rank) ∧
    e = .invalid check.path message

/-! ### The rules -/

/-- A list has no duplicates if no item of it stands among those before it. This is how the
    checks find duplicates. -/
theorem nodup_iff_not_mem_take {α : Type} {xs : List α} :
    xs.Nodup ↔ ∀ i x, xs[i]? = some x → x ∉ xs.take i := by
  rw [List.nodup_iff_getElem?_ne_getElem?]
  constructor
  · intro h i x hx hmem
    rcases List.mem_iff_getElem?.1 hmem with ⟨k, hk⟩
    rw [List.getElem?_take] at hk
    split at hk
    · rename_i hlt
      have hlength := (List.getElem?_eq_some_iff.1 hx).1
      exact h k i hlt hlength (hk.trans hx.symm)
    · cases hk
  · intro h k i hlt hlength heq
    have hx := List.getElem?_eq_getElem hlength
    refine h i _ hx (List.mem_iff_getElem?.2 ⟨k, ?_⟩)
    rw [List.getElem?_take, if_pos hlt, heq, hx]

/-- A list that is put together of parts has no item twice if no item of a part stands in
    an earlier part, or earlier in the same part. -/
theorem nodup_flatMap_iff {α β : Type} {f : α → List β} {xs : List α} :
    (xs.flatMap f).Nodup ↔ ∀ i x, xs[i]? = some x → ∀ j y, (f x)[j]? = some y →
      y ∉ (xs.take i).flatMap f ++ (f x).take j := by
  -- By induction from the end, as each item is compared with those before it.
  induction xs using List.reverseRecOn with
  | nil => exact iff_of_true List.nodup_nil fun i x hx => by cases hx
  | append_singleton xs z ih =>
      rw [List.flatMap_append, List.flatMap_singleton, List.nodup_append, ih,
        nodup_iff_not_mem_take]
      constructor
      · intro h i x hx j y hy hmem
        rcases h with ⟨hearlier, hlast, happart⟩
        -- The item belongs to an earlier part or to the last one.
        rcases Nat.lt_trichotomy i xs.length with hlt | rfl | hgt
        · rw [List.getElem?_append_left hlt] at hx
          rw [List.take_append_of_le_length (Nat.le_of_lt hlt)] at hmem
          exact hearlier i x hx j y hy hmem
        · rw [List.getElem?_concat_length, Option.some.injEq] at hx
          subst hx
          rw [List.take_left, List.mem_append] at hmem
          rcases hmem with hmem | hmem
          · exact happart y hmem y (List.mem_of_getElem? hy) rfl
          · exact hlast j y hy hmem
        · rw [List.getElem?_eq_none (by simp; omega)] at hx
          cases hx
      · intro h
        refine ⟨fun i x hx j y hy hmem => ?_, fun j y hy hmem => ?_, fun y hy w hw heq => ?_⟩
        · have hlt := (List.getElem?_eq_some_iff.1 hx).1
          refine h i x (by rw [List.getElem?_append_left hlt, hx]) j y hy ?_
          rw [List.take_append_of_le_length (Nat.le_of_lt hlt)]
          exact hmem
        · refine h xs.length z List.getElem?_concat_length j y hy ?_
          exact List.mem_append_right _ hmem
        · subst heq
          rcases List.mem_iff_getElem?.1 hw with ⟨j, hj⟩
          refine h xs.length z List.getElem?_concat_length j y hj ?_
          rw [List.take_left]
          exact List.mem_append_left _ hy

variable {s : Settings}

/-- Settings that keep the rules are those that fail no check. The rules say what valid settings
    are without an order, and the checks are what validation goes through in one. -/
theorem valid_iff : s.Valid ↔ ∀ check message, ¬s.Fails check message := by
  -- Each check that fails breaks the rule that it stands for, and the other way around.
  constructor
  · intro hvalid check message hfails
    cases hfails with
    | depthPositive hdepth =>
        have := hvalid.depth.1
        omega
    | depthLimited hdepth =>
        have := hvalid.depth.2
        omega
    | handlerName hget hname => exact hname (hvalid.handlerNames _ (List.mem_of_getElem? hget))
    | @handlerUnique i h hget hmem =>
        refine nodup_iff_not_mem_take.1 hvalid.handlersUnique i h.name ?_ ?_
        · rw [List.getElem?_map, hget, Option.map_some]
        · rw [← List.map_take]
          exact hmem
    | patterns hget henabled hprimary hnil =>
        exact hvalid.patterns _ (List.mem_of_getElem? hget) henabled hprimary hnil
    | offset hget hp hoffset =>
        have := hvalid.offsets _ (List.mem_of_getElem? hget) _ (List.mem_of_getElem? hp)
        omega
    | languageName hget hname hnot =>
        exact hnot (hvalid.languageNames _ (List.mem_of_getElem? hget) _
          (List.mem_of_getElem? hname))
    | languageUnique hget hname hmem =>
        exact nodup_flatMap_iff.1 hvalid.languagesUnique _ _ hget _ _ hname hmem
  · intro hpasses
    refine ⟨⟨?_, ?_⟩, fun h hmem => ?_, ?_, fun h hmem henabled hprimary hnil => ?_,
      fun h hmem p hp => ?_, fun l hmem name hname => ?_, ?_⟩
    · by_contra hdepth
      exact hpasses _ _ (.depthPositive (by omega))
    · by_contra hdepth
      exact hpasses _ _ (.depthLimited (by omega))
    · rcases List.mem_iff_getElem?.1 hmem with ⟨i, hget⟩
      by_contra hname
      exact hpasses _ _ (.handlerName hget hname)
    · refine nodup_iff_not_mem_take.2 fun i name hget hmem => ?_
      rw [List.getElem?_map, Option.map_eq_some_iff] at hget
      rcases hget with ⟨h, hget, rfl⟩
      rw [← List.map_take] at hmem
      exact hpasses _ _ (.handlerUnique hget hmem)
    · rcases List.mem_iff_getElem?.1 hmem with ⟨i, hget⟩
      exact hpasses _ _ (.patterns hget henabled hprimary hnil)
    · rcases List.mem_iff_getElem?.1 hmem with ⟨i, hget⟩
      rcases List.mem_iff_getElem?.1 hp with ⟨j, hp⟩
      by_contra hoffset
      exact hpasses _ _ (.offset hget hp (by omega))
    · rcases List.mem_iff_getElem?.1 hmem with ⟨i, hget⟩
      rcases List.mem_iff_getElem?.1 hname with ⟨j, hname⟩
      by_contra hnot
      exact hpasses _ _ (.languageName hget hname hnot)
    · exact nodup_flatMap_iff.2 fun i l hget j name hname hmem =>
        hpasses _ _ (.languageUnique hget hname hmem)

/-! ### The scan -/

/-- No check fails that comes before a given one. -/
def Clean (s : Settings) (c : Check) : Prop :=
  ∀ check message, s.Fails check message → ¬check.rank < c.rank

/-- What a part of the checks comes to: something has been made sure of, or the first check
    that fails is reported. -/
def Covers {α : Type} (s : Settings) (sure : α → Prop) : Except SettingsError α → Prop
  | .ok a => sure a
  | .error e => s.Refused e

variable {c : Check} {i j : Nat} {h : HandlerSettings} {l : Language}

theorem clean_depthPositive : s.Clean .depthPositive := by
  intro check message _ hlt
  cases check <;> simp [Check.rank, List.cons_lt_cons_iff] at hlt

/-- A check that is passed leads on to the next one. -/
theorem Clean.next (hclean : s.Clean c) (hpass : ∀ message, ¬s.Fails c message) :
    s.Clean c.next := by
  intro check message hfails hlt
  rcases Check.rank_lt_of_lt_next hlt with hearlier | rfl
  · exact hclean check message hfails hearlier
  · exact hpass message hfails

/-- A check that fails is reported if no check before it fails. -/
theorem Clean.refused (hclean : s.Clean c) {message : String} (hfails : s.Fails c message) :
    s.Refused (.invalid c.path message) := by
  refine ⟨c, message, hfails, fun other said hother hne => ?_, rfl⟩
  have hbehind := List.not_lt.1 (hclean other said hother)
  by_contra hnot
  exact hne (Check.rank_injective (List.le_antisymm (List.not_lt.1 hnot) hbehind))

/-! What comes behind the last pattern, handler, spelling or language. -/

/-- Once all patterns of a handler are checked, it is the turn of the next handler. -/
theorem Clean.pastPatterns (hclean : s.Clean (.offset i j)) (hget : s.handlers[i]? = some h)
    (hlength : h.patterns.length ≤ j) : s.Clean (.handlerName (i + 1)) := by
  intro check message hfails hlt
  refine hclean check message hfails ?_
  cases hfails with
  | @offset k m h' p hget' hp =>
      by_cases hk : k = i
      · subst hk
        cases hget.symm.trans hget'
        have hm := (List.getElem?_eq_some_iff.1 hp).1
        simp [Check.rank, List.cons_lt_cons_iff]
        omega
      · simp [Check.rank, List.cons_lt_cons_iff] at hlt ⊢
        omega
  | _ =>
      simp [Check.rank, List.cons_lt_cons_iff] at hlt ⊢
      try omega

/-- If all handlers are clean then the next faults to look for are those of the languages. -/
theorem Clean.pastHandlers (hclean : s.Clean (.handlerName i))
    (hlength : s.handlers.length ≤ i) : s.Clean (.languageName 0 0) := by
  intro check message hfails hlt
  refine hclean check message hfails ?_
  have hin : ∀ {k h}, s.handlers[k]? = some h → k < i := fun hget =>
    Nat.lt_of_lt_of_le (List.getElem?_eq_some_iff.1 hget).1 hlength
  cases hfails with
  | handlerName hget | handlerUnique hget | patterns hget | offset hget =>
      have := hin hget
      simp [Check.rank, List.cons_lt_cons_iff]
      omega
  | _ => simp [Check.rank, List.cons_lt_cons_iff] at hlt ⊢

/-- Once all spellings of a language are checked, it is the turn of the next language. -/
theorem Clean.pastSpellings (hclean : s.Clean (.languageName i j))
    (hget : s.languages[i]? = some l) (hlength : l.spellings.length ≤ j) :
    s.Clean (.languageName (i + 1) 0) := by
  intro check message hfails hlt
  refine hclean check message hfails ?_
  have hin : ∀ {m l' name}, s.languages[i]? = some l' → l'.spellings[m]? = some name → m < j := by
    intro m l' name hget' hname
    cases hget.symm.trans hget'
    exact Nat.lt_of_lt_of_le (List.getElem?_eq_some_iff.1 hname).1 hlength
  cases hfails with
  | @languageName k m l' name hget' hname | @languageUnique k m l' name hget' hname =>
      by_cases hk : k = i
      · subst hk
        have := hin hget' hname
        simp [Check.rank, List.cons_lt_cons_iff]
        omega
      · simp [Check.rank, List.cons_lt_cons_iff] at hlt ⊢
        omega
  | _ => simp [Check.rank, List.cons_lt_cons_iff]

/-- If all languages are clean, too, then there is no fault at all. -/
theorem Clean.pastLanguages (hclean : s.Clean (.languageName i 0))
    (hlength : s.languages.length ≤ i) : ∀ check message, ¬s.Fails check message := by
  intro check message hfails
  refine hclean check message hfails ?_
  have hin : ∀ {k l}, s.languages[k]? = some l → k < i := fun hget =>
    Nat.lt_of_lt_of_le (List.getElem?_eq_some_iff.1 hget).1 hlength
  cases hfails with
  | languageName hget | languageUnique hget =>
      have := hin hget
      simp [Check.rank, List.cons_lt_cons_iff]
      omega
  | _ => simp [Check.rank, List.cons_lt_cons_iff]

/-- What comes next in the rest of a list stands at its place in the list. -/
theorem getElem?_of_drop_eq_cons {α : Type} {xs rest : List α} {x : α} {n : Nat}
    (hdrop : xs.drop n = x :: rest) : xs[n]? = some x ∧ xs.drop (n + 1) = rest := by
  rw [← List.head?_drop, hdrop, ← List.tail_drop, hdrop]
  exact ⟨rfl, rfl⟩

/-! The checks of handlers. -/

/-- The offsets of the patterns are checked from the first one on, by induction on those that are
    left. -/
theorem covers_patterns {ps : List TokenPattern} (hclean : s.Clean (.offset i j))
    (hget : s.handlers[i]? = some h) (hrest : h.patterns.drop j = ps) :
    s.Covers (fun _ => s.Clean (.handlerName (i + 1)))
      (validatePatterns (itemPath "handlers" i) j ps) := by
  induction ps generalizing j with
  | nil => exact hclean.pastPatterns hget (List.drop_eq_nil_iff.1 hrest)
  | cons p ps ih =>
      rcases getElem?_of_drop_eq_cons hrest with ⟨hp, hrest⟩
      unfold validatePatterns
      split
      · rename_i hoffset
        exact hclean.refused (.offset hget hp hoffset)
      · rename_i hoffset
        refine ih (hclean.next fun message hfails => ?_) hrest
        cases hfails with
        | offset hget' hp' hlarge =>
            cases hget.symm.trans hget'
            cases hp.symm.trans hp'
            exact hoffset hlarge

/-- One handler is checked: its name first, which must be new and not empty, then its
    patterns. -/
theorem covers_handler {seen : List String} (hclean : s.Clean (.handlerName i))
    (hget : s.handlers[i]? = some h)
    (hseen : ∀ name, name ∈ seen ↔ name ∈ (s.handlers.take i).map HandlerSettings.name) :
    s.Covers (fun _ => s.Clean (.handlerName (i + 1)))
      (validateHandler (itemPath "handlers" i) seen h) := by
  have hfound : ∀ {h'}, s.handlers[i]? = some h' → h' = h := fun hget' =>
    (Option.some.inj (hget.symm.trans hget')).symm
  unfold validateHandler
  -- The checks of a handler in their order. Each is the first that fails, or all are clean up to
  -- the next one.
  split
  · rename_i hname
    refine hclean.refused (.handlerName hget fun hmatch => ?_)
    rw [(isHandlerName_iff h.name).2 hmatch] at hname
    cases hname
  rename_i hname
  have hunnamed : s.Clean (.handlerUnique i) := hclean.next fun message hfails => by
    cases hfails with
    | handlerName hget' hnot =>
        rw [hfound hget', ← isHandlerName_iff] at hnot
        simp [hnot] at hname
  split
  · rename_i hold
    exact hunnamed.refused (.handlerUnique hget ((hseen _).1 (List.contains_iff_mem.1 hold)))
  rename_i hnew
  have hunique : s.Clean (.patterns i) := hunnamed.next fun message hfails => by
    cases hfails with
    | handlerUnique hget' hold =>
        rw [hfound hget', ← hseen, ← List.contains_iff_mem] at hold
        exact hnew hold
  split
  · rename_i hbare
    simp only [Bool.and_eq_true, Bool.not_eq_true', List.isEmpty_iff] at hbare
    exact hunique.refused (.patterns hget hbare.1.1 hbare.1.2 hbare.2)
  rename_i hguarded
  refine covers_patterns (hunique.next fun message hfails => ?_) hget rfl
  cases hfails with
  | patterns hget' henabled hprimary hnil =>
      cases hfound hget'
      simp [henabled, hprimary, hnil] at hguarded

/-- From some handler on either the checks of the handlers go through, and no check before
    those of the languages fails, or the first one that fails is reported. -/
theorem covers_handlers {hs : List HandlerSettings} {seen : List String}
    (hclean : s.Clean (.handlerName i)) (hrest : s.handlers.drop i = hs)
    (hseen : ∀ name, name ∈ seen ↔ name ∈ (s.handlers.take i).map HandlerSettings.name) :
    s.Covers (fun _ => s.Clean (.languageName 0 0)) (validateHandlers i seen hs) := by
  induction hs generalizing i seen with
  | nil => exact hclean.pastHandlers (List.drop_eq_nil_iff.1 hrest)
  | cons h hs ih =>
      rcases getElem?_of_drop_eq_cons hrest with ⟨hget, hrest⟩
      have hfirst := covers_handler hclean hget hseen
      unfold validateHandlers
      cases hresult : validateHandler (itemPath "handlers" i) seen h with
      | error e =>
          rw [hresult] at hfirst
          exact hfirst
      | ok u =>
          rw [hresult] at hfirst
          refine ih hfirst hrest fun name => ?_
          rw [List.take_add_one, hget, List.map_append, List.mem_append, ← hseen]
          simp [or_comm]

/-! The checks of languages. -/

/-- One spelling of a language is checked: it must be a name and it must be new, among all the
    languages and aliases before it. -/
theorem covers_name {seen : List String} {name : String} (hclean : s.Clean (.languageName i j))
    (hget : s.languages[i]? = some l) (hname : l.spellings[j]? = some name)
    (hseen : ∀ other, other ∈ seen ↔
      other ∈ (s.languages.take i).flatMap Language.spellings ++ l.spellings.take j) :
    s.Covers (fun _ => s.Clean (.languageName i (j + 1)))
      (validateName (Check.spellingPath i j) seen name) := by
  unfold validateName
  -- First whether it is a name, then whether it is new.
  split
  · rename_i hvalid
    refine hclean.refused (.languageName hget hname fun hmatch => ?_)
    rw [(isLanguageName_iff name).2 hmatch] at hvalid
    cases hvalid
  rename_i hvalid
  have hnamed : s.Clean (.languageUnique i j) := hclean.next fun message hfails => by
    cases hfails with
    | languageName hget' hname' hnot =>
        cases hget.symm.trans hget'
        cases hname.symm.trans hname'
        rw [← isLanguageName_iff] at hnot
        simp [hnot] at hvalid
  split
  · rename_i hold
    exact hnamed.refused (.languageUnique hget hname ((hseen _).1 (List.contains_iff_mem.1 hold)))
  rename_i hnew
  refine hnamed.next fun message hfails => ?_
  cases hfails with
  | languageUnique hget' hname' hold =>
      cases hget.symm.trans hget'
      cases hname.symm.trans hname'
      rw [← hseen, ← List.contains_iff_mem] at hold
      exact hnew hold

/-- The names that were seen before the next spelling. -/
theorem seen_next {seen before : List String} {name : String} (hname : l.spellings[j]? = some name)
    (hseen : ∀ other, other ∈ seen ↔ other ∈ before ++ l.spellings.take j) (other : String) :
    other ∈ name :: seen ↔ other ∈ before ++ l.spellings.take (j + 1) := by
  rw [List.take_add_one, hname, ← List.append_assoc, List.mem_append, ← hseen, List.mem_cons]
  simp [or_comm]

/-- The aliases of a language are checked one after the other, behind its name. What was seen
    before grows with them. -/
theorem covers_aliases {names seen : List String} (hclean : s.Clean (.languageName i (j + 1)))
    (hget : s.languages[i]? = some l) (hrest : l.aliases.drop j = names)
    (hseen : ∀ other, other ∈ seen ↔
      other ∈ (s.languages.take i).flatMap Language.spellings ++ l.spellings.take (j + 1)) :
    s.Covers (fun seen' => s.Clean (.languageName (i + 1) 0) ∧ ∀ other, other ∈ seen' ↔
        other ∈ (s.languages.take (i + 1)).flatMap Language.spellings)
      (validateAliases (itemPath "languages" i) j seen names) := by
  -- By induction on the aliases that are left, with `seen` for the names before them.
  induction names generalizing j seen with
  | nil =>
      have hlength : l.spellings.length ≤ j + 1 :=
        Nat.succ_le_succ (List.drop_eq_nil_iff.1 hrest)
      refine ⟨hclean.pastSpellings hget hlength, fun other => ?_⟩
      rw [hseen, List.take_of_length_le hlength, List.take_add_one, hget, List.flatMap_append]
      simp
  | cons name names ih =>
      rcases getElem?_of_drop_eq_cons hrest with ⟨hname, hrest⟩
      have hspelling : l.spellings[j + 1]? = some name := hname
      have hfirst := covers_name hclean hget hspelling hseen
      rw [Check.spellingPath] at hfirst
      unfold validateAliases
      cases hresult :
        validateName (itemPath (itemPath "languages" i ++ ".aliases") j) seen name with
      | error e =>
          rw [hresult] at hfirst
          exact hfirst
      | ok u =>
          rw [hresult] at hfirst
          exact ih hfirst hrest (seen_next hspelling hseen)

/-- From some language on either the checks go through, and no check fails at all, or the
    first one that fails is reported. -/
theorem covers_languages {ls : List Language} {seen : List String}
    (hclean : s.Clean (.languageName i 0)) (hrest : s.languages.drop i = ls)
    (hseen : ∀ other, other ∈ seen ↔
      other ∈ (s.languages.take i).flatMap Language.spellings) :
    s.Covers (fun _ => ∀ check message, ¬s.Fails check message) (validateLanguages i seen ls) := by
  -- The name of a language comes before its aliases, and both before the next language.
  induction ls generalizing i seen with
  | nil => exact hclean.pastLanguages (List.drop_eq_nil_iff.1 hrest)
  | cons l ls ih =>
      rcases getElem?_of_drop_eq_cons hrest with ⟨hget, hrest⟩
      have hseen' : ∀ other, other ∈ seen ↔
          other ∈ (s.languages.take i).flatMap Language.spellings ++ l.spellings.take 0 := by
        intro other
        rw [List.take_zero, List.append_nil, hseen]
      have hspelling : l.spellings[0]? = some l.name := rfl
      have hown := covers_name hclean hget hspelling hseen'
      rw [Check.spellingPath] at hown
      rw [validateLanguages]
      cases hname : validateName (itemPath "languages" i ++ ".name") seen l.name with
      | error e =>
          rw [hname] at hown
          exact hown
      | ok u =>
          rw [hname] at hown
          have hothers := covers_aliases hown hget List.drop_zero (seen_next hspelling hseen')
          cases haliases :
            validateAliases (itemPath "languages" i) 0 (l.name :: seen) l.aliases with
          | error e =>
              rw [haliases] at hothers
              exact hothers
          | ok seen' =>
              rw [haliases] at hothers
              exact ih hothers.1 hrest hothers.2

/-! ### Validation -/

/-- The limit of nesting is checked before anything else. -/
theorem covers_depth (s : Settings) :
    s.Covers (fun _ => s.Clean (.handlerName 0)) (validateDepth s.maxDepth) := by
  unfold validateDepth
  split
  · rename_i hzero
    exact clean_depthPositive.refused (.depthPositive hzero)
  rename_i hzero
  have hpositive : s.Clean .depthLimited := clean_depthPositive.next fun message hfails => by
    cases hfails with
    | depthPositive hdepth => exact hzero hdepth
  split
  · rename_i hlarge
    exact hpositive.refused (.depthLimited hlarge)
  · rename_i hlimited
    refine hpositive.next fun message hfails => ?_
    cases hfails with
    | depthLimited hlarge => exact hlimited hlarge

/-- All checks go through and none fails, or the first one that fails is reported. -/
theorem covers_validate (s : Settings) :
    s.Covers (fun _ => ∀ check message, ¬s.Fails check message) s.validate := by
  have hdepth := covers_depth s
  unfold validate
  cases hfirst : validateDepth s.maxDepth with
  | error e =>
      rw [hfirst] at hdepth
      exact hdepth
  | ok u =>
      rw [hfirst] at hdepth
      -- No handler stands before the first, so no name is taken yet.
      have hnone : ∀ name : String,
          name ∈ [] ↔ name ∈ (s.handlers.take 0).map HandlerSettings.name := by simp
      have hhandlers := covers_handlers hdepth List.drop_zero hnone
      dsimp only
      cases hsecond : validateHandlers 0 [] s.handlers with
      | error e =>
          rw [hsecond] at hhandlers
          exact hhandlers
      | ok u =>
          rw [hsecond] at hhandlers
          have hnone : ∀ name : String,
              name ∈ [] ↔ name ∈ (s.languages.take 0).flatMap Language.spellings := by simp
          exact covers_languages hhandlers List.drop_zero hnone

/-- What is said about a failure depends on the check alone. -/
theorem Fails.message_eq {message said : String} (hfails : s.Fails c message)
    (hfails' : s.Fails c said) : message = said := by
  cases hfails with
  | depthPositive | depthLimited | patterns | offset => cases hfails'; rfl
  -- The check tells the place in the settings, so both failures are about one entry.
  | handlerName hget =>
      cases hfails' with
      | handlerName hget' => cases hget.symm.trans hget'; rfl
  | handlerUnique hget =>
      cases hfails' with
      | handlerUnique hget' => cases hget.symm.trans hget'; rfl
  | languageName hget hname =>
      cases hfails' with
      | languageName hget' hname' =>
          cases hget.symm.trans hget'
          cases hname.symm.trans hname'
          rfl
  | languageUnique hget hname =>
      cases hfails' with
      | languageUnique hget' hname' =>
          cases hget.symm.trans hget'
          cases hname.symm.trans hname'
          rfl

/-- There is one error at most that names the first failure. -/
theorem Refused.unique {e e' : SettingsError} (h : s.Refused e) (h' : s.Refused e') : e = e' := by
  rcases h with ⟨check, message, hfails, hfirst, rfl⟩
  rcases h' with ⟨other, said, hother, hfirst', rfl⟩
  by_cases heq : other = check
  · subst heq
    rw [hfails.message_eq hother]
  · have hlt := hfirst other said hother heq
    have hgt := hfirst' check message hfails (Ne.symm heq)
    exact absurd hgt (List.lt_asymm hlt)

/-- Validation accepts the settings that keep all rules. If there are rules that they break,
    it names the field that the first of the failing checks is about: the nesting limit comes
    before the handlers and these before the languages, each by its index; of a handler the
    form of the name is looked at first, then whether it is new, then whether there are
    patterns, then their offsets; and of a language its name and then its aliases. -/
theorem validation_names_first_fault (s : Settings) :
    (s.validate = .ok () ↔ s.Valid) ∧ ∀ e, s.validate = .error e ↔ s.Refused e := by
  have hcovers := covers_validate s
  cases hresult : s.validate with
  | ok u =>
      rw [hresult] at hcovers
      have hvalid : s.Valid := valid_iff.2 hcovers
      refine ⟨iff_of_true rfl hvalid, fun e => iff_of_false nofun fun hrefused => ?_⟩
      rcases hrefused with ⟨check, message, hfails, -, -⟩
      exact hcovers check message hfails
  | error e =>
      rw [hresult] at hcovers
      refine ⟨iff_of_false nofun fun hvalid => ?_, fun e' => ⟨fun heq => ?_, fun hrefused => ?_⟩⟩
      · rcases hcovers with ⟨check, message, hfails, -, -⟩
        exact valid_iff.1 hvalid check message hfails
      · cases heq
        exact hcovers
      · rw [hcovers.unique hrefused]

/-- The alias of a language is looked at before the name of the next one. -/
example : { defaults with languages := [⟨"a", ["B"], true⟩, ⟨"a", [], true⟩] }.validate =
    .error (.invalid "languages[0].aliases[0]" "'B' is not a valid language name") := by
  decide +kernel

end Settings

end PolyScript
