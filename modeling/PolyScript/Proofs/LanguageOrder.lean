import Mathlib.Data.List.Flatten
import Mathlib.Data.List.Nodup
import Mathlib.Data.List.Perm.Basic
import PolyScript.Proofs.Alike
import PolyScript.Proofs.HandlerOrder
import PolyScript.Proofs.Lookup

/-!
# The Order of Languages

In which order languages are listed does not matter either. The table keeps a later
registration before an earlier one and takes the first entry that fits, so order would
matter if two languages shared a name or an alias. Validation refuses that: it collects
all names and aliases, whichever language they belong to, and none may come twice. Then at
most one entry fits, and it is found wherever it stands.

## Main definitions

* `Language.entries`: What a language adds to the names of a table.

## Theorems

* `find?_eq_of_perm`: A search that has at most one result.
* `Settings.names_of_validateLanguages`: No name belongs to two languages.
* `LanguageTable.same_ofList`: Tables of languages in different orders give the same answers.
-/

namespace PolyScript

/-- If at most one item is looked for, then it does not matter where it stands. -/
theorem find?_eq_of_perm {α : Type} {p : α → Bool} {xs ys : List α} (hperm : xs.Perm ys)
    (honly : ∀ a ∈ xs, ∀ b ∈ xs, p a = true → p b = true → a = b) : xs.find? p = ys.find? p := by
  cases hys : ys.find? p with
  | none =>
      rw [List.find?_eq_none] at hys ⊢
      exact fun a ha => hys a (hperm.mem_iff.1 ha)
  | some b =>
      have hb : b ∈ xs := hperm.mem_iff.2 (List.mem_of_find?_eq_some hys)
      cases hxs : xs.find? p with
      | none => exact absurd (List.find?_some hys) (List.find?_eq_none.1 hxs b hb)
      | some a =>
          exact congrArg some (honly a (List.mem_of_find?_eq_some hxs) b hb
            (List.find?_some hxs) (List.find?_some hys))

/-! ### What is in a table -/

/-- What a language adds to the names of a table. -/
def Language.entries (l : Language) : List (String × String) :=
  (l.name :: l.aliases).map fun name => (name, l.name)

namespace LanguageTable

/-- The table holds every name and alias of the languages once, with its language. -/
theorem names_ofList (ls : List Language) :
    (ofList ls).names.Perm (ls.flatMap Language.entries) := by
  have hfold : ∀ (ls : List Language) (table : LanguageTable),
      (ls.foldl register table).names.Perm (ls.flatMap Language.entries ++ table.names) := by
    intro ls
    induction ls with
    | nil => exact fun _ => .refl _
    | cons l rest ih =>
        intro table
        have hone : (table.register l).names.Perm (l.entries ++ table.names) :=
          ((l.aliases.map fun name => (name, l.name)).reverse_perm.append_right _).trans
            List.perm_middle
        rw [List.foldl_cons, List.flatMap_cons, List.append_assoc]
        refine (ih _).trans ((hone.append_left _).trans ?_)
        rw [← List.append_assoc, ← List.append_assoc]
        exact List.perm_append_comm.append_right _
  have hnames := hfold ls empty
  rw [show empty.names = [] from rfl, List.append_nil] at hnames
  exact hnames

/-- No language takes the place of another if their names differ. -/
theorem languages_ofList {ls : List Language} (hnames : (ls.map Language.name).Nodup) :
    (ofList ls).languages = ls := by
  have hfold : ∀ (ls : List Language) (table : LanguageTable), (ls.map Language.name).Nodup →
      (∀ k ∈ table.languages, ∀ l ∈ ls, k.name ≠ l.name) →
      (ls.foldl register table).languages = table.languages ++ ls := by
    intro ls
    induction ls with
    | nil => exact fun table _ _ => (List.append_nil _).symm
    | cons l rest ih =>
        -- Nothing in the table bears the name of the language that is added.
        intro table hnames hother
        rcases List.nodup_cons.1 hnames with ⟨hl, hrest⟩
        have hkept : (table.register l).languages = table.languages ++ [l] := by
          rw [register, List.filter_eq_self.2 fun k hk => ?_]
          exact decide_eq_true (hother k hk l List.mem_cons_self)
        rw [List.foldl_cons, ih _ hrest, hkept, List.append_assoc]
        · rfl
        · intro k hk m hm
          rw [hkept] at hk
          rcases List.mem_append.1 hk with hk | hk
          · exact hother k hk m (List.mem_cons_of_mem _ hm)
          · rw [List.mem_singleton.1 hk]
            exact fun hname => hl (hname ▸ List.mem_map_of_mem hm)
  exact hfold ls empty hnames fun _ hk => by cases hk

end LanguageTable

/-! ### Validated settings -/

namespace Settings

theorem name_of_validateName {path : String} {seen : List String} {name : String}
    (hvalid : validateName path seen name = .ok ()) : name ∉ seen := by
  intro hmem
  unfold validateName at hvalid
  split at hvalid
  · cases hvalid
  · rw [if_pos (List.contains_iff_mem.2 hmem)] at hvalid
    cases hvalid

/-- Aliases were not seen before, and they have been seen then. -/
theorem names_of_validateAliases {path : String} {names : List String} {j : Nat}
    {seen seen' : List String} (hvalid : validateAliases path j seen names = .ok seen') :
    names.Nodup ∧ (∀ name ∈ names, name ∉ seen) ∧
      ∀ name, name ∈ seen' ↔ name ∈ names ∨ name ∈ seen := by
  induction names generalizing j seen with
  | nil =>
      cases hvalid
      exact ⟨List.nodup_nil, List.forall_mem_nil _, fun _ => by simp⟩
  | cons name rest ih =>
      rw [validateAliases] at hvalid
      cases hfirst : validateName (itemPath (path ++ ".aliases") j) seen name with
      | error e => rw [hfirst] at hvalid; cases hvalid
      | ok u =>
          rw [hfirst] at hvalid
          rcases ih hvalid with ⟨hnodup, hunseen, hseen⟩
          refine ⟨List.nodup_cons.2 ⟨fun hmem => hunseen name hmem List.mem_cons_self, hnodup⟩,
            List.forall_mem_cons.2 ⟨name_of_validateName hfirst, fun other hother hmem =>
              hunseen other hother (List.mem_cons_of_mem _ hmem)⟩, fun other => ?_⟩
          rw [hseen, List.mem_cons, List.mem_cons]
          tauto

/-- No name belongs to two languages, and none is both a name and an alias. -/
theorem names_of_validateLanguages {ls : List Language} {i : Nat} {seen : List String}
    (hvalid : validateLanguages i seen ls = .ok ()) :
    (ls.flatMap fun l => l.name :: l.aliases).Nodup ∧
      ∀ name ∈ ls.flatMap fun l => l.name :: l.aliases, name ∉ seen := by
  induction ls generalizing i seen with
  | nil => exact ⟨List.nodup_nil, List.forall_mem_nil _⟩
  | cons l rest ih =>
      rw [validateLanguages] at hvalid
      cases hname : validateName (itemPath "languages" i ++ ".name") seen l.name with
      | error e => rw [hname] at hvalid; cases hvalid
      | ok u =>
          rw [hname] at hvalid
          cases haliases :
            validateAliases (itemPath "languages" i) 0 (l.name :: seen) l.aliases with
          | error e => rw [haliases] at hvalid; cases hvalid
          | ok seen' =>
              rw [haliases] at hvalid
              rcases names_of_validateAliases haliases with ⟨hnodup, hunseen, hseen⟩
              rcases ih hvalid with ⟨hrest, hrestUnseen⟩
              -- After a language, its own names and those before it have been seen.
              have hseen' : ∀ name, name ∈ seen' ↔ name ∈ l.name :: l.aliases ∨ name ∈ seen := by
                intro name
                rw [hseen, List.mem_cons, List.mem_cons]
                tauto
              have hfirst : (l.name :: l.aliases).Nodup :=
                List.nodup_cons.2 ⟨fun hmem => hunseen _ hmem List.mem_cons_self, hnodup⟩
              rw [List.flatMap_cons]
              refine ⟨List.nodup_append.2 ⟨hfirst, hrest, fun a ha b hb hab => ?_⟩,
                fun name hmem hold => ?_⟩
              · exact hrestUnseen b hb ((hseen' b).2 (.inl (hab ▸ ha)))
              · rcases List.mem_append.1 hmem with hmem | hmem
                · rcases List.mem_cons.1 hmem with rfl | hmem
                  · exact name_of_validateName hname hold
                  · exact hunseen name hmem (List.mem_cons_of_mem _ hold)
                · exact hrestUnseen name hmem ((hseen' name).2 (.inr hold))

end Settings

/-! ### Tables that give the same answers -/

namespace Settings

variable {s : Settings}

/-- No two languages of validated settings have the same name. -/
theorem nodup_languageNames (hvalid : s.validate = .ok ()) :
    (s.languages.map Language.name).Nodup := by
  refine (names_of_validateLanguages (parts_of_validate hvalid).2).1.sublist ?_
  rw [List.map_eq_flatMap]
  exact List.Sublist.flatMap_right _ fun l _ => List.singleton_sublist.2 List.mem_cons_self

/-- No name or alias is entered twice for validated settings. -/
theorem nodup_languageKeys (hvalid : s.validate = .ok ()) :
    ((s.languages.flatMap Language.entries).map Prod.fst).Nodup := by
  have hkey : ∀ l : Language, l.entries.map Prod.fst = l.name :: l.aliases := fun l => by
    rw [Language.entries, List.map_map]
    exact List.map_id _
  rw [List.map_flatMap]
  simp only [hkey]
  exact (names_of_validateLanguages (parts_of_validate hvalid).2).1

end Settings

/-- Tables of the languages of settings, listed in different orders. -/
theorem LanguageTable.same_ofList {s : Settings} (hvalid : s.validate = .ok ())
    {ls : List Language} (hperm : ls.Perm s.languages) : (ofList s.languages).Same (ofList ls) := by
  have hnames := Settings.nodup_languageNames hvalid
  have hkeys := Settings.nodup_languageKeys hvalid
  have hentries : (ofList s.languages).names.Perm (ofList ls).names :=
    (names_ofList _).trans ((hperm.symm.flatMap_right _).trans (names_ofList ls).symm)
  have hresolve : ∀ name, (ofList s.languages).resolve? name = (ofList ls).resolve? name :=
    lookup_eq_of_perm hentries (((names_ofList _).map _).nodup_iff.2 hkeys)
  refine ⟨hresolve, fun name next endsInCall => ?_⟩
  have hfind : ∀ canonical, s.languages.find? (fun l => l.name = canonical) =
      ls.find? fun l => l.name = canonical := fun canonical =>
    find?_eq_of_perm hperm.symm fun a ha b hb hname hname' =>
      List.inj_on_of_nodup_map hnames ha hb
        ((of_decide_eq_true hname).trans (of_decide_eq_true hname').symm)
  rw [constructFor?, constructFor?, hresolve, languages_ofList hnames,
    languages_ofList ((hperm.map _).nodup_iff.2 hnames)]
  simp only [hfind]

end PolyScript
