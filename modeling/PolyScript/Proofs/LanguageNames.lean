import PolyScript.Proofs.InOrder
import PolyScript.Proofs.LanguageOrder
import PolyScript.Proofs.WellFormed

/-!
# Language Names in Trees

A guest language goes by its name and by any number of aliases. A text may use all of them,
and a tree has only the names. This rests on two things. The table of languages resolves a
name or an alias to the name of the language that it belongs to; registrations overwrite
each other, so it does that for all languages at once only because validation lets no name
belong to two of them. And every rule that puts a language into a tree asks the table first.
The second part is an induction over derivations, in which the table is arbitrary.

A reserved tag is a token of its own even if its language has been taken off the list. Such
a tag does not resolve, so no tree has its language in it.

## Main definitions

* `Language.GoesBy`: A language has a name or an alias.
* `LanguageTable.Knows`: Something resolves to a name.
* `Expr.languages`, `Pattern.languages`, `Statement.languages`: The languages that are
  mentioned in a tree, apart from statements within statements.
* `Program.languages`, `Program.codeLanguages`: All languages of a program, and those of its
  blocks of guest code.

## Theorems

* `LanguageTable.resolve?_eq_some_iff`: What the table of validated settings resolves.
* `Derives.known`, `DerivesPattern.known`, `DerivesStatement.known`: The table knows the
  languages of derived trees.
* `language_names_canonical`: Languages in an accepted program go by their names.
-/

namespace PolyScript

/-! ### Resolving names -/

/-- A name is the name of a language or one of its aliases. -/
def Language.GoesBy (l : Language) (name : String) : Prop := name = l.name ∨ name ∈ l.aliases

namespace LanguageTable

/-- A table resolves something to this name. -/
def Knows (t : LanguageTable) (canonical : String) : Prop :=
  ∃ name, t.resolve? name = some canonical

theorem knows_of_resolveAt {t : LanguageTable} {name canonical : String} {p : Position}
    (h : t.resolveAt name p = .ok canonical) : t.Knows canonical := by
  unfold resolveAt at h
  split at h
  · cases h
    exact ⟨name, by assumption⟩
  · cases h

/-- A name that introduces guest code resolves to a language with blocks of code. -/
theorem exists_codeBlocks {t : LanguageTable} {name : String} {next : Kind} {endsInCall : Bool}
    (h : t.constructFor? name next endsInCall = some .codeBlock) :
    ∃ l ∈ t.languages, t.resolve? name = some l.name ∧ l.codeBlocks = true := by
  unfold constructFor? at h
  split at h
  · cases h
  · rename_i canonical hresolve
    split at h
    · cases h
    · rename_i l hfind
      have hname : l.name = canonical := by simpa using List.find?_some hfind
      refine ⟨l, List.mem_of_find?_eq_some hfind, by rw [hname]; exact hresolve, ?_⟩
      -- Only an opening bracket makes it a block, and only if the language has blocks.
      split at h
      · split at h <;> cases h
      · split at h
        · assumption
        · cases h
      · split at h
        · assumption
        · cases h
      · cases h

variable {s : Settings} {name canonical : String}

/-- The table of validated settings resolves the names and aliases of each language to its
    name, and nothing else. -/
theorem resolve?_eq_some_iff (hvalid : s.validate = .ok ()) :
    (ofList s.languages).resolve? name = some canonical ↔
      ∃ l ∈ s.languages, l.name = canonical ∧ l.GoesBy name := by
  have hperm := names_ofList s.languages
  have hkeys : ((ofList s.languages).names.map Prod.fst).Nodup :=
    (hperm.map _).nodup_iff.2 (Settings.nodup_languageKeys hvalid)
  have hmem : (ofList s.languages).resolve? name = some canonical ↔
      (name, canonical) ∈ s.languages.flatMap Language.entries :=
    ⟨fun h => hperm.mem_iff.1 (mem_of_lookup_eq_some h),
      fun h => lookup_of_mem hkeys (hperm.mem_iff.2 h)⟩
  rw [hmem]
  simp only [Language.entries, List.mem_flatMap, List.mem_map, Prod.mk.injEq, List.mem_cons]
  constructor
  · rintro ⟨l, hl, other, hother, rfl, rfl⟩
    exact ⟨l, hl, rfl, hother⟩
  · rintro ⟨l, hl, rfl, hname⟩
    exact ⟨l, hl, name, hname, rfl, rfl⟩

theorem Knows.mem (hvalid : s.validate = .ok ()) (h : (ofList s.languages).Knows canonical) :
    canonical ∈ s.languages.map Language.name := by
  rcases h with ⟨name, h⟩
  rcases (resolve?_eq_some_iff hvalid).1 h with ⟨l, hl, rfl, -⟩
  exact List.mem_map_of_mem hl

end LanguageTable

namespace Settings

variable {s : Settings}

/-- Languages of validated settings are told apart by their names. -/
theorem unique_languageName (hvalid : s.validate = .ok ()) :
    ∀ k ∈ s.languages, ∀ l ∈ s.languages, k.name = l.name → k = l := fun _ hk _ hl =>
  List.inj_on_of_nodup_map (nodup_languageNames hvalid) hk hl

/-- The name of a language is an alias of none. -/
theorem name_not_mem_aliases (hvalid : s.validate = .ok ()) {k l : Language}
    (hk : k ∈ s.languages) (hl : l ∈ s.languages) : k.name ∉ l.aliases := by
  intro halias
  -- Both languages are what the table resolves that name to.
  have hown := (LanguageTable.resolve?_eq_some_iff hvalid).2 ⟨k, hk, rfl, .inl rfl⟩
  have hother := (LanguageTable.resolve?_eq_some_iff hvalid).2 ⟨l, hl, rfl, .inr halias⟩
  have hname : k.name = l.name := Option.some.inj (hown.symm.trans hother)
  have hnodup := (names_of_validateLanguages (parts_of_validate hvalid).2).1
  have hone := (List.nodup_flatMap.1 hnodup).1 l hl
  exact (List.nodup_cons.1 hone).1 (hname ▸ halias)

end Settings

/-! ### Languages in trees -/

mutual

/-- All languages that are mentioned in an expression. -/
def Expr.languages : Expr → List String
  | .qualified language _ _ _ => [language]
  | .languageCall language _ arguments _ => language :: exprLanguages arguments
  | .identifier .. | .number .. | .string .. | .boolean .. | .nil _ => []
  | .array es _ | .builtinCall _ es _ | .pipe es _ _ => exprLanguages es
  | .object entries _ => entryLanguages entries
  | .bitstring segments _ => segmentLanguages segments
  | .unary _ e _ | .grouped e _ | .fieldAccess e _ _ => e.languages
  | .binary e _ e' _ | .elvis e e' _ | .index e e' _ => e.languages ++ e'.languages
  | .ternary e e' e'' _ => e.languages ++ e'.languages ++ e''.languages

/-- All languages that are mentioned in some expressions. -/
def exprLanguages : List Expr → List String
  | [] => []
  | e :: rest => e.languages ++ exprLanguages rest

/-- All languages that are mentioned in the entries of an object literal. -/
def entryLanguages : List ObjectEntry → List String
  | [] => []
  | .mk _ e :: rest => e.languages ++ entryLanguages rest

/-- All languages that are mentioned in segments. -/
def segmentLanguages : List BitSegment → List String
  | [] => []
  | .mk value size _ _ _ :: rest =>
    value.languages ++ sizeLanguages size ++ segmentLanguages rest

/-- All languages that are mentioned in a size, if there is one. -/
def sizeLanguages : Option Expr → List String
  | none => []
  | some e => e.languages

end

mutual

/-- All languages that are mentioned in a pattern. -/
def Pattern.languages : Pattern → List String
  | .literal value _ => value.languages
  | .capture .. | .wildcard _ => []
  | .array elements _ _ => patternLanguages elements
  | .object fields _ => fieldLanguages fields
  | .bitstring segments _ => segmentLanguages segments

/-- All languages that are mentioned in some patterns. -/
def patternLanguages : List Pattern → List String
  | [] => []
  | p :: rest => p.languages ++ patternLanguages rest

/-- All languages that are mentioned in the fields of an object pattern. -/
def fieldLanguages : List PatternField → List String
  | [] => []
  | .mk _ p :: rest => p.languages ++ fieldLanguages rest

end

/-- All languages that are mentioned in a statement, apart from the statements within. -/
def Statement.languages : Statement → List String
  | .assignment target value _ => target.languages ++ value.languages
  | .expression e _ | .languageCall e _ _ | .conditional e _ _ _ | .forIn _ e _ _
  | .whileLoop e _ _ => e.languages
  | .numericFor _ first last step _ _ =>
    first.languages ++ last.languages ++ sizeLanguages step
  | .codeBlock language _ _ _ => [language]
  | .select scrutinee arms _ =>
    scrutinee.languages ++ arms.flatMap fun arm => arm.pattern.languages
  | .breakLoop _ | .continueLoop _ | .block _ => []

/-- The language of a block of guest code. -/
def Statement.codeLanguage? : Statement → Option String
  | .codeBlock language _ _ _ => some language
  | _ => none

namespace Program

/-- All languages that are mentioned in a program, at any depth. -/
def languages (program : Program) : List String := program.within.flatMap Statement.languages

/-- The languages of all blocks of guest code in a program, at any depth. -/
def codeLanguages (program : Program) : List String :=
  program.within.filterMap Statement.codeLanguage?

end Program

/-! ### Derived trees -/

theorem exprLanguages_concat (es : List Expr) (e : Expr) :
    exprLanguages (es ++ [e]) = exprLanguages es ++ e.languages := by
  induction es with
  | nil => simp [exprLanguages]
  | cons e' es ih => simp [exprLanguages, ih]

theorem entryLanguages_concat (entries : List ObjectEntry) (key : ObjectKey) (e : Expr) :
    entryLanguages (entries ++ [ObjectEntry.mk key e]) = entryLanguages entries ++ e.languages := by
  induction entries with
  | nil => simp [entryLanguages]
  | cons entry entries ih => cases entry; simp [entryLanguages, ih]

theorem segmentLanguages_concat (ss : List BitSegment) (s : BitSegment) :
    segmentLanguages (ss ++ [s]) = segmentLanguages ss ++ segmentLanguages [s] := by
  induction ss with
  | nil => simp [segmentLanguages]
  | cons s' ss ih => cases s'; simp [segmentLanguages, ih]

theorem patternLanguages_concat (ps : List Pattern) (p : Pattern) :
    patternLanguages (ps ++ [p]) = patternLanguages ps ++ p.languages := by
  induction ps with
  | nil => simp [patternLanguages]
  | cons p' ps ih => simp [patternLanguages, ih]

theorem Expr.languages_of_isLiteral {e : Expr} (h : e.isLiteral = true) : e.languages = [] := by
  cases e <;> first | rfl | cases h

theorem Parse.languages_of_literalOf {source : String} {t : Token} {e : Expr}
    (h : literalOf source t = .ok e) : e.languages = [] :=
  Expr.languages_of_isLiteral (isLiteral_of_literalOf h)

/-- All languages that are mentioned in a phrase. -/
def Phrase.languages : Phrase → List String
  | .suffixed e | .operand e | .chain _ e | .expression e | .value _ e => e.languages
  | .expressions es => exprLanguages es
  | .entries es => entryLanguages es
  | .size e => sizeLanguages e
  | .segments _ ss => segmentLanguages ss

/-- The table knows the languages of derived expressions. A tag is resolved where it is read, and
    what it was resolved to is what the tree has. -/
theorem Derives.known {env : Parse.Env} {τ υ : Tape env.source} {phrase : Phrase}
    (h : Derives env τ phrase υ) :
    ∀ language ∈ phrase.languages, env.languages.Knows language := by
  -- By rule induction: each rule adds the languages of its parts, and two of them add a tag that
  -- was resolved.
  induction h with
  | literal h =>
      intro language hmem
      rw [Phrase.languages, Parse.languages_of_literalOf h] at hmem
      cases hmem
  | name | noExpressions | noEntries | noSize | noSegments | segmentName | underscore =>
      exact List.forall_mem_nil _
  | qualified _ hresolved =>
      exact List.forall_mem_singleton.2 (LanguageTable.knows_of_resolveAt hresolved)
  | languageCall _ hresolved _ _ _ ih =>
      exact List.forall_mem_cons.2 ⟨LanguageTable.knows_of_resolveAt hresolved, ih⟩
  | builtinCall _ _ _ _ _ ih => exact ih
  | grouped _ _ _ _ ih => exact ih
  | array _ _ _ _ ih => exact ih
  | object _ _ _ _ ih => exact ih
  | bitstring _ _ _ _ ih => exact ih
  | index _ _ _ _ ihobject ihindex => exact List.forall_mem_append.2 ⟨ihobject, ihindex⟩
  | fieldAccess _ _ ih => exact ih
  | suffixed _ ih => exact ih
  | unary _ _ ih => exact ih
  | operand _ ih => exact ih
  | binary _ _ _ _ _ _ ihleft ihright => exact List.forall_mem_append.2 ⟨ihleft, ihright⟩
  | chain _ _ ih => exact ih
  | elvis _ _ _ ihcondition ihfallback =>
      exact List.forall_mem_append.2 ⟨ihcondition, ihfallback⟩
  | ternary _ _ _ _ _ ihcondition ihtrue ihfalse =>
      exact List.forall_mem_append.2 ⟨List.forall_mem_append.2 ⟨ihcondition, ihtrue⟩, ihfalse⟩
  | expressions _ _ _ ihlist ihitem =>
      rw [Phrase.languages, exprLanguages_concat]
      exact List.forall_mem_append.2 ⟨ihlist, ihitem⟩
  | entries _ _ _ _ ihlist ihitem =>
      rw [Phrase.languages, entryLanguages_concat]
      exact List.forall_mem_append.2 ⟨ihlist, ihitem⟩
  | value _ ih => exact ih
  | negative _ h =>
      intro language hmem
      rw [Phrase.languages, Expr.languages, Parse.languages_of_literalOf h] at hmem
      cases hmem
  | size _ _ _ ih => exact ih
  | segments _ _ _ _ ihlist ihvalue ihsize =>
      rw [Phrase.languages, segmentLanguages_concat, segmentLanguages, segmentLanguages,
        List.append_nil]
      exact List.forall_mem_append.2 ⟨ihlist, List.forall_mem_append.2 ⟨ihvalue, ihsize⟩⟩

/-- All languages that are mentioned in a phrase. -/
def PatternPhrase.languages : PatternPhrase → List String
  | .pattern p => p.languages
  | .elements ps => patternLanguages ps
  | .fields fs => fieldLanguages fs

theorem mem_fieldLanguages {fs : List PatternField} {language : String} :
    language ∈ fieldLanguages fs ↔ ∃ f ∈ fs, language ∈ f.pattern.languages := by
  induction fs with
  | nil => simp [fieldLanguages]
  | cons f fs ih => cases f; simp [fieldLanguages, PatternField.pattern, ih]

/-- A field brings the languages of its pattern. -/
theorem mem_fieldLanguages_insert {key : String} {p : Pattern} {fs fs' : List PatternField}
    (h : PatternField.insert? key p fs = some fs') {language : String}
    (hmem : language ∈ fieldLanguages fs') :
    language ∈ fieldLanguages fs ∨ language ∈ p.languages := by
  rcases mem_fieldLanguages.1 hmem with ⟨f, hf, hmem⟩
  rcases PatternField.mem_insert? h f hf with rfl | hf
  · exact .inr hmem
  · exact .inl (mem_fieldLanguages.2 ⟨f, hf, hmem⟩)

/-- The table knows the languages of derived patterns. -/
theorem DerivesPattern.known {env : Parse.Env} {τ υ : Tape env.source} {phrase : PatternPhrase}
    (h : DerivesPattern env τ phrase υ) :
    ∀ language ∈ phrase.languages, env.languages.Knows language := by
  -- Literals mention no language.
  have hliteral {e : Expr} (h : e.isLiteral = true) (p : Position) :
      ∀ language ∈ (PatternPhrase.pattern (.literal e p)).languages,
        env.languages.Knows language := by
    intro language hmem
    rw [PatternPhrase.languages, Pattern.languages, Expr.languages_of_isLiteral h] at hmem
    cases hmem
  induction h with
  | literal h => exact hliteral (Parse.isLiteral_normalize (Parse.isLiteral_of_literalOf h)) _
  | negative _ _ h =>
      have hnormal := Parse.isLiteral_normalize (Parse.isLiteral_of_literalOf h)
      exact hliteral (Parse.isLiteral_negate _ hnormal) _
  | wildcard | capture | noElements | noFields => exact List.forall_mem_nil _
  | array _ _ _ _ ih => exact ih
  | object _ _ _ _ ih => exact ih
  | bitstring _ _ h => exact h.known
  | elements _ _ _ ihlist ihitem =>
      rw [PatternPhrase.languages, patternLanguages_concat]
      exact List.forall_mem_append.2 ⟨ihlist, ihitem⟩
  | fields _ _ _ hinsert _ ihlist ihitem =>
      intro language hmem
      exact (mem_fieldLanguages_insert hinsert hmem).elim (ihlist language) (ihitem language)

/-- All languages that are mentioned in a phrase, apart from the statements within. -/
def StatementPhrase.languages : StatementPhrase → List String
  | .stages es _ => exprLanguages es
  | .pipe e => e.languages
  | .statement s | .conditional s => s.languages
  | .arms as => as.flatMap fun arm => arm.pattern.languages
  | .otherwise _ | .body _ | .block _ | .statements _ => []

/-- The table knows the languages of derived statements. -/
theorem DerivesStatement.known {env : Parse.Env} {ahead : Prop} {τ υ : Tape env.source}
    {phrase : StatementPhrase} (h : DerivesStatement env ahead τ phrase υ) :
    ∀ language ∈ phrase.languages, env.languages.Knows language := by
  -- By rule induction, with the languages of expressions known from their own derivations.
  induction h with
  | stage he =>
      rw [StatementPhrase.languages, exprLanguages, exprLanguages, List.append_nil]
      exact he.known
  | stages _ _ _ _ he ih =>
      rw [StatementPhrase.languages, exprLanguages_concat]
      exact List.forall_mem_append.2 ⟨ih, he.known⟩
  | unpiped he => exact he.known
  | pipe _ _ ih => exact ih
  | assignment htarget _ _ _ ih => exact List.forall_mem_append.2 ⟨htarget.known, ih⟩
  | chainCall _ _ _ _ _ _ ih => exact ih
  | guestCall _ _ _ ih => exact ih
  | expression he => exact he.known
  | conditional _ hcondition => exact hcondition.known
  | ofConditional _ ih => exact ih
  | forIn _ _ he => exact he.known
  | @numericFor _ _ _ _ _ _ _ _ _ _ step _ _ hfirst _ hlast hstep =>
      refine List.forall_mem_append.2 ⟨List.forall_mem_append.2 ⟨hfirst.known, hlast.known⟩, ?_⟩
      cases step with
      | none => exact List.forall_mem_nil _
      | some e =>
          rcases hstep e rfl with ⟨_, _, he⟩
          exact he.known
  | whileLoop _ he => exact he.known
  | codeBlock _ hresolved =>
      exact List.forall_mem_singleton.2 (LanguageTable.knows_of_resolveAt hresolved)
  | select _ he _ _ _ ih => exact List.forall_mem_append.2 ⟨he.known, ih⟩
  | arms _ hp _ _ _ ihlist =>
      rw [StatementPhrase.languages, List.flatMap_append, List.flatMap_singleton]
      exact List.forall_mem_append.2 ⟨ihlist, hp.known⟩
  | noElse | elseIf | otherwise | single | body | block | ofBlock | noStatements | statements
  | breakLoop | continueLoop | noArms => exact List.forall_mem_nil _

/-- A derived block of guest code is of a language that has such blocks. -/
theorem DerivesStatement.codeBlocks {env : Parse.Env} {ahead : Prop} {τ υ : Tape env.source}
    {s : Statement} {language : String} (h : DerivesStatement env ahead τ (.statement s) υ)
    (hcode : s.codeLanguage? = some language) :
    ∃ l ∈ env.languages.languages, l.name = language ∧ l.codeBlocks = true := by
  cases h with
  | codeBlock hconstruct hresolved =>
      cases hcode
      rcases LanguageTable.exists_codeBlocks hconstruct with ⟨l, hl, hresolve, hblocks⟩
      refine ⟨l, hl, ?_, hblocks⟩
      rw [LanguageTable.resolveAt, hresolve] at hresolved
      exact Except.ok.inj hresolved
  | ofConditional h => cases h; cases hcode
  | _ => cases hcode

/-! ### Validated settings -/

/-- Under validated settings a name resolves to another one exactly if it is the name or an
    alias of the only language with that other name, and then that one resolves to itself.
    All languages in an accepted program, at any depth, are names of languages and aliases of
    none, and those of blocks of guest code have such blocks. -/
theorem language_names_canonical (settings : Settings) (hvalid : settings.validate = .ok ()) :
    let table := LanguageTable.ofList settings.languages
    (∀ name canonical, table.resolve? name = some canonical ↔
      ∃ l ∈ settings.languages, l.name = canonical ∧ l.GoesBy name ∧
        ∀ k ∈ settings.languages, k.name = canonical → k = l) ∧
    (∀ name canonical, table.resolve? name = some canonical →
      table.resolve? canonical = some canonical) ∧
    ∀ source program, (Parser.ofSettings settings).parse source = .ok program →
      (∀ language ∈ program.languages, language ∈ settings.languages.map Language.name ∧
        ∀ l ∈ settings.languages, language ∉ l.aliases) ∧
      ∀ language ∈ program.codeLanguages,
        ∃ l ∈ settings.languages, l.name = language ∧ l.codeBlocks = true := by
  -- What makes a name resolve was said of the table; here it is said of the settings.
  have hresolve (name canonical : String) :
      (LanguageTable.ofList settings.languages).resolve? name = some canonical ↔
        ∃ l ∈ settings.languages, l.name = canonical ∧ l.GoesBy name :=
    LanguageTable.resolve?_eq_some_iff hvalid
  refine ⟨fun name canonical => ?_, fun name canonical h => ?_, fun source program hparse => ?_⟩
  · rw [hresolve]
    constructor
    · rintro ⟨l, hl, rfl, hname⟩
      exact ⟨l, hl, rfl, hname, fun k hk => Settings.unique_languageName hvalid k hk l hl⟩
    · rintro ⟨l, hl, hcanonical, hname, -⟩
      exact ⟨l, hl, hcanonical, hname⟩
  · rcases (hresolve name canonical).1 h with ⟨l, hl, rfl, -⟩
    exact (hresolve l.name l.name).2 ⟨l, hl, rfl, .inl rfl⟩
  · refine ⟨fun language hmem => ?_, fun language hmem => ?_⟩
    · rcases List.mem_flatMap.1 hmem with ⟨s, hs, hlanguage⟩
      rcases Parser.derives_within hparse s hs with ⟨τ, υ, -, hderives⟩
      have hnamed := (hderives.known language hlanguage).mem hvalid
      refine ⟨hnamed, fun l hl => ?_⟩
      rcases List.mem_map.1 hnamed with ⟨k, hk, rfl⟩
      exact Settings.name_not_mem_aliases hvalid hk hl
    · rcases List.mem_filterMap.1 hmem with ⟨s, hs, hcode⟩
      rcases Parser.derives_within hparse s hs with ⟨τ, υ, -, hderives⟩
      have hblocks := hderives.codeBlocks hcode
      rwa [show ((Parser.ofSettings settings).env source).languages.languages =
        settings.languages from
          LanguageTable.languages_ofList (Settings.nodup_languageNames hvalid)] at hblocks

/-- Two languages of which one has no blocks. The other one is called by its alias. -/
theorem language_names_canonical_alias :
    let settings := { Settings.defaults with
      languages := [⟨"rust", ["rs"], true⟩, ⟨"go", [], false⟩] }
    settings.validate = .ok () ∧
      ∃ program, (Parser.ofSettings settings).parse "rs.f(go.x)\nrs (a) { a }" = .ok program ∧
        program.languages = ["rust", "go", "rust"] ∧ program.codeLanguages = ["rust"] ∧
        (∀ language ∈ program.languages, language ∈ settings.languages.map Language.name ∧
          ∀ l ∈ settings.languages, language ∉ l.aliases) ∧
        ∀ language ∈ program.codeLanguages,
          ∃ l ∈ settings.languages, l.name = language ∧ l.codeBlocks = true := by
  intro settings
  have hvalid : settings.validate = .ok () := by decide +kernel
  rcases Parser.accepts_of_inOrder (Parser.ofSettings settings) "rs.f(go.x)\nrs (a) { a }"
    (fun program => program.languages = ["rust", "go", "rust"] ∧ program.codeLanguages = ["rust"])
    (by decide +kernel) with ⟨program, hparse, hlanguages⟩
  rcases of_decide_eq_true hlanguages with ⟨hall, hcode⟩
  exact ⟨hvalid, program, hparse, hall, hcode,
    (language_names_canonical settings hvalid).2.2 _ program hparse⟩

end PolyScript
