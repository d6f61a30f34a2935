import PolyScript.Proofs.PiecesAhead

/-!
# Specifiers

What is read as the specifiers of a segment are atoms: names, each with a parameter after a
colon or without one. A name with dashes is several specifiers, and the parameter belongs to
the last of them. So the specifiers do not tell how they were divided into atoms and into
lists, and the printer need not know. It joins all of them by dashes.

What it prints is read as atoms again, but they need not be the same ones. In size mode every
dash is on its own. In the other mode a name without a parameter takes the specifier behind it
along if that begins with a letter, which makes no difference to the specifiers. A parameter
that is a name takes it along as well, and then there is one specifier where there were two
(`BitSegment.fuses`). Where this does not happen the printed text has the same specifiers.

## Main definitions

* `BitSegment.fuses`: Two specifiers that are read as one if a dash joins them.
* `SpecifierAtom`: A name with its parameter, and the specifiers that it stands for.
* `SpecifierAtom.Apart`: Atoms that remain two if a dash joins them.

## Theorems

* `SpecifierAtom.text_joined`: Specifiers joined by dashes are atoms joined by dashes.
* `SpecifierAtom.exists_apart`: Atoms that are joined remain atoms with the same specifiers.
* `SpecifierAtom.legible_clause`: The printed text is read as the atoms.
* `Parse.consumes_specifierLists`: The atoms are parsed into their specifiers.
-/

namespace PolyScript

open Lexer (IsPlain isNamePart isNameStart)
open SourcePrinter (joinWith)

/-- Whether two specifiers are read as one where a dash joins them: the first one has a name for
    a parameter, and the second one begins with a letter. -/
def BitSegment.fuses (first second : String) : Bool :=
  (splitSpecifier first).any (fun parts => parts.2.toList.head?.any isNameStart) &&
    second.toList.head?.any Text.isAlphabetic

/-! ### Texts joined by dashes -/

theorem joinWith_cons (separator s : String) {ss : List String} (hss : ss ≠ []) :
    joinWith separator (s :: ss) = s ++ separator ++ joinWith separator ss := by
  cases ss with
  | nil => exact absurd rfl hss
  | cons s' ss => rfl

theorem joinWith_append (separator : String) {ss ts : List String} (hs : ss ≠ []) (ht : ts ≠ []) :
    joinWith separator (ss ++ ts) =
      joinWith separator ss ++ separator ++ joinWith separator ts := by
  induction ss with
  | nil => exact absurd rfl hs
  | cons s ss ih =>
      cases ss with
      | nil => exact joinWith_cons separator s ht
      | cons s' ss =>
          rw [List.cons_append, joinWith_cons separator s (by simp), ih (List.cons_ne_nil _ _),
            joinWith_cons separator s (List.cons_ne_nil _ _)]
          simp only [String.append_assoc]

/-- More behind the last text. -/
theorem joinWith_longer (separator : String) (ss : List String) (s more : String) :
    joinWith separator (ss ++ [s ++ more]) = joinWith separator (ss ++ [s]) ++ more := by
  cases ss with
  | nil => rfl
  | cons s' ss =>
      rw [joinWith_append separator (List.cons_ne_nil s' ss) (List.cons_ne_nil _ []),
        joinWith_append separator (List.cons_ne_nil s' ss) (List.cons_ne_nil _ [])]
      simp only [joinWith, String.append_assoc]

namespace Parse

theorem splitDashes_ne_nil (cs : List Char) : splitDashes cs ≠ [] := by
  fun_cases splitDashes cs <;> simp [*]

theorem splitDashes_cons {c : Char} (hc : c ≠ '-') (cs : List Char) :
    ∃ piece rest, splitDashes cs = piece :: rest ∧
      splitDashes (c :: cs) = (c :: piece) :: rest := by
  cases hsplit : splitDashes cs with
  | nil => exact absurd hsplit (splitDashes_ne_nil cs)
  | cons piece rest => exact ⟨piece, rest, rfl, by rw [splitDashes, if_neg hc, hsplit]⟩

/-- A text is split at a dash in it as its two sides are. -/
theorem splitDashes_append (cs ds : List Char) :
    splitDashes (cs ++ '-' :: ds) = splitDashes cs ++ splitDashes ds := by
  induction cs with
  | nil =>
      rw [List.nil_append, splitDashes.eq_2, if_pos rfl]
      rfl
  | cons c cs ih =>
      by_cases hc : c = '-'
      · rw [List.cons_append, splitDashes, if_pos hc, splitDashes, if_pos hc, ih, List.cons_append]
      · rcases splitDashes_cons hc cs with ⟨piece, rest, hcs, hsplit⟩
        rcases splitDashes_cons hc (cs ++ '-' :: ds) with ⟨piece', rest', hlong, hsplit'⟩
        rw [ih, hcs, List.cons_append, List.cons.injEq] at hlong
        rw [List.cons_append, hsplit', hsplit, ← hlong.1, ← hlong.2, List.cons_append]

/-- A name split at its dashes is put together again with dashes between the parts. -/
theorem joinWith_splitDashes (cs : List Char) :
    joinWith "-" ((splitDashes cs).map String.ofList) = String.ofList cs := by
  induction cs with
  | nil => rfl
  | cons c cs ih =>
      -- A dash ends a piece; any other character is the first of one.
      by_cases hc : c = '-'
      · subst hc
        have hrest : (splitDashes cs).map String.ofList ≠ [] := by
          simpa using splitDashes_ne_nil cs
        rw [splitDashes, if_pos rfl, List.map_cons, joinWith_cons _ _ hrest, ih]
        simp
      · rcases splitDashes_cons hc cs with ⟨piece, rest, hcs, hsplit⟩
        rw [hcs] at ih
        rw [hsplit]
        cases rest with
        | nil =>
            simp only [List.map_cons, List.map_nil, joinWith, String.ofList_inj] at ih ⊢
            rw [ih]
        | cons second rest =>
            simp only [List.map_cons, joinWith] at ih ⊢
            have hchars := congrArg String.toList ih
            simp only [String.toList_append, String.toList_ofList] at hchars
            simp [← String.toList_inj, ← hchars]

/-- The first piece begins as the text does, and no character is new. -/
theorem mem_splitDashes {cs piece : List Char} (h : piece ∈ splitDashes cs) :
    ∀ c ∈ piece, c ∈ cs := by
  induction cs generalizing piece with
  | nil =>
      rw [splitDashes, List.mem_singleton] at h
      subst h
      exact fun _ hc => by cases hc
  | cons d cs ih =>
      intro c hc
      by_cases hd : d = '-'
      · rw [splitDashes, if_pos hd] at h
        rcases List.mem_cons.1 h with rfl | h
        · cases hc
        · exact List.mem_cons_of_mem _ (ih h c hc)
      · rcases splitDashes_cons hd cs with ⟨first, rest, hcs, hsplit⟩
        rw [hsplit] at h
        rcases List.mem_cons.1 h with rfl | h
        · rcases List.mem_cons.1 hc with rfl | hc
          · exact List.mem_cons_self
          · exact List.mem_cons_of_mem _ (ih (by rw [hcs]; exact List.mem_cons_self) c hc)
        · exact List.mem_cons_of_mem _ (ih (by rw [hcs]; exact List.mem_cons_of_mem _ h) c hc)

theorem withParam_concat (names : List String) (name param : String) :
    withParam (names ++ [name]) param = names ++ [name ++ ":" ++ param] := by
  rw [withParam, List.getLast?_concat, List.dropLast_concat]

theorem withParam_append {names : List String} (before : List String) (hnames : names ≠ [])
    (param : String) : withParam (before ++ names) param = before ++ withParam names param := by
  rcases List.eq_nil_or_concat' names with rfl | ⟨first, last, rfl⟩
  · exact absurd rfl hnames
  · rw [← List.append_assoc, withParam_concat, withParam_concat, List.append_assoc]

theorem withParam_ne_nil {names : List String} (hnames : names ≠ []) (param : String) :
    withParam names param ≠ [] := by
  rcases List.eq_nil_or_concat' names with rfl | ⟨first, last, rfl⟩
  · exact absurd rfl hnames
  · rw [withParam_concat]
    simp

end Parse

/-! ### Atoms -/

/-- What stands behind the colon of a specifier. -/
inductive SpecifierParam where
  | number (raw : String)
  | name (name : String)

namespace SpecifierParam

/-- How it is spelled. -/
def text : SpecifierParam → String
  | number raw => raw
  | name s => s

/-- What it is read as in a mode. -/
def piece (sizeMode : Bool) : SpecifierParam → Piece
  | number raw => .fixed (.verbatim .number raw)
  | name s => .name sizeMode s

/-- It can be read in a mode: names have no dashes in size mode. -/
def Fits (sizeMode : Bool) : SpecifierParam → Prop
  | number raw => Lexer.IsNumeral raw.toList
  | name s => IsPlain s ∧ (sizeMode = true → '-' ∉ s.toList)

end SpecifierParam

/-- A name in a list of specifiers, with its parameter if it has one. -/
structure SpecifierAtom where
  name : String
  param : Option SpecifierParam

namespace SpecifierAtom

/-- The names between the dashes. -/
def names (a : SpecifierAtom) : List String :=
  (Parse.splitDashes a.name.toList).map String.ofList

/-- The specifiers that an atom stands for. -/
def specifiers (a : SpecifierAtom) : List String :=
  match a.param with
  | some param => Parse.withParam a.names param.text
  | none => a.names

/-- How an atom is spelled. -/
def text (a : SpecifierAtom) : String :=
  match a.param with
  | some param => a.name ++ ":" ++ param.text
  | none => a.name

/-- What an atom is read as in a mode. -/
def pieces (sizeMode : Bool) (a : SpecifierAtom) : List Piece :=
  match a.param with
  | some param => [.name sizeMode a.name, .mark .colon ":", param.piece sizeMode]
  | none => [.name sizeMode a.name]

/-- What atoms are read as that dashes join. -/
def joinedPieces (sizeMode : Bool) : List SpecifierAtom → List Piece
  | [] => []
  | [a] => a.pieces sizeMode
  | a :: rest => a.pieces sizeMode ++ .mark .minus "-" :: joinedPieces sizeMode rest

theorem joinedPieces_cons (sizeMode : Bool) (a b : SpecifierAtom) (rest : List SpecifierAtom) :
    joinedPieces sizeMode (a :: b :: rest) =
      a.pieces sizeMode ++ Piece.mark .minus "-" :: joinedPieces sizeMode (b :: rest) := rfl

/-- What atoms are read as behind their slash. -/
def clause (sizeMode : Bool) (atoms : List SpecifierAtom) : List Piece :=
  if atoms.isEmpty then [] else .mark .slash "/" :: joinedPieces sizeMode atoms

/-- An atom can be read in a mode: names have no dashes in size mode. -/
structure Fits (sizeMode : Bool) (a : SpecifierAtom) : Prop where
  plain : IsPlain a.name
  dashes : sizeMode = true → '-' ∉ a.name.toList
  param : ∀ param ∈ a.param, param.Fits sizeMode

/-- Atoms remain two if a dash joins them. -/
def Apart (sizeMode : Bool) (a b : SpecifierAtom) : Prop :=
  sizeMode = true ∨ (∃ raw, a.param = some (.number raw)) ∨
    b.name.toList.head?.any Text.isAlphabetic = false

variable {sizeMode : Bool} {a b : SpecifierAtom} {atoms : List SpecifierAtom}

theorem names_ne_nil (a : SpecifierAtom) : a.names ≠ [] := by
  simpa [names] using Parse.splitDashes_ne_nil a.name.toList

theorem specifiers_ne_nil (a : SpecifierAtom) : a.specifiers ≠ [] := by
  unfold specifiers
  split
  · exact Parse.withParam_ne_nil a.names_ne_nil _
  · exact a.names_ne_nil

/-- The specifiers of an atom, joined with dashes, are its text. -/
theorem joinWith_specifiers (a : SpecifierAtom) : joinWith "-" a.specifiers = a.text := by
  have hnames : joinWith "-" a.names = a.name := by
    rw [names, Parse.joinWith_splitDashes, String.ofList_toList]
  unfold specifiers text
  cases a.param with
  | none => exact hnames
  | some param =>
      rcases List.eq_nil_or_concat' a.names with hnil | ⟨first, last, hlast⟩
      · exact absurd hnil a.names_ne_nil
      · simp only
        rw [hlast] at hnames ⊢
        rw [Parse.withParam_concat, String.append_assoc, joinWith_longer, hnames,
          String.append_assoc]

theorem flatMap_specifiers_ne_nil (hatoms : atoms ≠ []) : atoms.flatMap specifiers ≠ [] := by
  cases atoms with
  | nil => exact absurd rfl hatoms
  | cons a atoms => simp [specifiers_ne_nil]

/-- Specifiers joined by dashes are atoms joined by dashes. -/
theorem text_joined (atoms : List SpecifierAtom) :
    joinWith "-" (atoms.flatMap specifiers) = joinWith "-" (atoms.map text) := by
  induction atoms with
  | nil => rfl
  | cons a atoms ih =>
      cases atoms with
      | nil => rw [List.flatMap_singleton, joinWith_specifiers]; rfl
      | cons b atoms =>
          have hrest := flatMap_specifiers_ne_nil (List.cons_ne_nil b atoms)
          rw [List.flatMap_cons, joinWith_append "-" a.specifiers_ne_nil hrest, ih,
            joinWith_specifiers]
          rfl

/-! ### Atoms that a dash joins -/

/-- A dash with a letter behind it continues a name. -/
theorem splitWord_joined {word cs : List Char}
    (hword : Lexer.splitWord false word = (word, []))
    (hcs : Lexer.splitWord false cs = (cs, []))
    (hletter : cs.head?.any Text.isAlphabetic = true) :
    Lexer.splitWord false (word ++ '-' :: cs) = (word ++ '-' :: cs, []) := by
  have hdash : Lexer.splitWord false ('-' :: cs) = ('-' :: cs, []) := by
    cases cs with
    | nil => cases hletter
    | cons c cs => rw [Lexer.splitWord_dash hletter, hcs]
  rw [Lexer.splitWord_append_of_whole hword, hdash]

theorem ofWord_of_dash {word : String} (h : '-' ∈ word.toList) :
    Kind.ofWord word = .identifier := by
  have hreserved : ∀ entry ∈ Kind.reserved, '-' ∉ entry.1.toList := by decide
  unfold Kind.ofWord Kind.keyword?
  cases hlookup : Kind.reserved.lookup word with
  | none => rfl
  | some kind => exact absurd h (hreserved _ (mem_of_lookup_eq_some hlookup))

/-- Two plain names with a dash between them are one, if the second begins with a letter. -/
theorem isPlain_joined {s t : String} (hs : IsPlain s) (ht : IsPlain t)
    (hletter : t.toList.head?.any Text.isAlphabetic = true) : IsPlain (s ++ "-" ++ t) := by
  have hchars : (s ++ "-" ++ t).toList = s.toList ++ '-' :: t.toList := by
    simp [String.toList_append]
  refine ⟨⟨?_, ?_⟩, ofWord_of_dash (by simp [hchars])⟩
  · rcases hs.isName.cons with ⟨c, cs, hc, hstart⟩
    rw [hchars, hc]
    exact hstart
  · rw [hchars]
    exact splitWord_joined hs.isName.whole ht.isName.whole hletter

/-- A name has no colon. -/
theorem colon_not_mem {name : String} (h : Lexer.IsName name.toList) : ':' ∉ name.toList := by
  have hwhole := h.whole
  generalize name.toList = cs at hwhole
  induction cs with
  | nil => exact List.not_mem_nil
  | cons c cs ih =>
      rw [Lexer.splitWord] at hwhole
      split at hwhole
      · rename_i hc
        rw [Prod.mk.injEq, List.cons.injEq] at hwhole
        rw [List.mem_cons, not_or]
        refine ⟨?_, ih (Prod.ext hwhole.1.2 hwhole.2)⟩
        rintro rfl
        have hcolon : isNamePart ':' = false := by decide
        rw [hcolon] at hc
        cases hc
      · cases hwhole

/-- The first specifier of an atom begins as the atom does. -/
theorem head_specifiers (h : IsPlain a.name) :
    ∃ first rest, a.specifiers = first :: rest ∧ first.toList.head? = a.name.toList.head? := by
  rcases h.isName.cons with ⟨c, cs, hname, hstart⟩
  -- No name begins with a dash, so its first piece is not empty.
  have hdash : c ≠ '-' := by
    rintro rfl
    have hnot : isNameStart '-' = false := by decide
    rw [hnot] at hstart
    cases hstart
  have hnames : ∃ first rest, a.names = first :: rest ∧ first.toList.head? = some c := by
    rcases Parse.splitDashes_cons hdash cs with ⟨piece, rest, -, hsplit⟩
    exact ⟨_, _, by rw [names, hname, hsplit, List.map_cons], by simp⟩
  rcases hnames with ⟨first, rest, hnames, hfirst⟩
  rw [hname, List.head?_cons, specifiers, hnames]
  -- A parameter is written behind the last piece, which may be the first.
  cases a.param with
  | none => exact ⟨first, rest, rfl, hfirst⟩
  | some param =>
      cases rest with
      | nil =>
          refine ⟨first ++ ":" ++ param.text, [], Parse.withParam_concat [] first _, ?_⟩
          simp [String.toList_append, List.head?_append, hfirst]
      | cons second rest =>
          exact ⟨first, _, Parse.withParam_append [first] (List.cons_ne_nil second rest) _, hfirst⟩

/-- The last specifier of an atom has the parameter. -/
theorem last_specifiers {param : SpecifierParam} (h : IsPlain a.name)
    (hparam : a.param = some param) : ∃ before last name, a.specifiers = before ++ [last] ∧
      BitSegment.splitSpecifier last = some (name, param.text) := by
  rcases List.eq_nil_or_concat' a.names with hnil | ⟨before, name, hnames⟩
  · exact absurd hnil a.names_ne_nil
  -- The name has no colon, so the first colon of the specifier is the one before the parameter.
  have hcolon : ∀ c ∈ name.toList, decide (c ≠ ':') = true := by
    have hmem : name ∈ a.names := by simp [hnames]
    rcases List.mem_map.1 hmem with ⟨piece, hpiece, rfl⟩
    intro c hc
    rw [String.toList_ofList] at hc
    refine decide_eq_true ?_
    rintro rfl
    exact colon_not_mem h.isName (Parse.mem_splitDashes hpiece _ hc)
  refine ⟨before, name ++ ":" ++ param.text, name, ?_, ?_⟩
  · rw [specifiers, hparam, hnames]
    exact Parse.withParam_concat _ _ _
  · have hspan : (name ++ ":" ++ param.text).toList.span (fun c => decide (c ≠ ':')) =
        (name.toList, ':' :: param.text.toList) := by
      have hchars : (name ++ ":" ++ param.text).toList =
          name.toList ++ ':' :: param.text.toList := by
        simp [String.toList_append]
      rw [hchars, span_append rfl, List.span_eq_takeWhile_dropWhile,
        List.takeWhile_eq_self_iff.2 hcolon, List.dropWhile_eq_nil_iff.2 hcolon, List.nil_append]
    unfold BitSegment.splitSpecifier
    rw [hspan]
    simp

/-- A name takes along the atom behind it. -/
theorem specifiers_joined (hparam : a.param = none) :
    specifiers ⟨a.name ++ "-" ++ b.name, b.param⟩ = a.specifiers ++ b.specifiers := by
  have hchars : (a.name ++ "-" ++ b.name).toList = a.name.toList ++ '-' :: b.name.toList := by
    simp [String.toList_append]
  have hnames : names ⟨a.name ++ "-" ++ b.name, b.param⟩ = a.names ++ b.names := by
    rw [names, hchars, Parse.splitDashes_append, List.map_append]
    rfl
  rw [specifiers, hnames, specifiers, hparam, specifiers]
  cases b.param with
  | none => rfl
  | some param => exact Parse.withParam_append _ b.names_ne_nil _

/-- Atoms that dashes join are atoms that remain apart, with the same specifiers, unless one
    specifier fuses with the next. -/
theorem exists_apart (hatoms : ∀ a ∈ atoms, a.Fits sizeMode)
    (hchain : (atoms.flatMap specifiers).IsChain fun s t => BitSegment.fuses s t = false) :
    ∃ apart : List SpecifierAtom, (∀ a ∈ apart, a.Fits sizeMode) ∧
      apart.IsChain (Apart sizeMode) ∧ apart.flatMap specifiers = atoms.flatMap specifiers := by
  induction atoms with
  | nil => exact ⟨[], hatoms, .nil, rfl⟩
  | cons a atoms ih =>
      have ha := hatoms a List.mem_cons_self
      rw [List.flatMap_cons, List.isChain_append] at hchain
      rcases ih (fun b hb => hatoms b (List.mem_cons_of_mem _ hb)) hchain.2.1 with
        ⟨apart, hfits, hapart, hsame⟩
      rw [List.flatMap_cons]
      cases apart with
      | nil =>
          refine ⟨[a], List.forall_mem_singleton.2 ha, .singleton a, ?_⟩
          rw [← hsame, List.flatMap_singleton]
          exact (List.append_nil _).symm
      | cons b rest =>
          have hb := hfits b List.mem_cons_self
          by_cases hab : Apart sizeMode a b
          · refine ⟨a :: b :: rest, List.forall_mem_cons.2 ⟨ha, hfits⟩,
              List.isChain_cons_cons.2 ⟨hab, hapart⟩, ?_⟩
            rw [← hsame, List.flatMap_cons]
          · simp only [Apart, not_or, Bool.not_eq_true, Bool.not_eq_false] at hab
            rcases hab with ⟨rfl, hnumber, hletter⟩
            cases hparam : a.param with
            | none =>
                -- The name takes the next one along, with its parameter.
                refine ⟨⟨a.name ++ "-" ++ b.name, b.param⟩ :: rest, ?_, ?_, ?_⟩
                · refine List.forall_mem_cons.2 ⟨⟨isPlain_joined ha.plain hb.plain hletter, nofun,
                    hb.param⟩, fun c hc => hfits c (List.mem_cons_of_mem _ hc)⟩
                · cases rest with
                  | nil => exact .singleton _
                  | cons c rest =>
                      rw [List.isChain_cons_cons] at hapart ⊢
                      exact hapart
                · rw [List.flatMap_cons, specifiers_joined hparam, ← hsame, List.flatMap_cons,
                    List.append_assoc]
            | some param =>
                cases param with
                | number raw => exact absurd ⟨raw, hparam⟩ hnumber
                | name s =>
                    -- Here the last specifier of the one would fuse with the first of the other.
                    rcases last_specifiers ha.plain hparam with ⟨before, last, name, hlast, hsplit⟩
                    rcases head_specifiers hb.plain with ⟨first, others, hfirst, hhead⟩
                    rw [← hsame, List.flatMap_cons, hlast, hfirst] at hchain
                    have hapart := hchain.2.2 last (by simp) first (by simp)
                    have hstart : s.toList.head?.any isNameStart = true :=
                      (ha.param _ hparam).1.isName.start
                    rw [BitSegment.fuses, hsplit, hhead, hletter, Option.any_some, Bool.and_true]
                      at hapart
                    exact absurd (hstart.symm.trans hapart) Bool.noConfusion

/-! ### Reading what is printed -/

/-- Where an atom is over. -/
def Ends (sizeMode : Bool) (a : SpecifierAtom) (cs : List Char) : Prop :=
  match a.param with
  | some (.number _) => Lexer.NumberOver cs
  | _ => Lexer.NameOver sizeMode cs

theorem ends_over {cs : List Char} (h : Lexer.Over cs) (sizeMode : Bool) (a : SpecifierAtom) :
    a.Ends sizeMode cs := by
  unfold Ends
  split
  · exact h.number
  · exact h.nameOver sizeMode

/-- An atom is over before a dash with another one behind it that remains apart. -/
theorem Apart.ends (h : Apart sizeMode a b) {c : Char} (hc : b.name.toList.head? = some c)
    (cs : List Char) : a.Ends sizeMode ('-' :: c :: cs) := by
  have hdash : isNamePart '-' = false := by decide
  unfold Ends
  split
  · exact ⟨hdash, nofun⟩
  · rename_i hnumber
    refine ⟨hdash, fun hmode ds hds => ?_⟩
    cases hds
    rcases h with htrue | ⟨raw, hraw⟩ | hletter
    · rw [hmode] at htrue
      cases htrue
    · exact absurd hraw (hnumber raw)
    · rwa [hc] at hletter

/-- Atoms that dashes join begin with a name. -/
theorem joined_head (hatoms : ∀ b ∈ a :: atoms, b.Fits sizeMode) :
    ∃ c cs, isNameStart c = true ∧ a.name.toList.head? = some c ∧
      (joinWith "-" ((a :: atoms).map text)).toList = c :: cs := by
  rcases (hatoms a List.mem_cons_self).plain.isName.cons with ⟨c, name, hname, hstart⟩
  -- An atom is written with its name first.
  have htext : ∃ cs, a.text.toList = c :: cs := by
    unfold text
    cases a.param with
    | none => exact ⟨name, hname⟩
    | some param => exact ⟨_, by simp only [String.toList_append, hname]; rfl⟩
  rcases htext with ⟨cs, htext⟩
  have hhead : a.name.toList.head? = some c := by rw [hname, List.head?_cons]
  cases atoms with
  | nil => exact ⟨c, cs, hstart, hhead, htext⟩
  | cons b atoms =>
      have hne : (b :: atoms).map text ≠ [] := List.cons_ne_nil _ _
      have hjoined := joinWith_cons "-" a.text hne
      refine ⟨c, cs ++ "-".toList ++ (joinWith "-" ((b :: atoms).map text)).toList, hstart, hhead,
        ?_⟩
      rw [List.map_cons, hjoined, String.toList_append, String.toList_append, htext,
        List.cons_append, List.cons_append]

/-- A number is read where it is over. -/
theorem isRead_numeral {raw : String} {cs : List Char} (h : Lexer.IsNumeral raw.toList)
    (hcs : Lexer.NumberOver cs) : (Piece.fixed (.verbatim .number raw)).IsRead cs := by
  refine (Lexer.isLexeme_numeral h).isRead_over (fun _ _ hstart => ?_) fun _ => hcs
  rcases h.cons with ⟨c, ds, hchars, hdigit⟩
  rw [Word.verbatim_spelling, hchars] at hstart
  rw [Lexer.isDigit_of_isNameStart hstart] at hdigit
  cases hdigit

/-- An atom is read where it is over. -/
theorem Fits.legible {cs : List Char} {us : List Piece} (h : a.Fits sizeMode)
    (hcs : a.Ends sizeMode cs) (hrest : Lexer.Legible cs us) :
    Lexer.Legible (a.text.toList ++ cs) (a.pieces sizeMode ++ us) := by
  unfold Ends at hcs
  unfold text pieces
  -- A name in front is read as one piece if what follows does not go on with it.
  have hname : ∀ {ds : List Char} {vs : List Piece}, Lexer.NameOver sizeMode ds →
      Lexer.Legible ds vs → Lexer.Legible (a.name.toList ++ ds) (.name sizeMode a.name :: vs) :=
    fun hds hvs => .piece (Lexer.isRead_name h.plain.isName h.dashes hds) hvs
  cases hparam : a.param with
  | none =>
      rw [hparam] at hcs
      exact hname hcs hrest
  | some param =>
      have hvalue : Lexer.Legible (param.text.toList ++ cs) (param.piece sizeMode :: us) := by
        have hfits := h.param param hparam
        rw [hparam] at hcs
        cases param with
        | number raw => exact .piece (isRead_numeral hfits hcs) hrest
        | name s => exact .piece (Lexer.isRead_name hfits.1.isName hfits.2 hcs) hrest
      have hcolon := Lexer.Legible.mark (Lexer.IsMark.colon.isRead _) (by decide) hvalue
      -- A colon goes on with no name, and behind it the parameter is read as a piece of its own.
      have hover : Lexer.Over (':' :: (param.text.toList ++ cs)) :=
        Lexer.over_mark (by decide) (by decide) (by decide)
      have htext : (a.name ++ ":" ++ param.text).toList ++ cs =
          a.name.toList ++ ':' :: (param.text.toList ++ cs) := by
        simp [String.toList_append]
      simp only [htext]
      exact hname (hover.nameOver sizeMode) hcolon

/-- Atoms that remain apart are read with dashes between them. -/
theorem legible_joined {cs : List Char} {us : List Piece} (hne : atoms ≠ [])
    (hatoms : ∀ a ∈ atoms, a.Fits sizeMode) (hapart : atoms.IsChain (Apart sizeMode))
    (hcs : Lexer.Over cs) (hrest : Lexer.Legible cs us) :
    Lexer.Legible ((joinWith "-" (atoms.map text)).toList ++ cs)
      (joinedPieces sizeMode atoms ++ us) := by
  -- Each atom is followed by a dash that belongs to none of the names, then by the others.
  induction atoms with
  | nil => exact absurd rfl hne
  | cons a atoms ih =>
      have ha := hatoms a List.mem_cons_self
      cases atoms with
      | nil => exact ha.legible (ends_over hcs sizeMode a) hrest
      | cons b atoms =>
          rw [List.isChain_cons_cons] at hapart
          have hbehind : ∀ c ∈ b :: atoms, c.Fits sizeMode :=
            fun c hc => hatoms c (List.mem_cons_of_mem _ hc)
          have hothers := ih (List.cons_ne_nil b atoms) hbehind hapart.2
          rcases joined_head hbehind with ⟨c, ds, hstart, hname, hjoined⟩
          -- A dash before `>` or `=` would be part of another sign.
          have hc : c ≠ '>' ∧ c ≠ '=' := by
            constructor <;>
              · rintro rfl
                revert hstart
                decide
          have htext : (joinWith "-" ((a :: b :: atoms).map text)).toList ++ cs =
              a.text.toList ++ '-' :: c :: (ds ++ cs) := by
            rw [List.map_cons, joinWith_cons _ _ (by simp), String.toList_append, hjoined]
            simp [String.toList_append]
          rw [hjoined] at hothers
          have hminus := Lexer.unaryOp_isRead .negate hc (ds ++ cs)
          rw [htext, joinedPieces_cons, List.append_assoc]
          exact ha.legible (hapart.1.ends hname _) (.mark hminus (by decide) hothers)

/-- The specifiers behind their slash. -/
def clauseText (specifiers : List String) : String :=
  if specifiers.isEmpty then "" else "/" ++ joinWith "-" specifiers

theorem slash_isRead {c : Char} (hc : c ≠ '/') (cs : List Char) :
    (Word.verbatim .slash "/").IsRead (c :: cs) := by
  refine Lexer.Spells.isRead ⟨fun p => ?_, fun p => rfl⟩ (by decide)
  have hblank : Text.isBlank '/' = false := by decide
  change Lexer.skipBlank false false ('/' :: c :: cs) p = ⟨'/' :: c :: cs, p⟩
  rw [Lexer.skipBlank, hblank, Lexer.startsComment_cons]
  simp [hc]

theorem over_clause {cs : List Char} (hcs : Lexer.Over cs) (specifiers : List String) :
    Lexer.Over ((clauseText specifiers).toList ++ cs) := by
  unfold clauseText
  split
  · exact hcs
  · rw [String.toList_append, List.append_assoc]
    exact Lexer.over_mark (c := '/') (by decide) (by decide) (by decide)

/-- What is printed for the specifiers of a segment is read as the atoms. -/
theorem legible_clause {cs : List Char} {us : List Piece}
    (hatoms : ∀ a ∈ atoms, a.Fits sizeMode) (hapart : atoms.IsChain (Apart sizeMode))
    (hcs : Lexer.Over cs) (hrest : Lexer.Legible cs us) :
    Lexer.Legible ((clauseText (atoms.flatMap specifiers)).toList ++ cs)
      (clause sizeMode atoms ++ us) := by
  cases atoms with
  | nil => exact hrest
  | cons a atoms =>
      have hjoined := legible_joined (List.cons_ne_nil a atoms) hatoms hapart hcs hrest
      have hempty : ((a :: atoms).flatMap specifiers).isEmpty = false :=
        List.isEmpty_eq_false_iff.2 (flatMap_specifiers_ne_nil (List.cons_ne_nil a atoms))
      rcases joined_head hatoms with ⟨c, ds, hstart, -, htext⟩
      -- A slash alone is a mark, and two would be a comment.
      have hc : c ≠ '/' := by
        rintro rfl
        revert hstart
        decide
      rw [clauseText, hempty, text_joined]
      simp only [Bool.false_eq_true, if_false, String.toList_append, List.append_assoc]
      rw [htext] at hjoined ⊢
      exact .mark (slash_isRead hc _) (by decide) hjoined

end SpecifierAtom

/-! ### Parsing what is printed -/

namespace Parse

open SpecifierAtom (joinedPieces clause specifiers)

variable {env : Env} {depth : Nat} {m : Bool} {us : List Piece} {q : Piece} {a : SpecifierAtom}
  {atoms : List SpecifierAtom}

/-- One atom of a list of specifiers, and the dash behind it. -/
def specifierRound (acc : List String) : Parse (List String ⊕ List String) := do
  let atom ← expect .identifier
  let names ← do
    if ← check .colon then
      let _ ← consume
      let value ← current
      if value.kind = .number || value.kind = .identifier then
        let _ ← consume
        pure (withParam ((splitDashes atom.text.toList).map String.ofList) value.text)
      else throw (.unexpectedToken "specifier value" value)
    else pure ((splitDashes atom.text.toList).map String.ofList)
  if ← check .minus then
    let _ ← consume
    return .inl (acc ++ names)
  else return .inr (acc ++ names)

theorem specifierList_eq (start : List String) :
    specifierList start = loop start specifierRound := rfl

/-- An atom has its specifiers, and whether there is another one depends on what is behind. In
    either mode the atom is read in one round, as one that fits size mode has no dash in it. -/
theorem Consumes.specifierRound {acc : List String} {us' : List Piece}
    {V : List String ⊕ List String → Prop} (ha : a.Fits m) (hq : q.Suits m)
    (hcolon : q.kind ≠ .colon)
    (hdash : q.kind = .minus → Consumes env depth m (q :: us) m us'
      (do let _ ← consume; return .inl (acc ++ a.specifiers)) V)
    (hlast : q.kind ≠ .minus → Consumes env depth m (q :: us) m us'
      (pure (.inr (acc ++ a.specifiers))) V) :
    Consumes env depth m (a.pieces m ++ q :: us) m us' (specifierRound acc) V := by
  have hname : (Piece.name m a.name).kind = .identifier := ha.plain.isIdentifier
  -- Behind the atom and its parameter the round depends only on whether a dash follows.
  have hspecifiers : ∀ names, names = a.specifiers →
      Consumes env depth m (q :: us) m us' (do
        if ← check .minus then
          let _ ← consume
          return .inl (acc ++ names)
        else return .inr (acc ++ names)) V := by
    rintro _ rfl
    exact .ite_check .minus hq hdash hlast
  have hpieces : a.pieces m ++ q :: us = .name m a.name :: (a.pieces m).tail ++ q :: us := by
    unfold SpecifierAtom.pieces
    cases a.param <;> rfl
  rw [hpieces, List.cons_append]
  refine (consumes_expect (Piece.suits_name _ _) hname (by decide)).bind fun t ht => ?_
  have htext : t.text = a.name := ht.text
  rw [htext]
  unfold SpecifierAtom.pieces
  unfold SpecifierAtom.specifiers at hspecifiers
  -- With a parameter there are two more tokens in the same round.
  cases hparam : a.param with
  | none =>
      rw [hparam] at hspecifiers
      exact .ite_check .colon hq (fun heq => absurd heq hcolon)
        fun _ => Consumes.bind (V := (· = a.names)) (consumes_pure rfl) hspecifiers
  | some param =>
      rw [hparam] at hspecifiers
      have hfits := ha.param param hparam
      have hsuits : (param.piece m).Suits m := by
        cases param with
        | number raw => exact Piece.suits_fixed _ _
        | name s => exact Piece.suits_name _ _
      have hkind : (param.piece m).kind = .number ∨ (param.piece m).kind = .identifier := by
        cases param with
        | number raw => exact .inl rfl
        | name s => exact .inr hfits.1.isIdentifier
      refine .ite_check .colon (Piece.suits_mark _ _ _) (fun _ => ?_) fun hne => absurd rfl hne
      refine (consumes_consume (Piece.suits_mark _ _ _) (by decide)).bind fun _ _ => ?_
      refine (consumes_current hsuits).bind fun v hv => ?_
      have hvalue : (decide (v.kind = .number) || decide (v.kind = .identifier)) = true := by
        rw [Bool.or_eq_true, decide_eq_true_eq, decide_eq_true_eq, hv.kind]
        exact hkind
      have hvtext : v.text = param.text := by
        rw [hv.text]
        cases param <;> rfl
      rw [if_pos hvalue, hvtext]
      refine (consumes_consume hsuits ?_).bind fun _ _ =>
        Consumes.bind (V := (· = withParam a.names param.text)) (consumes_pure rfl) hspecifiers
      rcases hkind with hkind | hkind <;> rw [hkind] <;> decide

/-- Atoms that dashes join are one list of specifiers. -/
theorem consumes_specifierList (hne : atoms ≠ []) (hatoms : ∀ a ∈ atoms, a.Fits m)
    (hq : q.Suits m) (hcolon : q.kind ≠ .colon) (hminus : q.kind ≠ .minus)
    (start : List String) :
    Consumes env depth m (joinedPieces m atoms ++ q :: us) m (q :: us) (specifierList start)
      (· = start ++ atoms.flatMap specifiers) := by
  rw [specifierList_eq]
  refine .loop ?_
  -- One round for each atom. The dash behind it was taken in that round unless it is the last.
  induction atoms generalizing start with
  | nil => exact absurd rfl hne
  | cons a atoms ih =>
      intro n hn
      obtain ⟨n, rfl⟩ : ∃ k, n = k + 1 := ⟨n - 1, by omega⟩
      have ha := hatoms a List.mem_cons_self
      cases atoms with
      | nil =>
          refine .iterate_done (.specifierRound ha hq hcolon (fun heq => absurd heq hminus)
            fun _ => consumes_pure ⟨_, rfl, ?_⟩)
          rw [List.flatMap_singleton]
      | cons b atoms =>
          rw [SpecifierAtom.joinedPieces_cons, List.append_assoc] at hn ⊢
          have hrest : ∀ next, next = start ++ a.specifiers →
              Consumes env depth m (joinedPieces m (b :: atoms) ++ q :: us) m (q :: us)
                (iterate specifierRound n next)
                (· = start ++ (a :: b :: atoms).flatMap specifiers) := by
            rintro _ rfl
            rw [List.flatMap_cons, ← List.append_assoc]
            refine ih (List.cons_ne_nil b atoms) (fun c hc => hatoms c (List.mem_cons_of_mem _ hc))
              (start ++ a.specifiers) n ?_
            simp only [List.length_append, List.length_cons] at hn ⊢
            omega
          refine .iterate_next ?_ hrest
          refine .specifierRound ha (Piece.suits_mark _ _ _) (by decide) (fun _ => ?_)
            fun hne => absurd rfl hne
          exact (consumes_consume (Piece.suits_mark _ _ _) (by decide)).bind
            fun _ _ => consumes_pure ⟨_, rfl, rfl⟩

/-- Behind lists of specifiers stands a slash or what follows all of them. -/
theorem lists_head (groups : List (List SpecifierAtom)) (q : Piece) (us : List Piece) :
    ∃ p vs, groups.flatMap (clause m) ++ q :: us = p :: vs ∧ (p = .mark .slash "/" ∨ p = q) := by
  induction groups with
  | nil => exact ⟨q, us, rfl, .inr rfl⟩
  | cons atoms groups ih =>
      cases atoms with
      | nil => exact ih
      | cons a atoms => exact ⟨_, _, rfl, .inl rfl⟩

/-- Lists of specifiers are parsed into the specifiers of all their atoms, however these are
    divided into lists. -/
theorem consumes_specifierLists {groups : List (List SpecifierAtom)}
    (hatoms : ∀ atoms ∈ groups, ∀ a ∈ atoms, a.Fits m) (hq : q.Suits m)
    (hcolon : q.kind ≠ .colon) (hminus : q.kind ≠ .minus) (hslash : q.kind ≠ .slash) :
    Consumes env depth m (groups.flatMap (clause m) ++ q :: us) m (q :: us) specifierLists
      (· = groups.flatten.flatMap specifiers) := by
  -- The loop of the parser, named so that the induction can speak of its rounds.
  let round : List String → Parse (List String ⊕ List String) := fun acc => do
    if ← check .slash then
      let _ ← consume
      return .inl (← specifierList acc)
    else return .inr acc
  have hrounds : ∀ (start : List String) n, (groups.flatMap (clause m) ++ q :: us).length < n →
      Consumes env depth m (groups.flatMap (clause m) ++ q :: us) m (q :: us)
        (iterate round n start) (· = start ++ groups.flatten.flatMap specifiers) := by
    induction groups with
    | nil =>
        intro start n hn
        obtain ⟨n, rfl⟩ : ∃ k, n = k + 1 := ⟨n - 1, by omega⟩
        exact .iterate_done (.ite_check .slash hq (fun heq => absurd heq hslash)
          fun _ => consumes_pure ⟨_, rfl, (List.append_nil start).symm⟩)
    | cons atoms groups ih =>
        intro start n hn
        have hrest := ih fun group hgroup => hatoms group (List.mem_cons_of_mem _ hgroup)
        -- A list without atoms is not written, so it takes no round.
        cases atoms with
        | nil => exact hrest start n hn
        | cons a atoms =>
            have hfits := hatoms (a :: atoms) List.mem_cons_self
            obtain ⟨n, rfl⟩ : ∃ k, n = k + 1 := ⟨n - 1, by omega⟩
            rw [List.flatMap_cons, List.append_assoc] at hn ⊢
            rw [List.length_append] at hn
            have hclause : 0 < (clause m (a :: atoms)).length := Nat.succ_pos _
            have hmore := hrest (start ++ (a :: atoms).flatMap specifiers) n (by omega)
            rw [List.append_assoc, ← List.flatMap_append] at hmore
            refine .iterate_next ?_ fun names
              (hnames : names = start ++ (a :: atoms).flatMap specifiers) => hnames ▸ hmore
            -- What stands behind a list is a slash or what follows all lists, and neither goes on
            -- with it.
            rcases lists_head (m := m) groups q us with ⟨p, vs, hhead, hp⟩
            have hother : p.Suits m ∧ p.kind ≠ .colon ∧ p.kind ≠ .minus := by
              rcases hp with rfl | rfl
              · exact ⟨Piece.suits_mark _ _ _, by decide, by decide⟩
              · exact ⟨hq, hcolon, hminus⟩
            rw [hhead]
            refine .ite_check .slash (Piece.suits_mark _ _ _) (fun _ => ?_) fun hne =>
              absurd rfl hne
            refine (consumes_consume (Piece.suits_mark _ _ _) (by decide)).bind fun _ _ => ?_
            refine (consumes_specifierList (List.cons_ne_nil a atoms) hfits hother.1 hother.2.1
              hother.2.2 start).bind ?_
            exact fun names hnames => consumes_pure ⟨_, rfl, hnames⟩
  exact .loop fun n hn => hrounds [] n hn

end Parse

end PolyScript
