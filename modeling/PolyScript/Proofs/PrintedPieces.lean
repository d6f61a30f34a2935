import PolyScript.Proofs.Specifiers

/-!
# Printed Expressions as Pieces

The pieces that a printed expression is read as, and how they begin. Most of what is printed
between two parts of an expression is a symbol or a space, in front of which every name and
number is over, and behind which anything can stand. So a text is put together from texts that
have to be over (`Lexer.Prints`), texts that are over whatever follows (`Lexer.Shuts`) and texts
that let another one be over in front of them (`Lexer.Divides`).

A part of a list is read in the mode that the parts before it leave (`Listed`).

## Main definitions

* `Lexer.Shuts`, `Lexer.Divides`: Texts that something follows, or that something comes before.
* `Listed`: The pieces of a list with commas.
* `Parse.Heads`: How the pieces of an expression begin.
* `PrintsAs`: The pieces of a printed expression.

## Theorems

* `Listed.prints`: A list is printed as its pieces.
* `printsAs_literal`, `printsAs_binary`, `printsAs_ternary` and so on: One case for each construct.
-/

namespace PolyScript

open SourcePrinter (joinWith plain)

/-! ### Texts that are put together -/

namespace Lexer

variable {s t u : List Char} {ps qs rs : List Piece}

/-- A text is read as pieces whatever stands behind it. -/
def Shuts (text : List Char) (ps : List Piece) : Prop :=
  ∀ cs us, Legible cs us → Legible (text ++ cs) (ps ++ us)

/-- In addition words are over in front of it. -/
structure Divides (text : List Char) (ps : List Piece) : Prop where
  shuts : Shuts text ps
  wordsOver : ∀ cs, Over (text ++ cs)

/-- A text is read as pieces where words are over behind it, and then they are over in front of
    it, too. -/
structure Trails (text : List Char) (ps : List Piece) : Prop where
  prints : Prints text ps
  wordsOver : ∀ cs, Over cs → Over (text ++ cs)

theorem Shuts.prints (h : Shuts s ps) : Prints s ps := fun cs us _ => h cs us

theorem Shuts.append (h : Shuts s ps) (h' : Shuts t qs) : Shuts (s ++ t) (ps ++ qs) := by
  intro cs us hcs
  rw [List.append_assoc, List.append_assoc]
  exact h _ _ (h' _ _ hcs)

theorem Shuts.then (h : Shuts s ps) (h' : Prints t qs) : Prints (s ++ t) (ps ++ qs) := by
  intro cs us hover hcs
  rw [List.append_assoc, List.append_assoc]
  exact h _ _ (h' _ _ hover hcs)

theorem Prints.divided (h : Prints s ps) (h' : Divides t qs) : Shuts (s ++ t) (ps ++ qs) := by
  intro cs us hcs
  rw [List.append_assoc, List.append_assoc]
  exact h _ _ (h'.wordsOver cs) (h'.shuts _ _ hcs)

theorem Prints.trailed (h : Prints s ps) (h' : Trails t qs) : Prints (s ++ t) (ps ++ qs) := by
  intro cs us hover hcs
  rw [List.append_assoc, List.append_assoc]
  exact h _ _ (h'.wordsOver cs hover) (h'.prints _ _ hover hcs)

theorem Trails.append (h : Trails s ps) (h' : Trails t qs) : Trails (s ++ t) (ps ++ qs) where
  prints := h.prints.trailed h'
  wordsOver cs hcs := by
    rw [List.append_assoc]
    exact h.wordsOver _ (h'.wordsOver cs hcs)

/-- A text between two others, in front of the second of which words are over. -/
theorem Prints.between (h : Prints s ps) (ht : Divides t qs) (hu : Prints u rs) :
    Prints (s ++ t ++ u) (ps ++ qs ++ rs) := (h.divided ht).then hu

theorem Prints.enclosed (hs : Shuts s ps) (h : Prints t qs) (hu : Divides u rs) :
    Shuts (s ++ t ++ u) (ps ++ qs ++ rs) := (hs.then h).divided hu

theorem Divides.append (h : Divides s ps) (h' : Shuts t qs) : Divides (s ++ t) (ps ++ qs) where
  shuts := h.shuts.append h'
  wordsOver cs := by
    rw [List.append_assoc]
    exact h.wordsOver _

/-- One space. -/
theorem divides_space : Divides [' '] [] where
  shuts _ _ hcs := hcs.space
  wordsOver _ := over_mark (by decide) (by decide) (by decide)

/-- A symbol that begins no longer one, other than a dash or a dot. -/
theorem divides_mark {text : String} {kind : Kind} {c : Char} (htext : text.toList = [c])
    (hread : ∀ cs, (Word.verbatim kind text).IsRead cs)
    (hkind : kind ∈ Kind.symbols.map Prod.snd) (hpart : isNamePart c = false)
    (hother : c ≠ '-' ∧ c ≠ '.') : Divides text.toList [.mark kind text] where
  shuts _ _ hcs := .mark (hread _) hkind hcs
  wordsOver _ := by
    rw [htext]
    exact over_mark hpart hother.1 hother.2

theorem IsMark.divides {text : String} {kind : Kind} (h : IsMark text kind) :
    Divides text.toList [.mark kind text] := by
  have hread := h.isRead
  cases h
  all_goals exact divides_mark rfl hread (by decide) (by decide) (by decide)

theorem divides_question : Divides "?".toList [.mark .question "?"] :=
  divides_mark rfl question_isRead (by decide) (by decide) (by decide)

theorem shuts_bitOpen : Shuts "<<".toList [.mark .bitOpen "<<"] := fun _ _ hcs =>
  .mark (Spells.isRead ⟨fun _ => rfl, fun _ => rfl⟩ (by decide)) (by decide) hcs

theorem divides_bitClose : Divides ">>".toList [.mark .bitClose ">>"] where
  shuts _ _ hcs := .mark (Spells.isRead ⟨fun _ => rfl, fun _ => rfl⟩ (by decide)) (by decide) hcs
  wordsOver _ := over_mark (c := '>') (by decide) (by decide) (by decide)

/-- An operator between spaces. -/
theorem divides_operator (op : BinaryOp) :
    Divides (" " ++ op.symbol ++ " ").toList [.mark op.kind op.symbol] where
  shuts cs us hcs := by
    have hkind : op.kind ∈ Kind.symbols.map Prod.snd := by cases op <;> decide
    have hread := Legible.mark (binaryOp_isRead op cs) hkind hcs.space
    have htext : (" " ++ op.symbol ++ " ").toList ++ cs =
        ' ' :: (op.symbol.toList ++ ' ' :: cs) := by
      simp [String.toList_append]
    rw [htext]
    exact hread.space
  wordsOver cs := by
    rw [String.append_assoc, String.toList_append, List.append_assoc]
    exact divides_space.wordsOver _

/-! ### Names after dots -/

/-- A name that can be read in a mode. -/
structure Suited (sizeMode : Bool) (name : String) : Prop where
  isName : IsName name.toList
  undashed : sizeMode = true → '-' ∉ name.toList

variable {m : Bool} {name : String} {names : List String}

theorem Suited.prints (h : Suited m name) : Prints name.toList [.name m name] :=
  fun _ _ hover hcs => .piece (isRead_name h.isName h.undashed (hover.nameOver m)) hcs

theorem IsName.starts {name : String} (h : IsName name.toList) :
    ∃ c cs, name.toList = c :: cs ∧ c ≠ '>' ∧ c ≠ '=' := by
  rcases h.cons with ⟨c, cs, hchars, hstart⟩
  refine ⟨c, cs, hchars, ?_, ?_⟩ <;>
    · rintro rfl
      revert hstart
      decide

/-- The names of a dotted chain, each behind its dot. -/
def memberText (names : List String) : List Char := names.flatMap fun name => '.' :: name.toList

/-- What they are read as. -/
def memberPieces (m : Bool) (names : List String) : List Piece :=
  names.flatMap fun name => [.mark .dot ".", .name m name]

/-- The text of a dotted path is printed as its pieces, a dot and a name for each step. -/
theorem trails_members (hnames : ∀ name ∈ names, Suited m name) :
    Trails (memberText names) (memberPieces m names) := by
  induction names with
  | nil => exact ⟨fun _ _ _ hcs => hcs, fun _ hover => hover⟩
  | cons name names ih =>
      have hname := hnames name List.mem_cons_self
      have hrest := ih fun n hn => hnames n (List.mem_cons_of_mem name hn)
      rcases hname.isName.cons with ⟨c, ds, hchars, hstart⟩
      constructor
      -- A dot opens each member, and a name stands behind it.
      · intro cs us hover hcs
        have hlegible := hname.prints _ _ (hrest.wordsOver cs hover) (hrest.prints cs us hover hcs)
        have hc : c ≠ '.' := by
          rintro rfl
          revert hstart
          decide
        rw [hchars] at hlegible
        rw [memberText, memberPieces, List.flatMap_cons, List.flatMap_cons, hchars]
        simpa [memberText, memberPieces] using
          Legible.mark (dot_isRead hc (ds ++ (memberText names ++ cs))) (by decide) hlegible
      · intro cs _
        rw [memberText, List.flatMap_cons, hchars]
        exact over_field hstart

theorem memberText_eq (hnames : names ≠ []) :
    memberText names = ("." ++ joinWith "." names).toList := by
  induction names with
  | nil => exact absurd rfl hnames
  | cons name names ih =>
      cases names with
      | nil => simp [memberText, joinWith, String.toList_append]
      | cons second names =>
          have hrest := ih (List.cons_ne_nil second names)
          rw [memberText, List.flatMap_cons, ← memberText, hrest,
            joinWith_cons "." name (List.cons_ne_nil second names)]
          simp [String.toList_append]

theorem intercalate_eq (separator : String) (names : List String) :
    String.intercalate separator names = joinWith separator names := by
  induction names with
  | nil => rfl
  | cons name names ih =>
      cases names with
      | nil => rfl
      | cons second names =>
          rw [String.intercalate_cons_cons, ih, joinWith_cons _ _ (List.cons_ne_nil second names)]

end Lexer

/-! ### Lists -/

/-- The pieces of a list with commas. Each item is read in the mode that the items before it
    leave. -/
inductive Listed {α : Type} (R : α → Bool → List Piece → Bool → Prop) :
    List α → Bool → List Piece → Bool → Prop
  | nil {m : Bool} : Listed R [] m [] m
  | one {a : α} {m m' : Bool} {ps : List Piece} : R a m ps m' → Listed R [a] m ps m'
  | more {a b : α} {as : List α} {m m' m'' : Bool} {ps qs : List Piece} : R a m ps m' →
    Listed R (b :: as) m' qs m'' → Listed R (a :: b :: as) m (ps ++ .mark .comma "," :: qs) m''

section

variable {α : Type} {R R' : α → Bool → List Piece → Bool → Prop} {as : List α} {a : α}
  {m m' m'' : Bool} {ps qs : List Piece}

/-- The pieces of an item are some of the pieces of the list. -/
theorem Listed.imp (h : Listed R as m ps m')
    (himp : ∀ a m qs m', qs.length ≤ ps.length → R a m qs m' → R' a m qs m') :
    Listed R' as m ps m' := by
  induction h with
  | nil => exact .nil
  | one ha => exact .one (himp _ _ _ _ (Nat.le_refl _) ha)
  | more ha _ ih =>
      refine .more (himp _ _ _ _ ?_ ha) (ih fun a m qs m' hle => himp a m qs m' ?_)
      · rw [List.length_append]
        omega
      · rw [List.length_append, List.length_cons]
        omega

/-- One more item at the end. -/
theorem Listed.concat (h : Listed R as m ps m') (ha : R a m' qs m'') :
    ∃ rs, Listed R (as ++ [a]) m rs m'' := by
  induction h with
  | nil => exact ⟨qs, .one ha⟩
  | one hfirst => exact ⟨_, .more hfirst (.one ha)⟩
  | more hfirst _ ih =>
      rcases ih ha with ⟨rs, hrest⟩
      exact ⟨_, .more hfirst hrest⟩

/-- A list is printed as its pieces. -/
theorem Listed.prints (h : Listed R as m ps m') {text : α → String}
    (hitem : ∀ a m qs m', R a m qs m' → Lexer.Prints (text a).toList qs) :
    Lexer.Prints (joinWith ", " (as.map text)).toList ps := by
  induction h with
  | nil => exact fun _ _ _ hcs => hcs
  | one ha => exact hitem _ _ _ _ ha
  | @more a b as _ _ _ ps qs ha hrest ih =>
      have hcomma := (hitem _ _ _ _ ha).between
        (Lexer.IsMark.comma.divides.append Lexer.divides_space.shuts) ih
      have htext : (joinWith ", " ((a :: b :: as).map text)).toList =
          (text a).toList ++ (",".toList ++ [' ']) ++
            (joinWith ", " ((b :: as).map text)).toList := by
        rw [List.map_cons, joinWith_cons _ _ (by simp)]
        simp [String.toList_append]
      rw [htext]
      simpa using hcomma

end

/-! ### How pieces begin -/

namespace Parse

/-- The kinds of the pieces that expressions and the values of segments begin with. -/
def beginsExpression : Kind → Bool
  | .number | .string | .identifier | .language | .underscore | .kwTrue | .kwFalse | .kwNil
  | .leftParen | .leftBracket | .bitOpen | .plus | .minus | .bang | .tilde | .atSign => true
  | _ => false

/-- The first piece can be read in the mode, and is one that expressions begin with. -/
def Begins (m : Bool) (ps : List Piece) : Prop :=
  ∃ p us, ps = p :: us ∧ p.Suits m ∧ beginsExpression p.kind = true

/-- The pieces of an expression are a name or a literal alone, which leaves the mode as it is,
    or they begin with something else or go on where an argument would be over. -/
inductive Heads (m : Bool) (e : Expr) : List Piece → Bool → Prop
  | alone {p : Piece} : p.Suits m → IsAtom e p.word → Heads m e [p] m
  | joined {p : Piece} {us : List Piece} {m' : Bool} : p.Suits m →
    beginsExpression p.kind = true →
    (p.kind ≠ .identifier ∧ p.kind.isLiteral = false ∨
      ∃ q vs, us = q :: vs ∧ q.mode = none ∧ endsArgument q.kind = false) →
    Heads m e (p :: us) m'

variable {m m' m'' : Bool} {e e' : Expr} {ps us : List Piece} {p q : Piece}

theorem Heads.begins (h : Heads m e ps m') : Begins m ps := by
  cases h with
  | @alone p hsuits hatom =>
      refine ⟨p, [], rfl, hsuits, ?_⟩
      rcases hatom with ⟨_, _, -, hword⟩ | hliteral
      · rw [Piece.kind, hword]
        rfl
      · generalize hword : p.word = w at hliteral
        rw [Piece.kind, hword]
        cases hliteral <;> rfl
  | joined hsuits hbegins => exact ⟨_, _, rfl, hsuits, hbegins⟩

theorem Begins.append (h : Begins m ps) (us : List Piece) : Begins m (ps ++ us) := by
  rcases h with ⟨p, vs, rfl, hsuits, hbegins⟩
  exact ⟨p, vs ++ us, rfl, hsuits, hbegins⟩

/-- Something behind an expression, at which no argument is over. -/
theorem Heads.append (h : Heads m e ps m') (hq : q.mode = none)
    (hends : endsArgument q.kind = false) (us : List Piece) :
    Heads m e' (ps ++ q :: us) m'' := by
  have hbegins := h.begins
  cases h with
  | alone hsuits =>
      rcases hbegins with ⟨_, _, heq, _, hkind⟩
      cases heq
      exact .joined hsuits hkind (.inr ⟨q, us, rfl, hq, hends⟩)
  | joined hsuits hkind hjoined =>
      refine .joined hsuits hkind (hjoined.imp_right ?_)
      rintro ⟨v, vs, rfl, hv⟩
      exact ⟨v, _, rfl, hv⟩

end Parse

open Parse Lexer

/-- The pieces of a printed expression, and the first character of its text, which does not
    prolong a prefix operator. -/
structure PrintsAs (m : Bool) (e : Expr) (ps : List Piece) (m' : Bool) : Prop where
  prints : Prints (plain.expr e).toList ps
  starts : ∃ c cs, (plain.expr e).toList = c :: cs ∧ c ≠ '>' ∧ c ≠ '='
  heads : Heads m e ps m'

/-! ### One case for each construct -/

variable {m m' m'' : Bool} {e : Expr} {ps qs rs : List Piece} {p : Position}

/-- The first character of a text is that of its first part. -/
theorem starts_append {s t : String} (h : ∃ c cs, s.toList = c :: cs ∧ c ≠ '>' ∧ c ≠ '=') :
    ∃ c cs, (s ++ t).toList = c :: cs ∧ c ≠ '>' ∧ c ≠ '=' := by
  rcases h with ⟨c, cs, hs, hc⟩
  exact ⟨c, cs ++ t.toList, by rw [String.toList_append, hs, List.cons_append], hc⟩

theorem printsAs_name {name : String} (hname : Suited m name)
    (hkind : Kind.ofWord name = .identifier) :
    PrintsAs m (.identifier name p) [.name m name] m where
  prints := hname.prints
  starts := hname.isName.starts
  heads := by
    refine .alone (Piece.suits_name _ _) (.inl ⟨name, p, rfl, ?_⟩)
    rw [Piece.name, hkind]

/-- The name that a pattern gives to what it does not name. -/
theorem printsAs_underscore : PrintsAs m (.identifier "_" p) [.name m "_"] m := by
  have hname : Suited m "_" := ⟨⟨by decide, by decide⟩, fun _ => by decide⟩
  have hkind : (Piece.name m "_").kind = .underscore := rfl
  refine ⟨hname.prints, hname.isName.starts, .joined (Piece.suits_name _ _) ?_ (.inl ?_)⟩
  · rw [hkind]
    rfl
  · rw [hkind]
    decide

/-- Numbers and strings do not begin as names do. -/
theorem Lexer.IsLexeme.not_nameStart {w : Word} (h : IsLexeme w)
    (hkind : w.kind = .number ∨ w.kind = .string) :
    w.spelling.head?.any isNameStart = false := by
  cases hchars : w.spelling with
  | nil => rfl
  | cons c cs =>
      by_contra hstart
      rw [Bool.not_eq_false] at hstart
      have hscanned := h.scanned Position.start
      rw [hchars, scanToken_word hstart, Prod.mk.injEq] at hscanned
      have hword := congrArg Token.kind (Except.ok.inj hscanned.1)
      change Kind.ofWord _ = w.kind at hword
      have hmem := ofWord_mem (String.ofList (splitWord false (c :: cs)).1)
      rw [hword] at hmem
      rcases hkind with hkind | hkind <;>
        · rw [hkind] at hmem
          revert hmem
          decide

/-- A literal is one word, in either mode. -/
theorem printsAs_literal (h : IsParsedLiteral e) :
    ∃ w, LiteralWord e w ∧ ∀ m, PrintsAs m e [.fixed w] m := by
  have hword : ∃ w, LiteralWord e w ∧ IsLexeme w := by
    cases h with
    | number hraw hvalue => exact ⟨_, .number hvalue, isLexeme_numeral hraw⟩
    | other _ hword hlexeme => exact ⟨_, hword, hlexeme⟩
  rcases hword with ⟨w, hword, hlexeme⟩
  -- No literal that begins as a name does has a dash.
  have hdash : w.spelling.head?.any isNameStart = true → '-' ∉ w.spelling := by
    intro hstart
    cases hword with
    | number => exact absurd (hstart.symm.trans (hlexeme.not_nameStart (.inl rfl))) nofun
    | string => exact absurd (hstart.symm.trans (hlexeme.not_nameStart (.inr rfl))) nofun
    | true => decide
    | false => decide
    | nil => decide
  have htext : (plain.expr e).toList = w.spelling := by cases hword <;> rfl
  have hstarts : ∃ c cs, w.spelling = c :: cs ∧ c ≠ '>' ∧ c ≠ '=' := by
    have hopens := hlexeme.starts
    cases hspelling : w.spelling with
    | nil =>
        rw [hspelling] at hopens
        cases hopens
    | cons c cs =>
        rw [hspelling] at hopens
        have hopens : opensWord c = true := hopens
        refine ⟨c, cs, rfl, ?_, ?_⟩ <;>
          · rintro rfl
            revert hopens
            decide
  refine ⟨w, hword, fun m => ⟨?_, htext ▸ hstarts, .alone (Piece.suits_fixed _ _) (.inr hword)⟩⟩
  rw [htext]
  exact fun _ _ hover hcs => .piece (hlexeme.isRead_fixed hdash hover) hcs

/-- Something that begins with a symbol of its own and is over whatever follows. -/
theorem printsAs_enclosed {text : String} {kind : Kind} {us : List Piece} {c : Char}
    {cs : List Char} (hprints : Prints (plain.expr e).toList (.mark kind text :: us))
    (hstarts : (plain.expr e).toList = c :: cs) (hc : c ≠ '>' ∧ c ≠ '=')
    (hkind : beginsExpression kind = true) (hother : kind ≠ .identifier ∧ kind.isLiteral = false) :
    PrintsAs m e (.mark kind text :: us) m' where
  prints := hprints
  starts := ⟨c, cs, hstarts, hc⟩
  heads := .joined (Piece.suits_mark _ _ _) hkind (.inl hother)

theorem printsAs_grouped (h : Prints (plain.expr e).toList ps) :
    PrintsAs m (.grouped e p)
        (.mark .leftParen "(" :: (ps ++ [Piece.mark .rightParen ")"])) m' := by
  have htext : (plain.expr (.grouped e p)).toList =
      "(".toList ++ (plain.expr e).toList ++ ")".toList := by
    simp [SourcePrinter.plain_grouped, SourcePrinter.parens, String.toList_append]
  refine printsAs_enclosed (c := '(') ?_ (by rw [htext]; rfl) (by decide) (by decide) (by decide)
  rw [htext]
  exact (Prints.enclosed IsMark.opening.divides.shuts h IsMark.closing.divides).prints

section

variable {R : Expr → Bool → List Piece → Bool → Prop} {es : List Expr}
  (hR : ∀ e m qs m', R e m qs m' → PrintsAs m e qs m')

include hR

theorem prints_exprs (h : Listed R es m ps m') :
    Prints (joinWith ", " (plain.exprs es)).toList ps := by
  rw [SourcePrinter.exprs_eq]
  exact h.prints fun e m qs m' he => (hR e m qs m' he).prints

theorem printsAs_array (h : Listed R es m ps m') :
    PrintsAs m (.array es p) (.mark .leftBracket "[" :: (ps ++ [Piece.mark .rightBracket "]"]))
      m' := by
  have htext : (plain.expr (.array es p)).toList =
      "[".toList ++ (joinWith ", " (plain.exprs es)).toList ++ "]".toList := by
    simp [SourcePrinter.expr, String.toList_append]
  refine printsAs_enclosed (c := '[') ?_ (by rw [htext]; rfl) (by decide) (by decide) (by decide)
  rw [htext]
  exact (Prints.enclosed IsMark.bracket.divides.shuts (prints_exprs hR h)
    IsMark.closingBracket.divides).prints

theorem prints_arguments (h : Listed R es m ps m') :
    Divides (SourcePrinter.parens (joinWith ", " (plain.exprs es))).toList
      (.mark .leftParen "(" :: (ps ++ [Piece.mark .rightParen ")"])) := by
  have htext : (SourcePrinter.parens (joinWith ", " (plain.exprs es))).toList =
      "(".toList ++ ((joinWith ", " (plain.exprs es)).toList ++ ")".toList) := by
    simp [SourcePrinter.parens, String.toList_append]
  rw [htext]
  exact IsMark.opening.divides.append ((prints_exprs hR h).divided IsMark.closing.divides)

theorem printsAs_builtinCall {name : String} (hname : Suited m name)
    (hkind : Kind.ofWord name = .identifier) (h : Listed R es m ps m') :
    PrintsAs m (.builtinCall name es p)
      (.name m name :: .mark .leftParen "(" :: (ps ++ [Piece.mark .rightParen ")"])) m' where
  prints := by
    rw [SourcePrinter.expr, String.toList_append]
    exact (hname.prints.divided (prints_arguments hR h)).prints
  starts := starts_append hname.isName.starts
  heads := .joined (Piece.suits_name _ _) (by rw [Piece.kind_name, hkind]; rfl)
    (.inr ⟨_, _, rfl, rfl, rfl⟩)

end

/-- A qualified name is printed as its language and the names of its path, with dots between
    them. -/
theorem printsAs_qualified {language name : String} {path : List String}
    (hlanguage : Suited m language) (hkind : Kind.ofWord language = .language)
    (hnames : ∀ n ∈ path ++ [name], Suited m n) :
    PrintsAs m (.qualified language path name p)
      (.name m language :: memberPieces m (path ++ [name])) m where
  prints := by
    have htext : (plain.expr (.qualified language path name p)).toList =
        language.toList ++ memberText (path ++ [name]) := by
      rw [memberText_eq (by simp), SourcePrinter.expr]
      simp only [String.toList_append, List.append_assoc]
    rw [htext]
    exact hlanguage.prints.trailed (trails_members hnames)
  starts := by
    rw [SourcePrinter.expr]
    exact starts_append (starts_append hlanguage.isName.starts)
  heads := by
    refine .joined (Piece.suits_name _ _) ?_ (.inl ?_)
    · rw [Piece.kind_name, hkind]
      rfl
    · rw [Piece.kind_name, hkind]
      decide

/-- A call of a language is printed as its path and its arguments, in parentheses, each as the
    pieces that it is printed as. -/
theorem printsAs_languageCall {R : Expr → Bool → List Piece → Bool → Prop} {es : List Expr}
    (hR : ∀ e m qs m', R e m qs m' → PrintsAs m e qs m') {language : String} {names : List String}
    (hlanguage : Suited m language) (hkind : Kind.ofWord language = .language)
    (hne : names ≠ []) (hnames : ∀ n ∈ names, Suited m n) (h : Listed R es m ps m') :
    PrintsAs m (.languageCall language (String.intercalate "." names) es p)
      (.name m language :: (memberPieces m names ++
        Piece.mark .leftParen "(" :: (ps ++ [Piece.mark .rightParen ")"]))) m' where
  prints := by
    -- The names behind the language trail it, and the parentheses divide.
    have htext : (plain.expr (.languageCall language (String.intercalate "." names) es p)).toList =
        language.toList ++ memberText names ++
          (SourcePrinter.parens (joinWith ", " (plain.exprs es))).toList := by
      rw [memberText_eq hne, SourcePrinter.expr, intercalate_eq]
      simp only [String.toList_append, List.append_assoc]
    rw [htext]
    exact ((hlanguage.prints.trailed (trails_members hnames)).divided
      (prints_arguments hR h)).prints
  starts := by
    rw [SourcePrinter.expr]
    exact starts_append (starts_append (starts_append hlanguage.isName.starts))
  heads := by
    refine .joined (Piece.suits_name _ _) ?_ (.inl ?_)
    · rw [Piece.kind_name, hkind]
      rfl
    · rw [Piece.kind_name, hkind]
      decide

/-- An index is printed behind its host, in brackets, and ends in the mode in which its place
    does. -/
theorem printsAs_index {host place : Expr} (hhost : PrintsAs m host ps m')
    (hplace : Prints (plain.expr place).toList qs) :
    PrintsAs m (.index host place p)
      (ps ++ Piece.mark .leftBracket "[" :: (qs ++ [Piece.mark .rightBracket "]"])) m'' where
  prints := by
    have htext : (plain.expr (.index host place p)).toList = (plain.expr host).toList ++
        ("[".toList ++ ((plain.expr place).toList ++ "]".toList)) := by
      simp [SourcePrinter.expr, String.toList_append]
    rw [htext]
    exact (hhost.prints.divided (IsMark.bracket.divides.append
      (hplace.divided IsMark.closingBracket.divides))).prints
  starts := by
    rw [SourcePrinter.expr]
    exact starts_append (starts_append (starts_append hhost.starts))
  heads := hhost.heads.append rfl rfl _

/-- A field is printed behind its host, as a dot and its name in the mode that the host
    leaves. -/
theorem printsAs_fieldAccess {host : Expr} {field : String} (hhost : PrintsAs m host ps m')
    (hfield : Suited m' field) :
    PrintsAs m (.fieldAccess host field p) (ps ++ [Piece.mark .dot ".", .name m' field]) m' where
  prints := by
    have htext : (plain.expr (.fieldAccess host field p)).toList =
        (plain.expr host).toList ++ memberText [field] := by
      simp [SourcePrinter.expr, String.toList_append, memberText]
    rw [htext]
    exact hhost.prints.trailed (trails_members (List.forall_mem_singleton.2 hfield))
  starts := by
    rw [SourcePrinter.expr]
    exact starts_append (starts_append hhost.starts)
  heads := hhost.heads.append rfl rfl _

/-- A prefix operator is printed in front of its operand. The operand does not begin with a
    character that would prolong the operator. -/
theorem printsAs_unary {op : UnaryOp} {inner : Expr} (h : PrintsAs m inner ps m') :
    PrintsAs m (.unary op inner p) (.mark op.kind op.symbol :: ps) m' where
  prints := by
    intro cs us hover hcs
    rcases h.starts with ⟨c, ds, hchars, hc⟩
    have hinner := h.prints cs us hover hcs
    have hkind : op.kind ∈ Kind.symbols.map Prod.snd := by cases op <;> decide
    rw [SourcePrinter.expr, String.toList_append, List.append_assoc, hchars]
    rw [hchars] at hinner
    exact .mark (unaryOp_isRead op hc _) hkind hinner
  starts := by
    rw [SourcePrinter.expr]
    refine starts_append ?_
    cases op <;> exact ⟨_, _, rfl, by decide, by decide⟩
  heads := by
    refine .joined (Piece.suits_mark _ _ _) ?_ (.inl ?_) <;> cases op <;> decide

/-- An operator is printed between its sides, with spaces around it, so it fuses with neither. -/
theorem printsAs_binary {op : BinaryOp} {left right : Expr} (hleft : PrintsAs m left ps m')
    (hright : Prints (plain.expr right).toList qs) :
    PrintsAs m (.binary left op right p) (ps ++ Piece.mark op.kind op.symbol :: qs) m'' where
  prints := by
    have htext : (plain.expr (.binary left op right p)).toList = (plain.expr left).toList ++
        (" " ++ op.symbol ++ " ").toList ++ (plain.expr right).toList := by
      simp only [SourcePrinter.expr, SourcePrinter.plain_wrap, String.toList_append,
        List.append_assoc]
    rw [htext]
    simpa using hleft.prints.between (divides_operator op) hright
  starts := by
    rw [SourcePrinter.expr, SourcePrinter.plain_wrap]
    exact starts_append (starts_append (starts_append (starts_append hleft.starts)))
  heads := hleft.heads.append rfl (by cases op <;> rfl) _

/-- The question mark and the colon of a ternary, between spaces. -/
theorem divides_spaced {text : String} {kind : Kind} (h : Divides text.toList [.mark kind text]) :
    Divides (" " ++ text ++ " ").toList [.mark kind text] := by
  have hspaced := divides_space.append (h.shuts.append divides_space.shuts)
  simpa [String.toList_append] using hspaced

/-- A ternary is printed as its three parts around `?` and `:`. The parts follow each other as
    expressions do. -/
theorem printsAs_ternary {condition onTrue onFalse : Expr} (hcondition : PrintsAs m condition ps m')
    (htrue : Prints (plain.expr onTrue).toList qs)
    (hfalse : Prints (plain.expr onFalse).toList rs) :
    PrintsAs m (.ternary condition onTrue onFalse p)
      (ps ++ Piece.mark .question "?" :: (qs ++ Piece.mark .colon ":" :: rs)) m'' where
  prints := by
    have htext : (plain.expr (.ternary condition onTrue onFalse p)).toList =
        (plain.expr condition).toList ++ (" " ++ "?" ++ " ").toList ++
          ((plain.expr onTrue).toList ++ (" " ++ ":" ++ " ").toList ++
            (plain.expr onFalse).toList) := by
      simp [SourcePrinter.expr, SourcePrinter.plain_wrap, String.toList_append]
    have hcolon := htrue.between (divides_spaced IsMark.colon.divides) hfalse
    rw [htext]
    simpa using hcondition.prints.between (divides_spaced divides_question) hcolon
  starts := by
    rw [SourcePrinter.expr, SourcePrinter.plain_wrap]
    exact starts_append (starts_append (starts_append (starts_append hcondition.starts)))
  heads := hcondition.heads.append rfl rfl _

/-- A default is printed behind `?:`, as two pieces that the lexer keeps apart. -/
theorem printsAs_elvis {condition fallback : Expr} (hcondition : PrintsAs m condition ps m')
    (hfallback : Prints (plain.expr fallback).toList qs) :
    PrintsAs m (.elvis condition fallback p)
      (ps ++ Piece.mark .question "?" :: .mark .colon ":" :: qs) m'' where
  prints := by
    have htext : (plain.expr (.elvis condition fallback p)).toList =
        (plain.expr condition).toList ++ ((" " ++ "?" ++ " ").toList ++ (":".toList ++ [' '])) ++
          (plain.expr fallback).toList := by
      simp [SourcePrinter.expr, SourcePrinter.plain_wrap, String.toList_append]
    rw [htext]
    simpa using hcondition.prints.between ((divides_spaced divides_question).append
      (IsMark.colon.divides.append divides_space.shuts).shuts) hfallback
  starts := by
    rw [SourcePrinter.expr, SourcePrinter.plain_wrap]
    exact starts_append (starts_append hcondition.starts)
  heads := hcondition.heads.append rfl rfl _

/-! ### Segments -/

/-- The text of the size of a segment. -/
def SourcePrinter.sizeText : Option Expr → String
  | some e => ":" ++ plain.expr e
  | none => ""

/-- The text of a segment. -/
def SourcePrinter.segmentText (s : BitSegment) : String :=
  plain.expr s.value ++ sizeText s.size ++ SpecifierAtom.clauseText s.specifiers

theorem SourcePrinter.segmentTexts_eq (ss : List BitSegment) :
    plain.segmentTexts ss = ss.map segmentText := by
  induction ss with
  | nil => rfl
  | cons s ss ih =>
      rcases s with ⟨value, size, dynamicSize, specifiers, p⟩
      cases size <;>
        · rw [List.map_cons, ← ih]
          rfl

/-- The pieces of a size, behind its colon. -/
def sizePieces : Option (List Piece) → List Piece
  | some ps => .mark .colon ":" :: ps
  | none => []

theorem SpecifierAtom.trails_clause {atoms : List SpecifierAtom} (hatoms : ∀ a ∈ atoms, a.Fits m)
    (hapart : atoms.IsChain (Apart m)) :
    Trails (clauseText (atoms.flatMap specifiers)).toList (clause m atoms) :=
  ⟨fun _ _ => legible_clause hatoms hapart, fun _ hover => over_clause hover _⟩

open SpecifierAtom in
/-- A segment is printed as its value, its size and its specifiers. -/
theorem prints_segment {s : BitSegment} {sizes : Option (List Piece)}
    {atoms : List SpecifierAtom} (hvalue : Prints (plain.expr s.value).toList ps)
    (hsize : Option.Rel (fun e qs => Prints (plain.expr e).toList qs) s.size sizes)
    (hatoms : ∀ a ∈ atoms, a.Fits m') (hapart : atoms.IsChain (Apart m'))
    (hspecifiers : atoms.flatMap specifiers = s.specifiers) :
    Prints (SourcePrinter.segmentText s).toList (ps ++ (sizePieces sizes ++ clause m' atoms)) := by
  have hclause : Trails (clauseText s.specifiers).toList (clause m' atoms) :=
    hspecifiers ▸ trails_clause hatoms hapart
  have htext : (SourcePrinter.segmentText s).toList = (plain.expr s.value).toList ++
      ((SourcePrinter.sizeText s.size).toList ++ (clauseText s.specifiers).toList) := by
    simp [SourcePrinter.segmentText, String.toList_append]
  rw [htext]
  refine hvalue.trailed ?_
  generalize s.size = size at hsize
  cases hsize with
  | none => exact hclause
  | @some e qs hqs =>
      -- The colon parts the value from its size, whatever the size begins with.
      have hcolon : Trails (":".toList ++ ((plain.expr e).toList ++
          (clauseText s.specifiers).toList)) ([Piece.mark .colon ":"] ++ (qs ++ clause m' atoms)) :=
        ⟨IsMark.colon.divides.shuts.then (hqs.trailed hclause),
          fun cs _ => by rw [List.append_assoc]; exact IsMark.colon.divides.wordsOver _⟩
      simpa [SourcePrinter.sizeText, sizePieces, String.toList_append] using hcolon

/-- A bitstring is printed as its segments between double brackets. -/
theorem printsAs_bitstring {R : BitSegment → Bool → List Piece → Bool → Prop}
    {ss : List BitSegment}
    (hR : ∀ s m qs m', R s m qs m' → Prints (SourcePrinter.segmentText s).toList qs)
    (h : Listed R ss m ps m') :
    PrintsAs m (.bitstring ss p)
        (.mark .bitOpen "<<" :: (ps ++ [Piece.mark .bitClose ">>"])) m' := by
  have htext : (plain.expr (.bitstring ss p)).toList =
      "<<".toList ++ (joinWith ", " (plain.segmentTexts ss)).toList ++ ">>".toList := by
    simp [SourcePrinter.expr, String.toList_append]
  refine printsAs_enclosed (c := '<') ?_ (by rw [htext]; rfl) (by decide) (by decide) (by decide)
  rw [htext, SourcePrinter.segmentTexts_eq]
  exact (Prints.enclosed shuts_bitOpen (h.prints hR) divides_bitClose).prints

end PolyScript
