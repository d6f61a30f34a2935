import PolyScript.Proofs.NextLine

/-!
# Texts One Below the Other

Two texts that parse may be put one below the other. What the first one parses to does
not depend on the lines that follow it, and what the second one parses to is moved, and
is otherwise the same.

The parse of both texts is followed up to the line feed between them with `Excerpt.firstLines`,
and from there on with `Excerpt.lastLines`. In between it depends only on where its
lexer stands: nothing else of the first text is left.

## Main definitions

* `Excerpt.firstLines`: A text that is put before other lines.

## Theorems

* `Parse.rounds_firstLines`: Reading the statements of a text, up to the next line.
* `newline_concatenation`: The program of two texts, one below the other.
-/

namespace PolyScript

open Lexer

/-- A text that is put before other lines. -/
def Excerpt.firstLines {context source : String} {next : List Char}
    (h : context.toList = source.toList ++ '\n' :: next)
    (hfresh : ∀ t lx, (⟨context, skipBlank true false next
      (Position.after (source.toList ++ ['\n'])), false⟩ : Lexer).next = (.ok t, lx) →
      t.kind ≠ .pipe ∧ t.kind ≠ .kwElse) : Excerpt where
  source := source
  context := context
  before := []
  tail := '\n' :: next
  context_eq := h
  lineStart := .inl rfl
  lineEnd := .inr ⟨next, rfl⟩
  fresh := fun rest htail => by
    cases htail
    exact hfresh

namespace Parse

variable {guard : Guard} {context source : String} {next : List Char}

/-- A parse of a text and one of more lines begin in step. -/
theorem abreast_firstLines (h : context.toList = source.toList ++ '\n' :: next)
    (hfresh : ∀ t lx, (⟨context, skipBlank true false next
      (Position.after (source.toList ++ ['\n'])), false⟩ : Lexer).next = (.ok t, lx) →
      t.kind ≠ .pipe ∧ t.kind ≠ .kwElse) (htidy : Tidy source) :
    Abreast (Excerpt.firstLines h hfresh) (State.initial source) (State.initial context) := by
  rcases Tidy.start (e := Excerpt.firstLines h hfresh) htidy ⟨0, false⟩ with ⟨κ, hstart⟩
  refine ⟨Lexer.ofSource source, Lexer.ofSource context, {
    first := State.at_initial source
    second := State.at_initial context
    within := ⟨rfl, [], rfl, rfl⟩
    within' := ⟨rfl, [], rfl, rfl⟩
    retells := retells_of_cursor (.inr ⟨next, rfl⟩) rfl ?_
    sound := State.sound_initial source
    sound' := State.sound_initial context
    clean := watch_clean hstart rfl
    depth := rfl
    loopDepth := rfl
    relaxed := rfl }⟩
  -- The lines are at the start of both texts, so nothing moves.
  rw [moved]
  change (⟨context.toList, Position.start⟩ : Cursor) =
    ⟨source.toList ++ '\n' :: next, Position.start⟩
  rw [h]

/-- The statements of a text are read up to the line that follows it. From there on the
    parse is that of what follows. -/
theorem rounds_firstLines (h : context.toList = source.toList ++ '\n' :: next)
    (hfresh : ∀ t lx, (⟨context, skipBlank true false next
      (Position.after (source.toList ++ ['\n'])), false⟩ : Lexer).next = (.ok t, lx) →
      t.kind ≠ .pipe ∧ t.kind ≠ .kwElse) (htidy : Tidy source) {n n' : Nat} (hle : n ≤ n')
    {as : List Statement} {t : State} (hcode : ∀ a ∈ as, a.hasCode = false)
    (hrounds : Rounds (Grammar.level (Registry.ofSettings Settings.defaults) n)
      ⟨source, .ofList Language.defaults, guard⟩ (State.initial source) as t) :
    ∃ u mx, u.At mx ∧ mx.Within context ∧ u.Sound context ∧
      mx.cursor = skipBlank true false next (Position.after (source.toList ++ ['\n'])) ∧
      mx.sizeMode = false ∧ (State.initial context).Kept u ∧
      ∀ bs v, Rounds (Grammar.level (Registry.ofSettings Settings.defaults) n')
          ⟨context, .ofList Language.defaults, guard⟩ u bs v →
        Rounds (Grammar.level (Registry.ofSettings Settings.defaults) n')
          ⟨context, .ofList Language.defaults, guard⟩ (State.initial context) (as ++ bs) v := by
  have hbuiltin := Registry.isBuiltin_ofSettings Settings.defaults
  have hstep := abreast_firstLines h hfresh htidy
  rcases Tidy.start (e := Excerpt.firstLines h hfresh) htidy guard with ⟨κ, hstart⟩
  have hfrom : Rounds (Grammar.level (Registry.ofSettings Settings.defaults) n)
      ((Excerpt.firstLines h hfresh).first (.ofList Language.defaults) guard)
      (State.initial source) as t := hrounds
  rcases (hstep.rounds (Discipline.keeps_level hbuiltin n)
    (follows_level hbuiltin Registry.nearsighted_defaults n n' hle)
    (Grammar.made_level hbuiltin n') rfl rfl hfrom hcode hstart).2 nofun with
    ⟨u, hbeyond, hkept, hgoes⟩
  rcases hbeyond.reached with ⟨rest, mx, htail, hat, hwithin, hcursor⟩
  cases htail
  -- Size mode is off at the start, and a parse never leaves it on.
  have hmode : mx.sizeMode = false := by
    rw [← hat.mode]
    by_contra hon
    cases hkept.sizeMode (by simpa using hon)
  refine ⟨u, mx, hat, hwithin, hbeyond.sound, hcursor, hmode, hkept, fun bs v hbs => ?_⟩
  have hshift : as.map (Statement.shift (Excerpt.firstLines h hfresh).shift) = as := by
    rw [show (Excerpt.firstLines h hfresh).shift = ⟨0, 0⟩ from rfl]
    exact (List.map_congr_left fun a _ => a.shift_zero).trans (List.map_id as)
  have hboth := hgoes bs v hbs
  rw [hshift] at hboth
  exact hboth

end Parse

/-- Under the default settings, two texts that parse to programs without guest code parse
    to one program when they are put one below the other: the statements of the first
    text and those of the second, moved by the lines and the bytes before it. -/
theorem newline_concatenation (source₁ source₂ : String) (p₁ p₂ : Program)
    (hparse₁ : (Parser.ofSettings Settings.defaults).parse source₁ = .ok p₁)
    (hparse₂ : (Parser.ofSettings Settings.defaults).parse source₂ = .ok p₂)
    (hcode₁ : statementsHaveCode p₁.statements = false)
    (hcode₂ : statementsHaveCode p₂.statements = false) :
    (Parser.ofSettings Settings.defaults).parse (source₁ ++ "\n" ++ source₂) =
      .ok ⟨p₁.statements ++ p₂.statements.map
        (Statement.shift ⟨source₁.toList.count '\n' + 1, source₁.utf8ByteSize + 1⟩)⟩ := by
  have hbuiltin := Registry.isBuiltin_ofSettings Settings.defaults
  have htext : (source₁ ++ "\n" ++ source₂).toList = source₁.toList ++ '\n' :: source₂.toList := by
    simp
  have hsize : (source₁ ++ "\n" ++ source₂).utf8ByteSize =
      source₁.utf8ByteSize + 1 + source₂.utf8ByteSize := by
    rw [String.utf8ByteSize_append, String.utf8ByteSize_append]
    rfl
  generalize source₁ ++ "\n" ++ source₂ = context at htext hsize
  have htidy₁ : Parse.Tidy source₁ := Parse.tidy_of_run hbuiltin rfl hparse₁ hcode₁
  have htidy₂ : Parse.Tidy source₂ := Parse.tidy_of_run hbuiltin rfl hparse₂ hcode₂
  rcases Parse.ok_of_run hparse₁ with ⟨t₁, hprogram₁, -⟩
  rcases Parse.ok_of_run hparse₂ with ⟨t₂, hprogram₂, -⟩
  rcases Parse.rounds_of_program hprogram₁ with ⟨hrounds₁, hlength₁⟩
  rcases Parse.rounds_of_program hprogram₂ with ⟨hrounds₂, hlength₂⟩
  -- The statements of the first text come first, and from where they lead to, those of the
  -- second.
  rcases Parse.rounds_firstLines htext
    (fun t lx hnext => htidy₂.begins htext hrounds₂ rfl rfl hnext)
    htidy₁ (show 4 * source₁.utf8ByteSize + 8 ≤ 4 * context.utf8ByteSize + 8 by omega)
    (statementsHaveCode_eq_false.1 hcode₁) hrounds₁ with
    ⟨u, mx, hat, hwithin, hsound, hcursor, hmode, hkept, hgoes⟩
  rcases Parse.rounds_lastLines htext htidy₂
    (show 4 * source₂.utf8ByteSize + 8 ≤ 4 * context.utf8ByteSize + 8 by omega)
    (statementsHaveCode_eq_false.1 hcode₂) hrounds₂ hat hwithin hsound hcursor hmode hkept with
    ⟨t, hrounds, hclean⟩
  have hboth := hgoes _ _ hrounds
  rw [← byteSize_eq] at hboth
  have hprogram := Parse.program_of_rounds hboth (by
    rw [List.length_append, List.length_map]
    change _ ≤ context.utf8ByteSize + 1
    change _ ≤ source₁.utf8ByteSize + 1 at hlength₁
    change _ ≤ source₂.utf8ByteSize + 1 at hlength₂
    omega)
  have hrun : (Parser.ofSettings Settings.defaults).parse context = _ :=
    Parse.run_of_ok hprogram
  rw [hclean] at hrun
  exact hrun

/-- A conditional looks for its `else` on the next line, and finds a loop. -/
theorem newline_concatenation_conditional :
    let parse := (Parser.ofSettings Settings.defaults).parse
    ∃ p₁ p₂, parse "if a { 1 }" = .ok p₁ ∧ parse "while a { break }" = .ok p₂ ∧
      statementsHaveCode p₁.statements = false ∧ statementsHaveCode p₂.statements = false ∧
      p₂.statements ≠ [] ∧
      parse "if a { 1 }\nwhile a { break }" =
        .ok ⟨p₁.statements ++ p₂.statements.map (Statement.shift ⟨1, 11⟩)⟩ := by
  -- Both programs are evaluated by themselves; that they go together is the general theorem.
  have hfirst : (match (Parser.ofSettings Settings.defaults).parse "if a { 1 }" with
      | .ok p => !statementsHaveCode p.statements
      | .error _ => false) = true := by decide +kernel
  have hsecond : (match (Parser.ofSettings Settings.defaults).parse "while a { break }" with
      | .ok p => !statementsHaveCode p.statements && !p.statements.isEmpty
      | .error _ => false) = true := by decide +kernel
  split at hfirst
  case h_2 => cases hfirst
  case h_1 p₁ hparse₁ =>
    split at hsecond
    case h_2 => cases hsecond
    case h_1 p₂ hparse₂ =>
      simp only [Bool.not_eq_true', Bool.and_eq_true, List.isEmpty_eq_false_iff] at hfirst hsecond
      have hboth := newline_concatenation _ _ p₁ p₂ hparse₁ hparse₂ hfirst hsecond.1
      have htext : "if a { 1 }" ++ "\n" ++ "while a { break }" =
          "if a { 1 }\nwhile a { break }" := by decide +kernel
      have hlines : "if a { 1 }".toList.count '\n' + 1 = 1 := by decide +kernel
      have hbytes : "if a { 1 }".utf8ByteSize + 1 = 11 := by decide +kernel
      rw [htext, hlines, hbytes] at hboth
      exact ⟨p₁, p₂, hparse₁, hparse₂, hfirst, hsecond.1, hsecond.2, hboth⟩

end PolyScript
