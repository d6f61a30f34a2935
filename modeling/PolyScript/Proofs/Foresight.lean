import PolyScript.Proofs.Positions
import PolyScript.Proofs.Standing

/-!
# Lexical Errors Surface

A token that cannot be read counts as the end of the text until the parse is over,
and only then does the error take its place. This works as long as the error is known
by then, and as long as nothing behind it was taken for granted. Both follow from what
is foretold of the text: wherever a parse has come to, what lies ahead of its lexer is
still what was foretold, so a parse that gets to the end of what can be read has come
upon that very error, and one that fails before has failed at an earlier place.

Bit strings are the exception. Behind the size of a segment the tokens ahead are
dropped, and with them the error, if it was known. An error of the parser that stands
at the same place is then reported instead. What is more, an invalid escape stands at
its backslash, and reading resumes there, so that it is found to be a stray character.

The same discipline shows that a text which parses has no lexical error at all, and
that its brackets are balanced.

## Main definitions

* `Lexer.Forecast.Revised`: A forecast, but for an invalid escape.
* `Parse.State.Facing`: What was foretold still lies ahead of a state.
* `Parse.foresight`: The discipline of such states.

## Theorems

* `Parse.program_clean`, `Parse.expressionText_clean`: A text that parses without guest code
  has no lexical error, and its brackets are balanced.
* `lexical_errors_surface`: Which error a text with a lexical error ends in.
* `lexical_error_lost`: A lexical error behind the colon of a segment is not reported.
-/

namespace PolyScript

namespace Lexer

/-! ### Forecasts -/

/-- A forecast after some reading. An invalid escape may have become a stray character
    at the same place. -/
inductive Forecast.Revised (w : Forecast) : Forecast → Prop
  | same : w.Revised w
  | escape {sequence : String} {p : Position} : w.error? = some (.invalidEscape sequence p) →
    w.bits → w.Revised { w with error? := some (.unexpectedCharacter '\\' p) }

namespace Forecast.Revised

variable {w v : Forecast} {e : LexError}

theorem place (h : w.Revised v) (he : w.error? = some e) :
    ∃ e', v.error? = some e' ∧ e'.position = e.position := by
  cases h with
  | same => exact ⟨e, he, rfl⟩
  | escape hescape =>
      rw [hescape] at he
      cases he
      exact ⟨_, rfl, rfl⟩

theorem place_back (h : w.Revised v) (he : v.error? = some e) :
    ∃ e', w.error? = some e' ∧ e'.position = e.position := by
  cases h with
  | same => exact ⟨e, he, rfl⟩
  | escape hescape =>
      cases he
      exact ⟨_, hescape, rfl⟩

theorem none (h : w.Revised v) (hnone : v.error? = none) : w.error? = none := by
  cases h with
  | same => exact hnone
  | escape => cases hnone

/-- Without bit strings a forecast stands. -/
theorem exact (h : w.Revised v) (hbits : ¬w.bits) : v = w := by
  cases h with
  | same => rfl
  | escape _ hsome => exact absurd hsome hbits

theorem tongues (h : w.Revised v) : v.tongues = w.tongues := by cases h <;> rfl

theorem bits (h : w.Revised v) : v.bits = w.bits := by cases h <;> rfl

/-- An invalid escape is found to be a stray character at most once. -/
theorem stray (h : w.Revised v) (hbits : w.bits) {sequence : String} {p : Position}
    (he : v.error? = some (.invalidEscape sequence p)) :
    w.Revised { v with error? := some (.unexpectedCharacter '\\' p) } := by
  cases h with
  | same => exact .escape he hbits
  | escape => cases he

end Forecast.Revised

/-- A word that is read as a plain identifier is none of the reserved words. -/
theorem next_identifier {lx lx' : Lexer} {t : Token} (hnext : lx.next = (.ok t, lx'))
    (ht : t.kind = .identifier) : Kind.ofWord t.text = .identifier := by
  have hsymbols : ∀ s ∈ Kind.symbols, s.2 ≠ .identifier := by decide
  have hscans := scansAs_of_next hnext
  generalize lx.tokenStart.rest = cs at hscans
  generalize lx'.cursor = after at hscans
  cases hscans with
  | word => exact ht
  | endOfInput | newline | string | number => cases ht
  | symbol hsymbol => exact absurd ht (hsymbols _ (mem_of_symbol? hsymbol).1)

end Lexer

/-- A rule never raises a lexical error by itself. -/
theorem ParseError.Ordinary.ne_lexical {P : Position → Prop} {e : ParseError} (h : e.Ordinary P)
    (lex : LexError) : e ≠ .lexical lex := by
  rintro rfl
  exact h.elim

namespace TokenBuffer

open Lexer

variable {b : TokenBuffer} {lx : Lexer} {ts : List Token} {w : Forecast} {n : Int}

/-- A recorded failure is the error that was foretold. -/
theorem Feeds.failure (h : b.Feeds lx ts) (hazy : lx.Hazy w n) {i : Nat} {e : LexError}
    (hfailure : b.failure = some (i, e)) : w.error? = some e := by
  induction h generalizing n with
  | rest _ hnone _ => rw [hnone] at hfailure; cases hfailure
  | token hnext hend _ ih => exact ih (hazy.next_ok hnext hend).1
  | done _ _ _ hnone => rw [hnone] at hfailure; cases hfailure
  | fail hnext _ hsome =>
      rw [hsome] at hfailure
      cases hfailure
      exact (hazy.next_error hnext).1

end TokenBuffer

namespace Parse

open Lexer

/-! ### Facing what was foretold -/

/-- What was foretold of a text still lies ahead of a state. -/
structure State.Facing (w : Forecast) (source : String) (s : State) (lx : Lexer) (v : Forecast)
    (n : Int) : Prop where
  stands : s.At lx
  within : lx.Within source
  revised : w.Revised v
  hazy : lx.Hazy v n
  mode : lx.sizeMode = true → w.bits

namespace State.Facing

variable {w v : Forecast} {source : String} {s t : State} {lx : Lexer} {n : Int} {e : LexError}

theorem reads (h : s.Facing w source lx v n) (hs : s.Sound source) (hreads : s.Reads t) :
    t.Facing w source lx v n := { h with stands := h.stands.reads hs hreads }

/-- An error that is known is the one that was foretold. -/
theorem known (h : s.Facing w source lx v n) (he : s.buffer.lexError? = some e) :
    v.error? = some e := by
  rcases Option.map_eq_some_iff.1 he with ⟨⟨i, e'⟩, hfailure, rfl⟩
  exact TokenBuffer.Feeds.failure h.stands h.hazy hfailure

/-- Only bit strings are read in size mode. -/
theorem mode_bits (h : s.Facing w source lx v n) (hmode : s.buffer.lexer.sizeMode = true) :
    w.bits := h.mode (by rw [← h.stands.mode]; exact hmode)

/-- Taking a token leaves what is foretold behind it. -/
theorem advanced (h : s.Facing w source lx v n) (hs : s.Sound source)
    (hend : s.token.kind ≠ .endOfInput) :
    ∃ lx', lx.next = (.ok s.token, lx') ∧
      s.advanced.Facing w source lx' v (n - s.token.kind.weight) := by
  have hnot : s.token.isEnd = false := by simp [Token.isEnd, hend]
  rcases h.stands.next_of_token hs hend with ⟨lx', hnext⟩
  refine ⟨lx', hnext, h.stands.advanced hs hnext hnot, h.within.next_ok hnext, h.revised,
    (h.hazy.next_ok hnext hnot).1, ?_⟩
  rcases Lexer.next_ok hnext with ⟨hlx, _⟩
  rw [hlx]
  exact h.mode

/-- A token stands before the error that was foretold. -/
theorem place (h : s.Facing w source lx v n) (hs : s.Sound source)
    (hend : s.token.kind ≠ .endOfInput) (he : w.error? = some e) :
    s.token.position.offset < e.position.offset := by
  rcases h.advanced hs hend with ⟨lx', hnext, h'⟩
  rcases h.revised.place he with ⟨e', he', hplace⟩
  rw [← hplace]
  have hbehind := h'.hazy.error_behind h'.within he'
  exact Nat.lt_of_lt_of_le ((Lexer.next_ok hnext).2.2.2.2 (by simp [Token.isEnd, hend])) hbehind

/-- Where no token is left, either the text ends as was foretold, or the error that
    was foretold is known. -/
theorem atEnd (h : s.Facing w source lx v n) (hs : s.Sound source)
    (hend : s.token.kind = .endOfInput) :
    n = 0 ∧ ((w.error? = none ∧ v.error? = none) ∨ ∃ e, v.error? = some e ∧
      s.token.position = e.position ∧ s.filled.buffer.lexError? = some e) := by
  cases hnext : lx.next with
  | mk result lx' =>
  cases result with
  | ok u =>
      have htoken := h.stands.token_ok hs hnext
      have hdone := h.hazy.next_end hnext (by simp [Token.isEnd, ← htoken, hend])
      exact ⟨hdone.2, .inl ⟨h.revised.none hdone.1, hdone.1⟩⟩
  | error e =>
      rcases h.stands.token_error hs hnext with ⟨htoken, i, hfailure⟩
      rcases h.hazy.next_error hnext with ⟨he, hn, _⟩
      refine ⟨hn, .inr ⟨e, he, by rw [htoken]; rfl, ?_⟩⟩
      exact Option.map_eq_some_iff.2 ⟨(i, e), hfailure, rfl⟩

/-- Wandering goes on towards what was foretold. -/
theorem wanders (h : s.Facing w source lx v n) (hs : s.Sound source) (hwanders : s.Wanders t) :
    ∃ lx' n', t.Facing w source lx' v n' := by
  induction hwanders with
  | refl => exact ⟨lx, n, h⟩
  | read hbefore hreads ih =>
      rcases ih with ⟨lx', n', ht⟩
      exact ⟨lx', n', ht.reads (hs.wanders hbefore) hreads⟩
  | @advance u hbefore ih =>
      rcases ih with ⟨lx', n', ht⟩
      have hu := hs.wanders hbefore
      by_cases hend : u.token.kind = .endOfInput
      · have hstay : u.advanced = u.filled := by
          simp only [State.advanced, Token.isEnd, hend, decide_true, if_true]
          rfl
        exact ⟨lx', n', by rw [hstay]; exact ht.reads hu u.reads_filled⟩
      · rcases ht.advanced hu hend with ⟨lx'', _, hnext⟩
        exact ⟨lx'', _, hnext⟩

/-- Switching the mode, which only bit strings do, leaves what is foretold ahead. -/
theorem switched (h : s.Facing w source lx v n) (hs : s.Sound source) (hbits : w.bits)
    (sizeMode : Bool) :
    ∃ lx' v', (switchSizeMode sizeMode s).Facing w source lx' v' n ∧
      lx'.sizeMode = sizeMode := by
  rcases h.stands.switched hs h.within sizeMode with
    hat | ⟨sequence, p, lx', mx, rest, hnext, hat, hwithin, hmode, hcursor⟩
  · exact ⟨_, v, ⟨hat, h.within, h.revised, h.hazy.switched sizeMode, fun _ => hbits⟩, rfl⟩
  · rcases h.hazy.next_error hnext with ⟨he, hn, _⟩
    have hclear : mx.Clear { v with error? := some (.unexpectedCharacter '\\' mx.location) } 0 :=
      clear_backslash (by rw [hcursor])
    rw [Lexer.location, hcursor, ← hn] at hclear
    exact ⟨mx, _, ⟨hat, hwithin, h.revised.stray hbits he, .clear hclear, fun _ => hbits⟩, hmode⟩

end State.Facing

/-- What holds of a state that has passed over no guest code: what is foretold lies
    ahead, the brackets that are open included, and outside bit strings it is clear. -/
structure Foreseen (w : Forecast) (source : String) (total : Int) (γ : View) (s : State)
    (lx : Lexer) (v : Forecast) (n : Int) : Prop extends s.Facing w source lx v n where
  balance : γ.opened + n = total
  clear : γ.stage = .free → lx.Clear v n
  plain : γ.stage ≠ .size → lx.sizeMode = false
  bits : γ.stage ≠ .free → w.bits

namespace Foreseen

variable {w v : Forecast} {source : String} {total : Int} {γ γ' : View} {s : State} {lx : Lexer}
  {n : Int}

theorem of_view (h : Foreseen w source total γ s lx v n) (hopened : γ'.opened = γ.opened)
    (hstage : γ'.stage = γ.stage) : Foreseen w source total γ' s lx v n := by
  refine { h with balance := ?_, clear := ?_, plain := ?_, bits := ?_ }
  · rw [hopened]
    exact h.balance
  · rw [hstage]
    exact h.clear
  · rw [hstage]
    exact h.plain
  · rw [hstage]
    exact h.bits

/-- What a token does to the brackets that are open. -/
theorem opened_takes {kind : Kind} (h : γ.Takes kind γ') :
    (γ'.opened : Int) = γ.opened + kind.weight := by
  cases h with
  | mark hshape =>
      rcases hshape with hshape | ⟨hshape, _⟩ <;> rw [Kind.weight, hshape] <;> simp
  | newline hkind => rw [hkind]; rfl
  | opener hshape => rw [Kind.weight, hshape]; rfl
  | closer hshape hopened _ =>
      rw [Kind.weight, hshape, hopened]
      simp only
      omega

/-- A token leaves the stage as it is, unless it begins or ends a bit string. -/
theorem stage_takes {kind : Kind} (h : γ.Takes kind γ') :
    γ'.stage = γ.stage ∨ (γ.stage = .free ∧ γ'.stage = .bits ∧ kind = .bitOpen) ∨
      (γ.stage = .bits ∧ γ'.stage = .free ∧ kind.shape ≠ .piece) := by
  cases h with
  | mark => exact .inl rfl
  | newline => exact .inl rfl
  | opener =>
      rw [View.entering]
      cases γ.stage with
      | free => cases kind <;> first | exact .inl rfl | exact .inr (.inl ⟨rfl, rfl, rfl⟩)
      | bits => exact .inl rfl
      | size => exact .inl rfl
  | @closer _ stage hshape _ hstage =>
      -- Behind the closer the stage is the same, or the one in which a bit string was opened.
      rcases hstage with hstage | hstage
      · exact .inl hstage.symm
      · rw [hstage]
        cases stage with
        | free => exact .inr (.inr ⟨rfl, rfl, by rw [hshape]; decide⟩)
        | bits => exact .inl rfl
        | size => exact .inl rfl

/-- Taking a token leaves what is foretold ahead. -/
theorem take (h : Foreseen w source total γ s lx v n) (hs : s.Sound source)
    (htakes : γ.Takes s.token.kind γ') :
    ∃ lx', Foreseen w source total γ' s.advanced lx' v (n - s.token.kind.weight) := by
  have hend := htakes.ne_end
  have hnot : s.token.isEnd = false := by simp [Token.isEnd, hend]
  rcases h.toFacing.advanced hs hend with ⟨lx', hnext, hfacing⟩
  have hmode : lx'.sizeMode = lx.sizeMode := by
    rcases Lexer.next_ok hnext with ⟨hlx, _⟩
    rw [hlx]
  rcases h.hazy.next_ok hnext hnot with ⟨_, hbits, hclear⟩
  refine ⟨lx', hfacing, ?_, fun hfree => ?_, fun hne => ?_, fun hne => ?_⟩
  · rw [opened_takes htakes, ← h.balance]
    omega
  -- A token may lead into a bit string, out of it or neither, and the mode is known in each case.
  · rcases stage_takes htakes with hstage | ⟨_, hstage, _⟩ | ⟨hstage, _, hshape⟩
    · rw [hfree] at hstage
      have hplain : lx.plain.next = (.ok s.token, lx') := by
        rw [Lexer.plain, ← h.plain (by rw [← hstage]; decide)]
        exact hnext
      exact ((h.clear hstage.symm).next_ok hplain hnot).1
    · rw [hstage] at hfree
      cases hfree
    · exact hclear (h.plain (by rw [hstage]; decide)) hshape
  · rw [hmode]
    rcases stage_takes htakes with hstage | ⟨hstage, _, _⟩ | ⟨hstage, _, _⟩
    · exact h.plain (by rw [← hstage]; exact hne)
    · exact h.plain (by rw [hstage]; decide)
    · exact h.plain (by rw [hstage]; decide)
  · rcases stage_takes htakes with hstage | ⟨_, _, hkind⟩ | ⟨_, hstage, _⟩
    · exact h.bits (by rw [← hstage]; exact hne)
    · rw [← h.revised.bits]
      exact hbits hkind
    · exact absurd hstage hne

end Foreseen

/-- The names of the languages that are known by default are reserved for them. -/
theorem ofWord_of_resolve? {name canonical : String}
    (h : (LanguageTable.ofList Language.defaults).resolve? name = some canonical) :
    Kind.ofWord name = .language := by
  have hall : ∀ entry ∈ (LanguageTable.ofList Language.defaults).names,
      Kind.ofWord entry.1 = .language := by decide +kernel
  exact hall (name, canonical) (mem_of_lookup_eq_some h)

/-- Guest code begins with a word that is reserved for a language. -/
theorem head_of_codeBlockAhead {env : Env}
    (hlanguages : env.languages = .ofList Language.defaults) {s t : State}
    (hrun : codeBlockAhead env s = .ok true t) :
    s.token.kind = .language ∨
      s.token.kind = .identifier ∧ Kind.ofWord s.token.text = .language := by
  have hblock : ∀ next, (LanguageTable.ofList Language.defaults).constructFor? s.token.text next
      false = some .codeBlock → Kind.ofWord s.token.text = .language := by
    intro next h
    unfold LanguageTable.constructFor? at h
    split at h
    · cases h
    · rename_i canonical hresolve
      exact ofWord_of_resolve? hresolve
  -- The first token settles the kind; only for a name the table is asked.
  unfold codeBlockAhead at hrun
  rw [bind_run, current_run] at hrun
  simp only at hrun
  rw [bind_run, peekKind_run] at hrun
  simp only at hrun
  generalize (s.filled.buffer.tokenAt (s.filled.cursor + 1)).kind = next at hrun
  generalize ({ s.filled with buffer := s.filled.buffer.fill (s.filled.cursor + 1) } : State) = u
    at hrun
  rw [bind_run, show languages env u = .ok env.languages u from rfl] at hrun
  simp only at hrun
  rw [hlanguages] at hrun
  generalize s.token.kind = kind at hrun ⊢
  split at hrun
  · exact .inl rfl
  · refine .inr ⟨rfl, ?_⟩
    split at hrun
    · rename_i h
      exact hblock next (by simpa using h)
    · cases hrun
  · cases hrun

/-- An error that stands no later than the one that was foretold. The state it leaves
    knows of no other lexical error, and earlier it stands unless that one is known. -/
structure Accounted (w : Forecast) (e : ParseError) (t : State) : Prop where
  ordinary : ∀ lex, e ≠ .lexical lex
  known : ∀ lex, t.buffer.lexError? = some lex → ∃ v, w.Revised v ∧ v.error? = some lex
  early : ∀ lex, w.error? = some lex → e.position.offset ≤ lex.position.offset
  earlier : t.buffer.lexError? = none → ¬w.bits → ∀ lex, w.error? = some lex →
    e.position.offset < lex.position.offset
  mode : t.buffer.lexer.sizeMode = true → w.bits

namespace State.Facing

variable {w v : Forecast} {source : String} {s t : State} {lx : Lexer} {n : Int} {e : ParseError}

/-- An error before all that is foretold. -/
theorem accounted_before (h : s.Facing w source lx v n) (hordinary : ∀ lex, e ≠ .lexical lex)
    (hbefore : ∀ lex, w.error? = some lex → e.position.offset < lex.position.offset) :
    Accounted w e s :=
  ⟨hordinary, fun _ hlex => ⟨v, h.revised, h.known hlex⟩,
    fun _ hlex => Nat.le_of_lt (hbefore _ hlex), fun _ _ => hbefore, h.mode_bits⟩

/-- An error at the current token. -/
theorem accounted (h : s.Facing w source lx v n) (hs : s.Sound source)
    (hordinary : ∀ lex, e ≠ .lexical lex) (hplace : e.position = s.token.position) :
    Accounted w e s.filled := by
  have hfilled := h.reads hs s.reads_filled
  by_cases hend : s.token.kind = .endOfInput
  -- What ends here is the text, or what can be read of it before a lexical error.
  · rcases (h.atEnd hs hend).2 with ⟨hnone, _⟩ | ⟨lex, hv, hposition, hknown⟩
    · exact hfilled.accounted_before hordinary fun lex hlex => by
        rw [hnone] at hlex
        cases hlex
    · refine ⟨hordinary, fun lex' hlex' => ⟨v, h.revised, hfilled.known hlex'⟩, ?_, ?_,
        hfilled.mode_bits⟩
      · intro lex' hlex'
        rcases h.revised.place hlex' with ⟨lex'', hv'', hplace'⟩
        rw [hv] at hv''
        cases hv''
        exact Nat.le_of_eq (by rw [hplace, hposition, hplace'])
      · intro hnone
        rw [hknown] at hnone
        cases hnone
  · exact hfilled.accounted_before hordinary fun lex hlex => by
      rw [hplace]
      exact h.place hs hend hlex

end State.Facing

/-- States in front of what was foretold. Once guest code is passed over nothing is
    asked of them any more, and there is guest code only if there is a name of a
    language. -/
def foresight (env : Env) (hlanguages : env.languages = .ofList Language.defaults) (w : Forecast)
    (total : Int) :
    Discipline (fun p => w.tongues ∨ ∀ lex, w.error? = some lex →
      p.offset < lex.position.offset) w.tongues env where
  inv γ s := (placing env).inv γ s ∧ (γ.coded = true → w.tongues) ∧
    (γ.coded = false → ∃ lx v n, Foreseen w env.source total γ s lx v n)
  fails e t := w.tongues ∨ Accounted w e t
  sees h := h.1.2
  place := by
    intro γ s h hend
    cases hcoded : γ.coded with
    | true => exact .inl (h.2.1 hcoded)
    | false =>
        rcases h.2.2 hcoded with ⟨lx, v, n, hf⟩
        exact .inr fun lex hlex => hf.place h.1.1 hend hlex
  reads := by
    intro γ s t h hreads
    refine ⟨(placing env).reads h.1 hreads, h.2.1, fun hcoded => ?_⟩
    rcases h.2.2 hcoded with ⟨lx, v, n, hf⟩
    exact ⟨lx, v, n, { hf with toFacing := hf.reads h.1.1 hreads }⟩
  take := by
    intro γ γ' s κ h hahead htakes
    have hkind : s.token.kind = κ 0 := by rw [h.1.2.token, View.kind, hahead]
    have hcoded : γ'.coded = γ.coded := by cases htakes <;> rfl
    refine ⟨(placing env).take h.1 hahead htakes, fun hcode => h.2.1 (hcoded ▸ hcode),
      fun hcode => ?_⟩
    rcases h.2.2 (hcoded ▸ hcode) with ⟨lx, v, n, hf⟩
    rcases hf.take h.1.1 (by rw [hkind]; exact htakes) with ⟨lx', hnext⟩
    exact ⟨lx', v, _, hnext.of_view rfl rfl⟩
  spend := by
    intro γ s h hend
    refine ⟨(placing env).spend h.1 hend, h.2.1, fun hcoded => ?_⟩
    rcases h.2.2 hcoded with ⟨lx, v, n, hf⟩
    exact ⟨lx, v, n, hf.of_view rfl rfl⟩
  revive := by
    intro γ s h hahead
    refine ⟨(placing env).revive h.1 hahead, h.2.1, fun hcoded => ?_⟩
    rcases h.2.2 hcoded with ⟨lx, v, n, hf⟩
    exact ⟨lx, v, n, hf.of_view rfl rfl⟩
  frame := by
    intro γ s depth loopDepth isRelaxed h
    refine ⟨(placing env).frame depth loopDepth isRelaxed h.1, h.2.1, fun hcoded => ?_⟩
    rcases h.2.2 hcoded with ⟨lx, v, n, hf⟩
    exact ⟨lx, v, n, { hf with stands := hf.stands.withFrame depth loopDepth isRelaxed }⟩
  sizeOn := by
    intro γ s h hlive hstage
    rcases (placing env).sizeOn h.1 hlive hstage with ⟨κ, hon⟩
    refine ⟨κ, hon, h.2.1, fun hcoded => ?_⟩
    rcases h.2.2 hcoded with ⟨lx, v, n, hf⟩
    -- The text is read again from the current token, and another forecast may hold from there.
    rcases hf.switched h.1.1 (hf.bits hstage) true with ⟨lx', v', hfacing, _⟩
    exact ⟨lx', v', n, hfacing, hf.balance, fun hfree => (by cases hfree),
      fun hne => absurd rfl hne, fun _ => hf.bits hstage⟩
  sizeOff := by
    intro γ s κ h hstage
    rcases (placing env).sizeOff h.1 hstage with ⟨κ', hoff⟩
    refine ⟨κ', hoff, h.2.1, fun hcoded => ?_⟩
    rcases h.2.2 hcoded with ⟨lx, v, n, hf⟩
    have hbits : w.bits := hf.bits (by simp [View.seeing, View.sizing])
    rcases hf.switched h.1.1 hbits false with ⟨lx', v', hfacing, hmode⟩
    exact ⟨lx', v', n, hfacing, hf.balance, fun hfree => absurd hfree hstage,
      fun _ => hmode, fun _ => hbits⟩
  allowed := by
    intro γ s t h hlive hstage hrun
    cases hcoded : γ.coded with
    | true => exact h.2.1 hcoded
    | false =>
        rcases h.2.2 hcoded with ⟨lx, v, n, hf⟩
        rcases head_of_codeBlockAhead hlanguages hrun with hkind | ⟨hkind, hword⟩
        -- The name of a language is among the tokens that were foretold.
        · have hend : s.token.kind ≠ .endOfInput := by rw [hkind]; decide
          rcases hf.toFacing.advanced h.1.1 hend with ⟨lx', hnext, _⟩
          rw [← hf.revised.tongues]
          have hplain : lx.plain.next = (.ok s.token, lx') := by
            rw [Lexer.plain, ← hf.plain (by rw [hstage]; decide)]
            exact hnext
          exact ((hf.clear hstage).next_ok hplain (by simp [Token.isEnd, hend])).2.1 hkind
        · rcases hf.toFacing.advanced h.1.1 (by rw [hkind]; decide) with ⟨lx', hnext, _⟩
          rw [next_identifier hnext hkind] at hword
          cases hword
  last := .inl
  guest := by
    intro γ s code resume hC h hlive hstage hbrace hcode
    rcases (placing env).guest trivial h.1 hlive hstage hbrace hcode with ⟨κ, hguest⟩
    exact ⟨κ, hguest, fun _ => hC, fun hcoded => by simp [View.seeing, View.coding] at hcoded⟩
  refuse := by
    intro γ s e h he
    cases hcoded : γ.coded with
    | true => exact .inl (h.2.1 hcoded)
    | false =>
        rcases h.2.2 hcoded with ⟨lx, v, n, hf⟩
        rcases he.within _ e.position_mem with hC | hbefore
        · exact .inl hC
        · exact .inr (hf.toFacing.accounted_before he.ne_lexical hbefore)
  reject := by
    intro γ s e h he
    cases hcoded : γ.coded with
    | true => exact .inl (h.2.1 hcoded)
    | false =>
        rcases h.2.2 hcoded with ⟨lx, v, n, hf⟩
        exact .inr (hf.toFacing.accounted h.1.1 he.2.ne_lexical he.1)
  deep := by
    intro γ s t h hwanders
    cases hcoded : γ.coded with
    | true => exact .inl (h.2.1 hcoded)
    | false =>
        rcases h.2.2 hcoded with ⟨lx, v, n, hf⟩
        rcases hf.toFacing.wanders h.1.1 hwanders with ⟨lx', n', ht⟩
        refine .inr (ht.accounted (h.1.1.wanders hwanders) (fun lex he => ?_) rfl)
        cases he
  failsFrame := by
    intro e s depth loopDepth isRelaxed h
    exact h.imp id fun ha => ⟨ha.ordinary, ha.known, ha.early, ha.earlier, ha.mode⟩
  failsSize := by
    intro e s h
    refine h.imp id fun ha => ⟨ha.ordinary, fun lex hlex => ?_, ha.early, fun hnone hbits => ?_,
      fun hmode => ?_⟩
    · exact ha.known lex (TokenBuffer.lexError?_setSizeMode hlex)
    -- Without bit strings size mode is never on, so nothing is switched.
    · have hmode : s.buffer.lexer.sizeMode = false := by
        by_contra h
        exact hbits (ha.mode (by simpa using h))
      have hkept : switchSizeMode false s = s := by
        unfold switchSizeMode TokenBuffer.setSizeMode
        rw [if_pos hmode]
      rw [hkept] at hnone
      exact ha.earlier hnone hbits
    · change (s.buffer.setSizeMode s.cursor false).lexer.sizeMode = true at hmode
      unfold TokenBuffer.setSizeMode at hmode
      split at hmode
      · rename_i hoff
        rw [hoff] at hmode
        cases hmode
      · cases hmode

/-! ### Whole programs -/

/-- A loop that ends well has had a last round. -/
theorem iterate_ok {α β : Type} {step : α → Parse (α ⊕ β)} {env : Env} {n : Nat} {a : α} {b : β}
    {s t : State} (h : iterate step n a env s = .ok b t) :
    ∃ c u, step c env u = .ok (.inr b) t := by
  induction n generalizing a s with
  | zero => cases h
  | succ n ih =>
      rw [iterate_succ_run] at h
      split at h
      · exact ih h
      · rename_i hstep
        cases h
        exact ⟨a, s, hstep⟩
      · cases h

/-- A program is over where the text is. -/
theorem program_end {g : Grammar} {env : Env} {s t : State} {program : Program}
    (h : Parse.program g env s = .ok program t) :
    t.filled = t ∧ t.token.kind = .endOfInput := by
  unfold Parse.program statements at h
  rw [bind_run] at h
  split at h
  · rename_i acc u hloop
    cases h
    rw [bind_run] at hloop
    split at hloop
    · rcases iterate_ok hloop with ⟨acc', u, hround⟩
      -- The rounds end only where there is no statement any more.
      have hmore : hasMore env u = .ok (decide (u.token.kind ≠ .endOfInput)) u.filled := rfl
      rw [bind_run, hmore] at hround
      by_cases hend : u.token.kind = .endOfInput
      · simp only [hend, ne_eq, not_true_eq_false, decide_false, Bool.false_eq_true, if_false]
          at hround
        cases hround
        exact ⟨congrArg (fun buffer => { u with buffer }) (TokenBuffer.fill_fill u.buffer u.cursor),
          by rw [State.token_filled, hend]⟩
      · simp only [hend, ne_eq, not_false_eq_true, decide_true, if_true, bind_run] at hround
        split at hround
        · split at hround <;> cases hround
        · cases hround
    · cases hloop
  · cases h

/-- A text that is one thing is that thing, with separators around it. -/
theorem wholeText_ok {α : Type} {p : Parse α} {env : Env} {s t : State} {a : α}
    (h : wholeText p env s = .ok a t) :
    ∃ u v w, skipSeparators env s = .ok () u ∧ p env u = .ok a v ∧
      skipSeparators env v = .ok () w ∧ w.token.kind = .endOfInput ∧ t = w.filled := by
  unfold wholeText at h
  rw [bind_run] at h
  split at h
  · rename_i u hbefore
    rw [bind_run] at h
    split at h
    · rename_i b v hp
      rw [bind_run] at h
      split at h
      · rename_i w hbehind
        rw [bind_run, check_run] at h
        by_cases hend : w.token.kind = .endOfInput
        · simp only [hend, decide_true, if_true] at h
          cases h
          exact ⟨u, v, w, hbefore, hp, hbehind, hend, rfl⟩
        · simp only [hend, decide_false, Bool.false_eq_true, if_false] at h
          cases h
      · cases h
    · cases h
  · cases h

variable {registry : Registry} {env : Env}

section

variable (hlanguages : env.languages = .ofList Language.defaults) {w : Forecast} {total : Int}

/-- At the start the whole text is ahead, and all of it is foretold. -/
theorem foresight_start (hclear : (Lexer.ofSource env.source).Clear w total) :
    (foresight env hlanguages w total).inv
      (View.start fun n => ((State.initial env.source).buffer.tokenAt (0 + n)).kind)
      (State.initial env.source) := by
  have hlx : (Lexer.ofSource env.source).Within env.source := ⟨rfl, [], rfl, rfl⟩
  refine ⟨⟨State.sound_initial env.source, State.sees _⟩,
    fun h => (by cases h), fun _ => ⟨Lexer.ofSource env.source, w, total, ?_⟩⟩
  exact ⟨⟨State.at_initial env.source, hlx, .same, .clear hclear, fun h => (by cases h)⟩,
    Int.zero_add total, fun _ => hclear, fun _ => rfl, fun h => absurd rfl h⟩

/-- At the end of a text without guest code the forecast is used up. -/
theorem foresight_end {γ : View} {t : State} (h : (foresight env hlanguages w total).inv γ t)
    (hcoded : γ.coded = false) (hopened : γ.opened = 0) (hfilled : t.filled = t)
    (hend : t.token.kind = .endOfInput) :
    total = 0 ∧ (t.buffer.lexError? = none → w.error? = none) ∧
      ∀ lex, t.buffer.lexError? = some lex → ∃ v, w.Revised v ∧ v.error? = some lex := by
  rcases h with ⟨hsound, -, hforeseen⟩
  rcases hforeseen hcoded with ⟨lx, v, n, hf⟩
  rcases hf.toFacing.atEnd hsound.1 hend with ⟨hn, hover⟩
  refine ⟨?_, fun hnone => ?_, fun lex hlex => ⟨v, hf.revised, hf.toFacing.known hlex⟩⟩
  · rw [← hf.balance, hopened, hn]
    rfl
  · rcases hover with ⟨hw, _⟩ | ⟨lex, _, _, hknown⟩
    · exact hw
    · rw [hfilled, hnone] at hknown
      cases hknown

end

/-- What is known of a program that was read in front of what was foretold. -/
theorem program_foreseen (hbuiltin : registry.IsBuiltin)
    (hlanguages : env.languages = .ofList Language.defaults) {w : Forecast} {total : Int}
    (hclear : (Lexer.ofSource env.source).Clear w total) (levels : Nat) :
    match program (Grammar.level registry levels) env (State.initial env.source) with
    | .ok p t => (statementsHaveCode p.statements = true ∧ w.tongues) ∨ (total = 0 ∧
        (t.buffer.lexError? = none → w.error? = none) ∧
        ∀ lex, t.buffer.lexError? = some lex → ∃ v, w.Revised v ∧ v.error? = some lex)
    | .error e t => w.tongues ∨ Accounted w e t := by
  have hyields := Discipline.yields_program hbuiltin levels (foresight_start hlanguages hclear)
  cases hrun : program (Grammar.level registry levels) env (State.initial env.source) with
  | error e t =>
      rw [hrun] at hyields
      exact hyields
  | ok p t =>
      rw [hrun] at hyields
      rcases hyields with ⟨γ, ⟨-, hγ⟩, hinv⟩
      rcases program_end hrun with ⟨hfilled, hend⟩
      -- A program leaves no bracket open, and has seen guest code if a statement of it has some.
      have hview : γ.coded = statementsHaveCode p.statements ∧ γ.opened = 0 := by
        rcases hγ with rfl | ⟨κ, rfl⟩ <;> exact ⟨Bool.false_or _, rfl⟩
      cases hcode : statementsHaveCode p.statements with
      | true => exact .inl ⟨hcode, hinv.2.1 (hview.1.trans hcode)⟩
      | false =>
          exact .inr (foresight_end hlanguages hinv (hview.1.trans hcode) hview.2 hfilled hend)

/-- What the outcome of a parse says of the error that was foretold. -/
structure Surfaces {α : Type} (w : Forecast) (outcome : Except ParseError α) : Prop where
  accepted : ∀ a, outcome = .ok a → w.error? = none
  lexical : ∀ lex, outcome = .error (.lexical lex) → ∃ v, w.Revised v ∧ v.error? = some lex
  ordinary : ∀ e, outcome = .error e → (∀ lex, e ≠ .lexical lex) → ∀ lex, w.error? = some lex →
    e.position.offset ≤ lex.position.offset ∧ (¬w.bits → e.position.offset < lex.position.offset)

/-- How a parse ends, if its error is accounted for: a lexical error that was met is reported,
    unless the error of the parse stands before it. -/
theorem surfaces_settle {α : Type} {w : Forecast} {e : ParseError} {t : State}
    (h : Accounted w e t) :
    Surfaces w (settle t.buffer.lexError? (.error e) : Except ParseError α) := by
  cases hlex : t.buffer.lexError? with
  | none =>
      refine ⟨fun a ha => (by cases ha), fun lex he => ?_, fun e' he hordinary lex hw => ?_⟩
      · cases he
        exact absurd rfl (h.ordinary lex)
      · cases he
        exact ⟨h.early lex hw, fun hbits => h.earlier hlex hbits lex hw⟩
  | some lex =>
      rcases h.known lex hlex with ⟨v, hv, hlexv⟩
      -- A lexical error overrules errors that do not stand before it.
      rcases Nat.lt_or_ge e.position.offset lex.position.offset with hlt | hge
      · rw [settle_earlier hlt]
        refine ⟨fun a ha => (by cases ha), fun lex' he => ?_, fun e' he hordinary lex' hw => ?_⟩
        · cases he
          exact absurd rfl (h.ordinary lex')
        · cases he
          rcases hv.place hw with ⟨lex'', hlex'', hplace⟩
          rw [hlexv] at hlex''
          cases hlex''
          rw [← hplace]
          exact ⟨Nat.le_of_lt hlt, fun _ => hlt⟩
      · rw [settle_overruled hge]
        refine ⟨fun a ha => (by cases ha), fun lex' he => ?_, fun e' he hordinary => ?_⟩
        · cases he
          exact ⟨v, hv, hlexv⟩
        · cases he
          exact absurd rfl (hordinary lex)

/-- If there are no names of languages, the error that was foretold surfaces. -/
theorem surfaces_run (hbuiltin : registry.IsBuiltin)
    (hlanguages : env.languages = .ofList Language.defaults) {w : Forecast} {total : Int}
    (hclear : (Lexer.ofSource env.source).Clear w total) (htongues : ¬w.tongues) (levels : Nat) :
    Surfaces w (run (program (Grammar.level registry levels)) env) := by
  have hforeseen := program_foreseen hbuiltin hlanguages hclear levels
  cases hrun : program (Grammar.level registry levels) env (State.initial env.source) with
  | error e t =>
      rw [run_of_error hrun]
      rw [hrun] at hforeseen
      exact surfaces_settle (hforeseen.resolve_left htongues)
  | ok p t =>
      rw [run_of_ok hrun]
      rw [hrun] at hforeseen
      -- Without tags there is no guest code, and the second case is left.
      rcases hforeseen.resolve_left fun h => htongues h.2 with ⟨-, hnone, hknown⟩
      cases hlex : t.buffer.lexError? with
      | none => exact ⟨fun _ _ => hnone hlex, fun _ he => (by cases he), fun _ he => (by cases he)⟩
      | some lex =>
          refine ⟨fun a ha => (by cases ha), fun lex' he => ?_, fun e he hordinary => ?_⟩
          · cases he
            exact hknown lex hlex
          · cases he
            exact absurd rfl (hordinary lex)

/-- A text that parses to a program without guest code has no lexical error, and its
    brackets are balanced. -/
theorem program_clean (hbuiltin : registry.IsBuiltin)
    (hlanguages : env.languages = .ofList Language.defaults) {levels : Nat} {p : Program}
    (hrun : run (program (Grammar.level registry levels)) env = .ok p)
    (hcode : statementsHaveCode p.statements = false) :
    ∃ ts, (Lexer.ofSource env.source).Yields ts none ∧ balance ts = 0 := by
  rcases (Lexer.ofSource env.source).exists_yields with ⟨ts, r, hyields⟩
  have hclear : (Lexer.ofSource env.source).Clear ⟨r, True, True⟩ (balance ts) :=
    ⟨ts, hyields, fun _ _ => ⟨fun _ => trivial, fun _ => trivial⟩, rfl⟩
  have hforeseen := program_foreseen hbuiltin hlanguages hclear levels
  rcases ok_of_run hrun with ⟨t, hrun', hlex⟩
  rw [hrun'] at hforeseen
  rcases hforeseen with ⟨htrue, _⟩ | ⟨htotal, hnone, _⟩
  · rw [hcode] at htrue
    cases htrue
  · exact ⟨ts, (show r = none from hnone hlex) ▸ hyields, htotal⟩

/-- A text that is an expression has no lexical error, and its brackets are balanced. -/
theorem expressionText_clean (hbuiltin : registry.IsBuiltin)
    (hlanguages : env.languages = .ofList Language.defaults) {levels : Nat} {a : Expr}
    (hrun : run (wholeText (Grammar.level registry levels).expression) env = .ok a) :
    ∃ ts, (Lexer.ofSource env.source).Yields ts none ∧ balance ts = 0 := by
  rcases (Lexer.ofSource env.source).exists_yields with ⟨ts, r, hyields⟩
  have hclear : (Lexer.ofSource env.source).Clear ⟨r, True, True⟩ (balance ts) :=
    ⟨ts, hyields, fun _ _ => ⟨fun _ => trivial, fun _ => trivial⟩, rfl⟩
  have hended := Discipline.yields_expressionText hbuiltin levels
    (foresight_start hlanguages hclear)
  rcases ok_of_run hrun with ⟨t, hrun', hlex⟩
  rw [hrun'] at hended
  rcases hended with ⟨γ, ⟨-, hγ⟩, hinv⟩
  rcases wholeText_ok hrun' with ⟨_, _, w, -, -, -, hend, rfl⟩
  have hview : γ.coded = false ∧ γ.opened = 0 := by
    rcases hγ with rfl | ⟨κ, rfl⟩ <;> exact ⟨rfl, rfl⟩
  rcases foresight_end hlanguages hinv hview.1 hview.2 w.filled_filled
    ((State.token_filled w).symm ▸ hend) with ⟨hbalance, hnone, -⟩
  exact ⟨ts, (show r = none from hnone hlex) ▸ hyields, hbalance⟩

end Parse

/-- Under the default settings, a lexical error is reported for a text only if it has
    one. A text that has one, with no names of languages before it, is not accepted;
    what is reported stands no later than the error, and in the absence of bit strings
    it is the error itself or stands before it. -/
theorem lexical_errors_surface (source : String) :
    let parse := (Parser.ofSettings Settings.defaults).parse
    (∀ ts, (Lexer.ofSource source).tokenize = .ok ts → (∀ t ∈ ts, t.kind ≠ .language) →
      ∀ lex, parse source ≠ .error (.lexical lex)) ∧
    ∀ ts lex, (Lexer.ofSource source).Yields ts (some lex) → (∀ t ∈ ts, t.kind ≠ .language) →
      ∃ e, parse source = .error e ∧ e.position.offset ≤ lex.position.offset ∧
        ((∀ t ∈ ts, t.kind ≠ .bitOpen) →
          e = .lexical lex ∨
            (∀ lex', e ≠ .lexical lex') ∧ e.position.offset < lex.position.offset) := by
  intro parse
  -- Without names of languages there is no guest code, and the forecast is kept to the end.
  have houtcome : ∀ {ts r}, (Lexer.ofSource source).Yields ts r →
      (∀ t ∈ ts, t.kind ≠ .language) →
      Parse.Surfaces ⟨r, False, ∃ t ∈ ts, t.kind = .bitOpen⟩ (parse source) := by
    intro ts r hyields hlanguage
    have hclear : (Lexer.ofSource source).Clear ⟨r, False, ∃ t ∈ ts, t.kind = .bitOpen⟩
        (balance ts) :=
      ⟨ts, hyields, fun t ht => ⟨fun h => hlanguage t ht h, fun h => ⟨t, ht, h⟩⟩, rfl⟩
    have hlanguages : ((Parser.ofSettings Settings.defaults).env source).languages =
        .ofList Language.defaults := rfl
    exact Parse.surfaces_run (Registry.isBuiltin_ofSettings Settings.defaults) hlanguages hclear id
      (4 * source.utf8ByteSize + 8)
  refine ⟨fun ts hts hlanguage lex hlex => ?_, fun ts lex hyields hlanguage => ?_⟩
  · rcases (Lexer.ofSource source).exists_yields with ⟨us, r, hyields⟩
    have htokenize := hyields.tokenize
    cases r with
    | some e =>
        rw [hts] at htokenize
        cases htokenize
    | none =>
        rcases htokenize with ⟨t, _, hall⟩
        rw [hts] at hall
        cases hall
        have hsurfaces := houtcome hyields fun t ht => hlanguage t (List.mem_append_left _ ht)
        rcases hsurfaces.lexical lex hlex with ⟨v, hv, he⟩
        rcases hv.place_back he with ⟨_, hnone, _⟩
        cases hnone
  · have hsurfaces := houtcome hyields hlanguage
    cases hparse : parse source with
    | ok p => cases hsurfaces.accepted p hparse
    | error e =>
        refine ⟨e, rfl, ?_⟩
        by_cases hordinary : ∀ lex', e ≠ .lexical lex'
        · rcases hsurfaces.ordinary e hparse hordinary lex rfl with ⟨hle, hlt⟩
          refine ⟨hle, fun hbits => .inr ⟨hordinary, hlt ?_⟩⟩
          rintro ⟨t, ht, hkind⟩
          exact hbits t ht hkind
        · simp only [not_forall, not_not] at hordinary
          rcases hordinary with ⟨lex', rfl⟩
          rcases hsurfaces.lexical lex' hparse with ⟨v, hv, he⟩
          rcases hv.place_back he with ⟨lex'', hlex'', hplace⟩
          cases hlex''
          refine ⟨Nat.le_of_eq (by rw [ParseError.position, hplace]), fun hbits => .inl ?_⟩
          have hplain : ¬∃ t ∈ ts, t.kind = .bitOpen := by
            rintro ⟨t, ht, hkind⟩
            exact hbits t ht hkind
          rw [hv.exact hplain] at he
          cases he
          rfl

theorem lexical_errors_surface_stray :
    let lex : LexError := .unexpectedCharacter '$' ⟨1, 3, 2⟩
    (Lexer.ofSource "1 $").Yields [⟨.number, "1", ⟨1, 1, 0⟩, 1⟩] (some lex) ∧
      ∃ e, (Parser.ofSettings Settings.defaults).parse "1 $" = .error e ∧
        e.position.offset ≤ 2 ∧
          (e = .lexical lex ∨ (∀ lex', e ≠ .lexical lex') ∧ e.position.offset < 2) := by
  have hyields : (Lexer.ofSource "1 $").Yields [⟨.number, "1", ⟨1, 1, 0⟩, 1⟩]
      (some (.unexpectedCharacter '$' ⟨1, 3, 2⟩)) := .token rfl rfl (.fail rfl)
  rcases (lexical_errors_surface "1 $").2 _ _ hyields (by decide) with ⟨e, he, hle, hsurfaces⟩
  exact ⟨hyields, e, he, hle, hsurfaces (by decide)⟩

/-- A lexical error behind the colon of a segment is not reported. The parser finds the
    end of the text in its place, and the error that says so stands no earlier. -/
theorem lexical_error_lost :
    ¬∀ source ts lex, (Lexer.ofSource source).Yields ts (some lex) →
      (∀ t ∈ ts, t.kind ≠ .language) →
      ∃ e, (Parser.ofSettings Settings.defaults).parse source = .error e ∧
        (e = .lexical lex ∨
          (∀ lex', e ≠ .lexical lex') ∧ e.position.offset < lex.position.offset) := by
  intro h
  have hyields : (Lexer.ofSource "<<a:$>>").Yields
      [⟨.bitOpen, "<<", ⟨1, 1, 0⟩, 2⟩, ⟨.identifier, "a", ⟨1, 3, 2⟩, 3⟩,
        ⟨.colon, ":", ⟨1, 4, 3⟩, 4⟩]
      (some (.unexpectedCharacter '$' ⟨1, 5, 4⟩)) :=
    .token rfl rfl (.token rfl rfl (.token rfl rfl (.fail rfl)))
  have houtcome : (match (Parser.ofSettings Settings.defaults).parse "<<a:$>>" with
      | .ok _ => none
      | .error e => some e) = some (.unexpected "segment size" "end of input" ⟨1, 5, 4⟩) := by
    decide +kernel
  rcases h _ _ _ hyields (by decide) with ⟨e, hparse, he⟩
  rw [hparse] at houtcome
  cases houtcome
  rcases he with he | ⟨_, he⟩
  · cases he
  · exact absurd he (by decide)

end PolyScript
