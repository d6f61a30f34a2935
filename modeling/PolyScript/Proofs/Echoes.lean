import PolyScript.Proofs.LastToken
import PolyScript.Proofs.Passages
import PolyScript.Proofs.Sights
import PolyScript.Proofs.Skeleton
import PolyScript.Proofs.Tape

/-!
# Parsers in a Passage

A parse of a text is repeated by the parse of a longer text in which it stands. Only
successful parses are looked at, so wherever the first parse is bound to fail there is
nothing to say of the second one. Where the first text is over, the second one goes on with a
token that nothing in an expression begins or goes on with: the colon or the `else` that the
construct around it has there, or a pipe operator, or else it is over, too.

A colon is an exception. It comes before the size of a segment, so a segment at the end of
its text is read differently in a passage before a colon. It makes no difference because the
bit string is not closed. `Parse.Echoes` lets a rule say that it may have lost the second
parse in this way, and then what follows the rule has to fail at the end of the text.

The first statement of a passage may be a part of a longer statement, where a comma or a
brace may end it. Most rules do not care about that; the look-ahead for an assignment does.
So what it sees from where the parses stand is kept in mind throughout (`Parse.Outlook`).

## Main definitions

* `Passage`: A text and a longer one, as parsers see them.
* `Parse.Outlook`: What is kept in mind.
* `Parse.Tandem`: Two parses stand at the same place of a text and of its copy.
* `Parse.Echoes`: What one parser makes of the text another one makes of the copy.

## Theorems

* `Parse.Tandem.advanced`, `Parse.Tandem.switched`: Steps that two parses take together.
* `Parse.Echoes.bind`, `Parse.Echoes.loop`, `Parse.Echoes.inSizeMode`: Composed parsers.
-/

namespace PolyScript

/-- What may follow a passage: the end of the text, or a token at which an expression ends. -/
def Kind.isStop : Kind → Bool
  | .endOfInput | .colon | .kwElse | .pipe => true
  | _ => false

theorem Kind.cases_of_isStop {kind : Kind} (h : kind.isStop = true) :
    kind = .endOfInput ∨ kind = .colon ∨ kind = .kwElse ∨ kind = .pipe := by
  unfold isStop at h
  split at h
  · exact .inl rfl
  · exact .inr (.inl rfl)
  · exact .inr (.inr (.inl rfl))
  · exact .inr (.inr (.inr rfl))
  · cases h

/-- A text and a longer one in which it stands, as parsers see them. -/
structure Passage where
  alone : Parse.Env
  whole : Parse.Env
  /-- What follows in the longer text. -/
  tail : List Char
  /-- The kind of the token that follows. -/
  stop : Kind
  languages : whole.languages = alone.languages
  unguarded : alone.guard.enabled = false
  unguarded' : whole.guard.enabled = false
  byteSize_le : alone.source.utf8ByteSize ≤ whole.source.utf8ByteSize
  parts : Lexer.Parts tail
  stops : ∀ sizeMode p, ∃ t after,
    Lexer.scanToken sizeMode (Text.dropBlank tail) p = (.ok t, after) ∧ t.kind = stop
  isStop : stop.isStop = true

/-- A token of the text and one of the longer text are the same, apart from the place. -/
def Passage.Same (P : Passage) (t u : Token) : Prop :=
  ∃ w, Word.Names P.alone.source w t ∧ Word.Names P.whole.source w u

namespace Passage

variable {P : Passage} {t u : Token}

theorem Same.kind (h : P.Same t u) : u.kind = t.kind := by
  rcases h with ⟨w, ht, hu⟩
  rw [ht.kind, hu.kind]

theorem Same.text (h : P.Same t u) : u.text = t.text := by
  rcases h with ⟨w, ht, hu⟩
  rw [ht.text, hu.text]

theorem Same.slice (h : P.Same t u) : Text.slice P.whole.source u.position.offset u.stop =
    Text.slice P.alone.source t.position.offset t.stop := by
  rcases h with ⟨w, ht, hu⟩
  rw [ht.slice, hu.slice]

theorem Same.skeleton (h : P.Same t u) : u.skeleton = t.skeleton := by
  rw [Token.skeleton, Token.skeleton, h.kind, h.text]

/-- Whether terminators are enforced where a statement of the text stands, and where its copy
    does: before an `else` they are not, and if they are not in the text then they are not in
    the passage. -/
def Eases (P : Passage) (isRelaxed isRelaxed' : Bool) : Prop :=
  (isRelaxed = true → isRelaxed' = true) ∧ (P.stop = .kwElse → isRelaxed' = true)

/-- A passage at the end is followed by nothing. -/
theorem stop_eq (h : P.tail = []) : P.stop = .endOfInput := by
  rcases P.stops false .start with ⟨t, after, hscan, hkind⟩
  rw [h] at hscan
  cases hscan
  exact hkind.symm

theorem eases_same {isRelaxed : Bool} (h : P.tail = [] ∨ isRelaxed = true) :
    P.Eases isRelaxed isRelaxed := by
  refine ⟨id, fun hstop => h.resolve_left fun hlast => ?_⟩
  rw [stop_eq hlast] at hstop
  cases hstop

end Passage

namespace Parse

open Lexer

/-! ### Pairs of states -/

/-- What is kept in mind along a parse: which answers the look-ahead for an assignment may give
    from where it started, if terminators are not enforced and if they are, and whether the
    parse stands outside of sizes. -/
structure Outlook where
  sees : Bool → Bool → Prop
  outer : Bool

/-- An outlook on nothing. -/
def Outlook.blank (outer : Bool) : Outlook := ⟨fun _ _ => True, outer⟩

/-- Taking a token of a kind leads from some brackets to others, as far as is kept in mind. -/
def Outlook.Steps (ν : Outlook) (depth : Nat) (kind : Kind) (depth' : Nat) : Prop :=
  (∀ isRelaxed b, ν.sees isRelaxed b) ∨ glance true depth kind = .deeper depth'

theorem Outlook.steps_blank {outer : Bool} {depth depth' : Nat} {kind : Kind} :
    (Outlook.blank outer).Steps depth kind depth' := .inl fun _ _ => trivial

/-- A state has the tokens of another one. -/
def State.Reframes (t s : State) : Prop := t.buffer = s.buffer ∧ t.cursor = s.cursor

theorem State.Reframes.token {s t : State} (h : t.Reframes s) : t.token = s.token := by
  rw [State.token, State.token, h.1, h.2]

theorem State.Reframes.sees {s t : State} {κ : Nat → Kind} (h : t.Reframes s) (hs : s.Sees κ) :
    t.Sees κ := by
  intro n
  rw [h.1, h.2]
  exact hs n

/-- Two states and the lexers behind them, at the same place of a text and its copy. -/
structure Alongside (P : Passage) (ν : Outlook) (depth : Nat) (s s' : State) (lx mx : Lexer) :
    Prop where
  first : s.At lx
  second : s'.At mx
  sound : s.Sound P.alone.source
  sound' : s'.Sound P.whole.source
  within : lx.Within P.alone.source
  within' : mx.Within P.whole.source
  copies : lx.Copies P.tail mx
  tidy : P.tail ≠ [] → ∃ n, lx.Hazy tidy n
  loopDepth : s'.loopDepth = s.loopDepth
  relaxed : P.Eases s.isRelaxed s'.isRelaxed
  sees : ∀ isRelaxed b, mx.Sights isRelaxed depth b → ν.sees isRelaxed b
  plain : ν.outer = true → lx.sizeMode = false

/-- Two states at the same place of a text and its copy. -/
def Tandem (P : Passage) (ν : Outlook) (depth : Nat) (s s' : State) : Prop :=
  ∃ lx mx, Alongside P ν depth s s' lx mx

variable {P : Passage} {ν : Outlook} {depth depth' : Nat} {s s' t t' : State} {lx mx : Lexer}

/-- What the lexers read next: a token of the text, what stands behind it, or nothing. -/
theorem Alongside.next (h : Alongside P ν depth s s' lx mx) :
    (∃ lx' u mx', lx.next = (.ok s.token, lx') ∧ mx.next = (.ok u, mx') ∧ s'.token = u ∧
      s.token.kind ≠ .endOfInput ∧ P.Same s.token u ∧ lx'.Copies P.tail mx') ∨
    s.token.kind = .endOfInput ∧ s'.token.kind = P.stop ∧
      ((∃ t lx' u mx', lx.next = (.ok t, lx') ∧ mx.next = (.ok u, mx')) ∨
        ∃ e lx', lx.next = (.error e, lx')) := by
  cases hnext : lx.next with
  | mk result lx' =>
  cases result with
  | ok v =>
      have htoken := h.first.token_ok h.sound hnext
      -- Where the text alone is over, the passage goes on with what stands behind it.
      by_cases hend : v.kind = .endOfInput
      · right
        rcases P.stops mx.sizeMode mx.tokenStart.here with ⟨u, after, hscan, hstop⟩
        have hnext' : mx.next = (.ok u, { mx with cursor := after }) := by
          rw [next_eq, h.copies.next_end hnext hend, hscan]
        exact ⟨by rw [htoken, hend], by rw [h.second.token_ok h.sound' hnext', hstop],
          .inl ⟨v, lx', u, _, rfl, hnext'⟩⟩
      · left
        rcases h.copies.next_ok P.parts h.within h.within' hnext hend with
          ⟨w, u, mx', hnext', hw, hw', hcopies, -⟩
        have hv : v = s.token := htoken.symm
        subst hv
        exact ⟨lx', u, mx', rfl, hnext', h.second.token_ok h.sound' hnext', hend,
          ⟨w, hw, hw'⟩, hcopies⟩
  | error e =>
      right
      -- A text with something behind it is tidy, so an error means that nothing is.
      have htail : P.tail = [] := by
        by_contra hne
        rcases h.tidy hne with ⟨n, hazy⟩
        cases (hazy.next_error hnext).1
      have hcopies := h.copies
      rw [htail] at hcopies
      rcases hcopies.next_error hnext with ⟨e', mx', hnext'⟩
      rw [(h.first.token_error h.sound hnext).1, (h.second.token_error h.sound' hnext').1,
        P.stop_eq htail]
      exact ⟨rfl, rfl, .inr ⟨e, lx', rfl⟩⟩

/-- However much the two parses read ahead, their states stay side by side. -/
theorem Alongside.reads (h : Alongside P ν depth s s' lx mx) (hs : s.Reads t) (hs' : s'.Reads t') :
    Alongside P ν depth t t' lx mx := by
  refine { h with
    first := h.first.reads h.sound hs
    second := h.second.reads h.sound' hs'
    sound := h.sound.reads hs
    sound' := h.sound'.reads hs'
    loopDepth := ?_
    relaxed := ?_ }
  all_goals
    rcases hs with ⟨n, rfl⟩
    rcases hs' with ⟨n', rfl⟩
  · exact h.loopDepth
  · exact h.relaxed

/-- Changes of what is not about tokens. -/
theorem Alongside.reframed (h : Alongside P ν depth s s' lx mx) (ht : t.Reframes s)
    (ht' : t'.Reframes s') (hloops : t'.loopDepth = t.loopDepth)
    (hrelaxed : P.Eases t.isRelaxed t'.isRelaxed) :
    Alongside P ν depth t t' lx mx := by
  rcases s with ⟨buffer, cursor, _, _, _⟩
  rcases s' with ⟨buffer', cursor', _, _, _⟩
  rcases t with ⟨_, _, _, _, _⟩
  rcases t' with ⟨_, _, _, _, _⟩
  rcases ht with ⟨rfl, rfl⟩
  rcases ht' with ⟨rfl, rfl⟩
  exact { h with
    first := h.first
    second := h.second
    sound := ⟨h.sound.buffer, h.sound.cursor_le, h.sound.cursor_lt⟩
    sound' := ⟨h.sound'.buffer, h.sound'.cursor_le, h.sound'.cursor_lt⟩
    loopDepth := hloops
    relaxed := hrelaxed }

/-- Switching the mode where something can be read. -/
theorem Alongside.switched (h : Alongside P ν depth s s' lx mx) {u : Token} {lx' : Lexer}
    (hnext : lx.next = (.ok u, lx')) (sizeMode outer : Bool)
    (hmode : outer = true → sizeMode = false) :
    Alongside P ⟨ν.sees, outer⟩ depth (switchSizeMode sizeMode s) (switchSizeMode sizeMode s')
      { lx with sizeMode } { mx with sizeMode } where
  first := by
    rcases h.first.switched h.sound h.within sizeMode with hat | ⟨_, _, _, _, _, herror, _⟩
    · exact hat
    · cases hnext.symm.trans herror
  second := by
    rcases h.second.switched h.sound' h.within' sizeMode with hat | ⟨_, _, _, _, _, herror, _⟩
    · exact hat
    -- Alone there is a token next, so in the passage there is no error.
    · rcases h.next with ⟨_, _, _, -, hnext', -⟩ | ⟨-, -, ⟨_, _, _, _, -, hnext'⟩ | ⟨_, _, hfail⟩⟩
      · cases hnext'.symm.trans herror
      · cases hnext'.symm.trans herror
      · cases hnext.symm.trans hfail
  sound := h.sound.switchSizeMode sizeMode
  sound' := h.sound'.switchSizeMode sizeMode
  within := h.within
  within' := h.within'
  copies := h.copies.switched sizeMode
  tidy htail := by
    rcases h.tidy htail with ⟨n, hazy⟩
    exact ⟨n, hazy.switched sizeMode⟩
  loopDepth := h.loopDepth
  relaxed := h.relaxed
  sees isRelaxed b hb := h.sees isRelaxed b (hb.of_plain rfl)
  plain houter := hmode houter

/-- Where nothing can be read in one mode, nothing can be read in the other. -/
theorem State.At.end_switched {source : String} {lx' : Lexer} {e : LexError} (h : s.At lx)
    (hs : s.Sound source) (hlx : lx.Within source) (hnext : lx.next = (.error e, lx'))
    (sizeMode : Bool) : (switchSizeMode sizeMode s).token.kind = .endOfInput := by
  have hsound := hs.switchSizeMode sizeMode
  have hend : ∀ {nx : Lexer} {e : LexError}, (switchSizeMode sizeMode s).At nx →
      nx.next.1 = .error e → (switchSizeMode sizeMode s).token.kind = .endOfInput := by
    intro nx e hat herror
    have hnext : nx.next = (.error e, nx.next.2) := Prod.ext herror rfl
    rw [(hat.token_error hsound hnext).1]
    rfl
  rcases h.switched hs hlx sizeMode with hat | ⟨_, _, _, nx, rest, -, hat, -, -, hcursor⟩
  · exact hend hat (next_error_mode hnext sizeMode)
  · -- Reading resumes at a backslash, where no token begins.
    have hrest : nx.cursor.rest = '\\' :: rest := by rw [hcursor]
    have hplain := next_backslash hrest
    exact hend hat (next_error_mode hplain nx.sizeMode)

/-- The end of a text stays current. -/
theorem State.advanced_of_end (h : s.token.kind = .endOfInput) : s.advanced = s.filled := by
  have hend : s.token.isEnd = true := decide_eq_true h
  simp only [State.advanced, hend, if_true]
  rfl

namespace Tandem

theorem reads (h : Tandem P ν depth s s') (hs : s.Reads t) (hs' : s'.Reads t') :
    Tandem P ν depth t t' := by
  rcases h with ⟨lx, mx, h⟩
  exact ⟨lx, mx, h.reads hs hs'⟩

theorem filled (h : Tandem P ν depth s s') : Tandem P ν depth s.filled s'.filled :=
  h.reads s.reads_filled s'.reads_filled

/-- What the outlook was on does not matter to what is seen. -/
theorem outlook (h : Tandem P ν depth s s') {ν' : Outlook} {next : Nat}
    (hsees : ∀ mx : Lexer, s'.At mx →
      (∀ isRelaxed b, mx.Sights isRelaxed depth b → ν.sees isRelaxed b) →
      ∀ isRelaxed b, mx.Sights isRelaxed next b → ν'.sees isRelaxed b)
    (houter : ν'.outer = true → ν.outer = true) : Tandem P ν' next s s' := by
  rcases h with ⟨lx, mx, h⟩
  exact ⟨lx, mx, { h with
    sees := hsees mx h.second h.sees
    plain := fun hν' => h.plain (houter hν') }⟩

theorem blank (h : Tandem P ν depth s s') : Tandem P (.blank ν.outer) 0 s s' :=
  h.outlook (fun _ _ _ _ _ _ => trivial) id

/-- The kind of the current token. -/
theorem kind (h : Tandem P ν depth s s') :
    s'.token.kind = if s.token.kind = .endOfInput then P.stop else s.token.kind := by
  rcases h with ⟨lx, mx, h⟩
  rcases h.next with ⟨_, u, _, -, -, hu, hend, hsame, -⟩ | ⟨hend, hstop, -⟩
  · rw [if_neg hend, hu, hsame.kind]
  · rw [if_pos hend, hstop]

theorem same (h : Tandem P ν depth s s') (hend : s.token.kind ≠ .endOfInput) :
    P.Same s.token s'.token := by
  rcases h with ⟨lx, mx, h⟩
  rcases h.next with ⟨_, u, _, -, -, hu, -, hsame, -⟩ | ⟨hkind, -⟩
  · rwa [hu]
  · exact absurd hkind hend

/-- Taking the current token. -/
theorem advanced (h : Tandem P ν depth s s') (hend : s.token.kind ≠ .endOfInput)
    (hsteps : ν.Steps depth s.token.kind depth') : Tandem P ν depth' s.advanced s'.advanced := by
  rcases h with ⟨lx, mx, h⟩
  rcases h.next with ⟨lx', u, mx', hnext, hnext', hu, -, hsame, hcopies⟩ | ⟨hkind, -⟩
  · have hnot : s.token.isEnd = false := decide_eq_false hend
    have hnot' : u.isEnd = false := by rw [Token.isEnd, hsame.kind]; exact decide_eq_false hend
    refine ⟨lx', mx', {
      first := h.first.advanced h.sound hnext hnot
      second := h.second.advanced h.sound' hnext' hnot'
      sound := h.sound.advanced
      sound' := h.sound'.advanced
      within := h.within.next_ok hnext
      within' := h.within'.next_ok hnext'
      copies := hcopies
      tidy := fun htail => ?_
      loopDepth := h.loopDepth
      relaxed := h.relaxed
      sees := fun isRelaxed b hb => ?_
      plain := fun houter => ?_ }⟩
    · rcases h.tidy htail with ⟨n, hazy⟩
      exact ⟨_, (hazy.next_ok hnext hnot).1⟩
    -- What is seen from behind the token was seen from in front of it, unless all that is asked
    -- is trivial.
    · rcases hsteps with hall | hglance
      · exact hall isRelaxed b
      · refine h.sees isRelaxed b (.behind hnext' hnot' ?_ hb)
        rw [hsame.kind]
        exact glance_deeper hglance isRelaxed
    · rcases Lexer.next_ok hnext with ⟨hlx, -⟩
      rw [hlx]
      exact h.plain houter
  · exact absurd hkind hend

/-- There are no line ends on a line. -/
theorem ne_newline (h : Tandem P ν depth s s') :
    s.token.kind ≠ .newline ∧ s'.token.kind ≠ .newline := by
  have hfirst : s.token.kind ≠ .newline := by
    rcases h with ⟨lx, mx, h⟩
    rcases h.next with ⟨_, _, _, hnext, -⟩ | ⟨hend, -⟩
    · exact h.copies.ne_newline hnext
    · rw [hend]
      decide
  refine ⟨hfirst, ?_⟩
  rw [h.kind]
  split
  · intro hstop
    have hisStop := P.isStop
    rw [hstop] at hisStop
    cases hisStop
  · exact hfirst

theorem frame (h : Tandem P ν depth s s') :
    s'.loopDepth = s.loopDepth ∧ P.Eases s.isRelaxed s'.isRelaxed := by
  rcases h with ⟨lx, mx, h⟩
  exact ⟨h.loopDepth, h.relaxed⟩

/-- Changes of what is not about tokens. -/
theorem reframed (h : Tandem P ν depth s s') (ht : t.Reframes s) (ht' : t'.Reframes s')
    (hloops : t'.loopDepth = t.loopDepth) (hrelaxed : P.Eases t.isRelaxed t'.isRelaxed) :
    Tandem P ν depth t t' := by
  rcases h with ⟨lx, mx, h⟩
  exact ⟨lx, mx, h.reframed ht ht' hloops hrelaxed⟩

end Tandem

/-- The kinds of the tokens ahead. -/
theorem Tandem.ahead (h : Tandem P ν depth s s') {κ : Nat → Kind} (hs : s.Sees κ) (n : Nat)
    (hbefore : ∀ i < n, κ i ≠ .endOfInput) :
    (s'.buffer.tokenAt (s'.cursor + n)).kind = if κ n = .endOfInput then P.stop else κ n := by
  -- The induction carries how the tokens stand to each other, and nothing else of the two runs.
  have hblank := h.blank
  clear h
  generalize ν.outer = outer at hblank
  induction n generalizing s s' κ with
  | zero =>
      rw [← hs.token]
      exact hblank.kind
  | succ n ih =>
      have hend : s.token.kind ≠ .endOfInput := by
        rw [hs.token]
        exact hbefore 0 (Nat.succ_pos n)
      have hnot : s'.token.isEnd = false := by
        rw [Token.isEnd, hblank.kind, if_neg hend]
        exact decide_eq_false hend
      have hrest := ih (hs.advanced (hs.token ▸ hend)) (fun i hi => hbefore (i + 1) (by omega))
        (hblank.advanced hend (.inl fun _ _ => trivial))
      rw [State.tokenAt_advanced, State.cursor_advanced hnot, Nat.add_right_comm] at hrest
      exact hrest

/-! ### Parsers -/

/-- Nothing is looked past on a line. -/
theorem nextAfterNewlinesIs_online (kind : Kind) (env : Env) (s : State)
    (h : s.token.kind ≠ .newline) :
    nextAfterNewlinesIs kind env s = .ok (decide (s.token.kind = kind)) s.filled := by
  unfold nextAfterNewlinesIs
  rw [loop_run, iterate_succ_run, bind_run, peekKind_run]
  simp only [Nat.add_zero, show (s.buffer.tokenAt s.cursor).kind ≠ .newline from h, if_false]
  rfl

theorem enter_of_disabled {guard : Guard} (h : guard.enabled = false) (depth : Nat)
    (p : Position) : guard.enter depth p = .ok (depth + 1) :=
  enter_of_below (fun hon => by rw [h] at hon; cases hon) p

variable {α β : Type} {κ : Nat → Kind} {lost lost' : Prop}

/-- From states in tandem, where the first one sees certain kinds, parsers of a text and of
    its copy come to results in a relation, and to states in tandem. If the first one ends at
    the end of its text then it may have lost the second one, provided that this is allowed. -/
def Echoes (P : Passage) (ν : Outlook) (lost : Prop) (κ : Nat → Kind) (depth depth' : Nat)
    (p q : Parse α) (Q : α → α → (Nat → Kind) → Prop) : Prop :=
  ∀ s s' a t, Tandem P ν depth s s' → s.Sees κ → p P.alone s = .ok a t →
    (lost ∧ t.token.kind = .endOfInput) ∨
      ∃ b t' κ', q P.whole s' = .ok b t' ∧ Tandem P ν depth' t t' ∧ t.Sees κ' ∧ Q a b κ'

/-- What a parser may do after it has lost its copy: fail, or stay where it is if it may
    lose it, too. -/
def Trails (lost : Prop) (p : Parse α) : Prop :=
  ∀ env s a t, s.token.kind = .endOfInput → p env s = .ok a t →
    lost ∧ t.token.kind = .endOfInput

theorem StopsAtEnd.trails {p : Parse α} (h : StopsAtEnd p) : Trails lost p := by
  intro env s a t hs hrun
  rcases h _ hs env s rfl with ⟨e, u, -, -, hfail⟩
  cases hfail.symm.trans hrun

theorem StaysAtEnd.trails {p : Parse α} (h : StaysAtEnd p) : Trails True p :=
  fun env s a t hs hrun => ⟨trivial, h env s t a hs hrun⟩

namespace Trails

theorem pure (a : α) : Trails True (Pure.pure a) := (staysAtEnd_pure a).trails

theorem bind {p : Parse α} {f : α → Parse β} (hp : Trails True p) (hf : ∀ a, Trails lost (f a)) :
    Trails lost (p >>= f) := by
  intro env s b u hs hrun
  rw [bind_run] at hrun
  split at hrun
  · rename_i a t hmid
    exact hf a env t b u (hp env s a t hs hmid).2 hrun
  · cases hrun

theorem take : Trails True consume := by
  intro env s a t hs hrun
  rw [consume_run, State.advanced_of_end hs] at hrun
  cases hrun
  exact ⟨trivial, by rw [State.token_filled, hs]⟩

theorem check_ne {kind : Kind} (hkind : kind ≠ .endOfInput) {p q : Parse α} (hq : Trails lost q) :
    Trails lost (check kind >>= fun b => if b = true then p else q) := by
  intro env s a t hs hrun
  have hne : s.token.kind ≠ kind := fun h => hkind (h.symm.trans hs)
  rw [bind_run, check_run] at hrun
  simp only [hne, decide_false, Bool.false_eq_true, if_false] at hrun
  exact hq env s.filled a t (by rw [State.token_filled, hs]) hrun

theorem skip {f : Nat → Parse α} (hf : Trails lost (f 0)) : Trails lost (skipNewlines >>= f) := by
  intro env s a t hs hrun
  rw [bind_run, skipNewlines_run _ _ (by rw [hs]; decide)] at hrun
  exact hf env s.filled a t (by rw [State.token_filled, hs]) hrun

/-- What was lost stays lost, round after round. -/
theorem iterate {f : α → Parse (α ⊕ β)} (hf : ∀ a, Trails lost (f a)) (n : Nat) (a : α) :
    Trails lost (iterate f n a) := by
  induction n generalizing a with
  | zero => exact fun _ _ _ _ _ hrun => nomatch hrun
  | succ n ih =>
      intro env s c u hs hrun
      rw [iterate_succ_run] at hrun
      split at hrun
      · exact ih _ env _ c u (hf a env s _ _ hs ‹_›).2 hrun
      · cases hrun
        exact hf a env s _ _ hs ‹_›
      · cases hrun

theorem loop {f : α → Parse (α ⊕ β)} (hf : ∀ a, Trails lost (f a)) (a : α) :
    Trails lost (loop a f) :=
  fun env s c u hs hrun => iterate hf _ a env s c u hs hrun

end Trails

namespace Echoes

variable {p q : Parse α} {Q R : α → α → (Nat → Kind) → Prop} {d d' k : Nat}

theorem weaken (h : Echoes P ν lost κ d d' p q R) (hlost : lost → lost')
    (hQ : ∀ a b κ', R a b κ' → Q a b κ') : Echoes P ν lost' κ d d' p q Q := by
  intro s s' a t hpair hs hrun
  rcases h s s' a t hpair hs hrun with ⟨h, hend⟩ | ⟨b, t', κ', hrun', hpair', ht, hR⟩
  · exact .inl ⟨hlost h, hend⟩
  · exact .inr ⟨b, t', κ', hrun', hpair', ht, hQ a b κ' hR⟩

theorem pure {a b : α} (h : Q a b κ) : Echoes P ν lost κ d d (Pure.pure a) (Pure.pure b) Q := by
  intro s s' c t hpair hs hrun
  cases hrun
  exact .inr ⟨b, s', κ, rfl, hpair, hs, h⟩

/-- A parser that fails has no echo to give. -/
theorem fails (h : ∀ s t a, s.Sees κ → p P.alone s ≠ .ok a t) : Echoes P ν lost κ d d' p q Q :=
  fun s _ a t _ hs hrun => absurd hrun (h s t a hs)

theorem throw {e : ParseError} : Echoes P ν lost κ d d' (MonadExcept.throw e) q Q :=
  .fails fun _ _ _ _ => nofun

theorem unexpected (expected : String) : Echoes P ν lost κ d d' (Parse.unexpected expected) q Q :=
  .fails fun _ _ _ _ => nofun

/-- A parser that fails where the text is over, or that may stay there, is asked elsewhere. -/
theorem live (hp : Trails lost p) (h : κ 0 ≠ .endOfInput → Echoes P ν lost κ d d' p q Q) :
    Echoes P ν lost κ d d' p q Q := by
  intro s s' a t hpair hs hrun
  by_cases hend : κ 0 = .endOfInput
  · exact .inl (hp _ s a t (hs.token.trans hend) hrun)
  · exact h hend s s' a t hpair hs hrun

/-- Two steps, of which the first may lose sight of the passage at its end. The second one then
    has to trail off there. -/
theorem bindLost {p q : Parse α} {f f' : α → Parse β} {R : α → α → (Nat → Kind) → Prop}
    {Q : β → β → (Nat → Kind) → Prop} (hp : Echoes P ν lost κ d k p q R)
    (hend : lost → ∀ a, Trails lost' (f a))
    (hf : ∀ a b κ', R a b κ' → Echoes P ν lost' κ' k d' (f a) (f' b) Q) :
    Echoes P ν lost' κ d d' (p >>= f) (q >>= f') Q := by
  intro s s' c u hpair hs hrun
  rw [bind_run] at hrun
  cases hmid : p P.alone s with
  | error e t =>
      rw [hmid] at hrun
      cases hrun
  | ok a t =>
      rw [hmid] at hrun
      rcases hp s s' a t hpair hs hmid with ⟨h, ht⟩ | ⟨b, t', κ', hmid', hpair', ht, hR⟩
      · exact .inl (hend h a _ t c u ht hrun)
      · rw [bind_run, hmid']
        exact hf a b κ' hR t t' c u hpair' ht hrun

theorem bind {p q : Parse α} {f f' : α → Parse β} {R : α → α → (Nat → Kind) → Prop}
    {Q : β → β → (Nat → Kind) → Prop} (hp : Echoes P ν False κ d k p q R)
    (hf : ∀ a b κ', R a b κ' → Echoes P ν lost κ' k d' (f a) (f' b) Q) :
    Echoes P ν lost κ d d' (p >>= f) (q >>= f') Q := hp.bindLost nofun hf

/-! ### Looking -/

theorem ite {c : Prop} [Decidable c] {p q p' q' : Parse α}
    (ht : c → Echoes P ν lost κ d d' p p' Q) (he : ¬c → Echoes P ν lost κ d d' q q' Q) :
    Echoes P ν lost κ d d' (if c then p else q) (if c then p' else q') Q := by
  by_cases h : c
  · simpa only [if_pos h] using ht h
  · simpa only [if_neg h] using he h

/-- A look at the kind of a token, or of what stands behind the text. -/
theorem peek {f f' : Kind → Parse α} (n : Nat) (hbefore : ∀ i < n, κ i ≠ .endOfInput)
    (h : Echoes P ν lost κ d d' (f (κ n)) (f' (if κ n = .endOfInput then P.stop else κ n)) Q) :
    Echoes P ν lost κ d d' (peekKind n >>= f) (peekKind n >>= f') Q := by
  intro s s' a t hpair hs hrun
  rw [bind_run, peekKind_run] at hrun ⊢
  rw [hs n] at hrun
  rw [hpair.ahead hs n hbefore]
  have hpair' : Tandem P ν d { s with buffer := s.buffer.fill (s.cursor + n) }
      { s' with buffer := s'.buffer.fill (s'.cursor + n) } := hpair.reads ⟨_, rfl⟩ ⟨_, rfl⟩
  have hs' : State.Sees { s with buffer := s.buffer.fill (s.cursor + n) } κ := hs.reads ⟨_, rfl⟩
  exact h _ _ a t hpair' hs' hrun

/-- Looking at a kind echoes, if the continuation for the end of the text echoes as the one for
    what may stand there in the passage. -/
theorem peekOr {f f' : Kind → Parse α} (n : Nat) (hbefore : ∀ i < n, κ i ≠ .endOfInput)
    (hend : κ n = .endOfInput → ∀ kind : Kind, kind.isStop = true →
      Echoes P ν lost κ d d' (f .endOfInput) (f' kind) Q)
    (h : κ n ≠ .endOfInput → Echoes P ν lost κ d d' (f (κ n)) (f' (κ n)) Q) :
    Echoes P ν lost κ d d' (peekKind n >>= f) (peekKind n >>= f') Q := by
  refine .peek n hbefore ?_
  by_cases hκ : κ n = .endOfInput
  · rw [if_pos hκ, hκ]
    exact hend hκ _ P.isStop
  · rw [if_neg hκ]
    exact h hκ

/-- A look at the kind of the current token, or of what stands behind the text. -/
theorem peekEnd {f f' : Kind → Parse α}
    (hend : κ 0 = .endOfInput → ∀ kind : Kind, kind.isStop = true →
      Echoes P ν lost κ d d' (f .endOfInput) (f' kind) Q)
    (h : κ 0 ≠ .endOfInput → Echoes P ν lost κ d d' (f (κ 0)) (f' (κ 0)) Q) :
    Echoes P ν lost κ d d' (Parse.peekKind 0 >>= f) (Parse.peekKind 0 >>= f') Q :=
  .peekOr 0 (fun i hi => absurd hi (Nat.not_lt_zero i)) hend h

/-- A look at the kind of the token after the current one, which is there. -/
theorem peekNext {f f' : Kind → Parse α} (hκ : κ 0 ≠ .endOfInput)
    (hend : κ 1 = .endOfInput → ∀ kind : Kind, kind.isStop = true →
      Echoes P ν lost κ d d' (f .endOfInput) (f' kind) Q)
    (h : κ 1 ≠ .endOfInput → Echoes P ν lost κ d d' (f (κ 1)) (f' (κ 1)) Q) :
    Echoes P ν lost κ d d' (Parse.peekKind 1 >>= f) (Parse.peekKind 1 >>= f') Q :=
  .peekOr 1 (fun i hi => by rwa [Nat.lt_one_iff.1 hi]) hend h

/-- A look at the current token where nothing stands behind the text. -/
theorem peekLast {f f' : Kind → Parse α} (hlast : P.tail = [])
    (h : Echoes P ν lost κ d d' (f (κ 0)) (f' (κ 0)) Q) :
    Echoes P ν lost κ d d' (Parse.peekKind 0 >>= f) (Parse.peekKind 0 >>= f') Q := by
  refine .peek 0 (fun i hi => absurd hi (Nat.not_lt_zero i)) ?_
  split
  · rename_i hκ
    rw [hκ] at h ⊢
    rw [P.stop_eq hlast]
    exact h
  · exact h

/-- A look at the kind of the current token, which is there. -/
theorem peekKind {f f' : Kind → Parse α} (hend : κ 0 ≠ .endOfInput)
    (h : Echoes P ν lost κ d d' (f (κ 0)) (f' (κ 0)) Q) :
    Echoes P ν lost κ d d' (Parse.peekKind 0 >>= f) (Parse.peekKind 0 >>= f') Q :=
  .peekEnd (fun hκ => absurd hκ hend) fun _ => h

theorem check {kind : Kind} {Q : Bool → Bool → (Nat → Kind) → Prop}
    (hkind : κ 0 = .endOfInput → kind ≠ .endOfInput ∧ kind.isStop = false)
    (h : Q (decide (κ 0 = kind)) (decide (κ 0 = kind)) κ) :
    Echoes P ν lost κ d d (Parse.check kind) (Parse.check kind) Q := by
  refine .peekEnd (fun hend stop hstop => ?_) fun _ => .pure h
  have hne : stop ≠ kind := by
    rintro rfl
    rw [(hkind hend).2] at hstop
    cases hstop
  rw [hend] at h
  rw [decide_eq_false hne, ← decide_eq_false (hkind hend).1.symm]
  exact .pure h

/-- A rule that depends on whether the next token is of a kind. -/
theorem ite_look {look : Parse Bool} {kind : Kind} {p q p' q' : Parse α}
    (hlook : ∀ (env : Env) (s : State), s.token.kind ≠ .newline →
      look env s = .ok (decide (s.token.kind = kind)) s.filled)
    (hkind : κ 0 = .endOfInput → kind ≠ .endOfInput ∧ P.stop ≠ kind)
    (ht : κ 0 = kind → Echoes P ν lost κ d d' p p' Q)
    (he : κ 0 ≠ kind → Echoes P ν lost κ d d' q q' Q) :
    Echoes P ν lost κ d d' (look >>= fun b => if b = true then p else q)
      (look >>= fun b => if b = true then p' else q') Q := by
  intro s s' a t hpair hs hrun
  rw [bind_run, hlook _ _ hpair.ne_newline.1, hs.token] at hrun
  rw [bind_run, hlook _ _ hpair.ne_newline.2]
  have hfilled := hs.reads s.reads_filled
  by_cases h : κ 0 = kind
  · have hend : κ 0 ≠ .endOfInput := fun hend => (hkind hend).1 (h.symm.trans hend)
    have hsame : s'.token.kind = kind := by rw [hpair.kind, hs.token, if_neg hend, h]
    simp only [h, hsame, decide_true, if_true] at hrun ⊢
    exact ht h _ _ a t hpair.filled hfilled hrun
  -- At the end of the text alone the passage has another token, but not of the kind in question.
  · have hother : s'.token.kind ≠ kind := by
      rw [hpair.kind, hs.token]
      split
      · rename_i hend
        exact (hkind hend).2
      · exact h
    simp only [h, hother, decide_false, Bool.false_eq_true, if_false] at hrun ⊢
    exact he h _ _ a t hpair.filled hfilled hrun

/-- A rule that depends on whether the current token is of a kind. -/
theorem ite_check {kind : Kind} {p q p' q' : Parse α}
    (hkind : κ 0 = .endOfInput → kind ≠ .endOfInput ∧ kind.isStop = false)
    (ht : κ 0 = kind → Echoes P ν lost κ d d' p p' Q)
    (he : κ 0 ≠ kind → Echoes P ν lost κ d d' q q' Q) :
    Echoes P ν lost κ d d' (Parse.check kind >>= fun b => if b = true then p else q)
      (Parse.check kind >>= fun b => if b = true then p' else q') Q := by
  refine .ite_look (fun env s _ => check_run kind env s) (fun hend => ⟨(hkind hend).1, ?_⟩) ht he
  rintro rfl
  have hstop := P.isStop
  rw [(hkind hend).2] at hstop
  cases hstop

/-- A rule that depends on the next token, wherever it stands. -/
theorem ite_ahead {kind : Kind} {p q p' q' : Parse α}
    (hkind : κ 0 = .endOfInput → kind ≠ .endOfInput ∧ P.stop ≠ kind)
    (ht : κ 0 = kind → Echoes P ν lost κ d d' p p' Q)
    (he : κ 0 ≠ kind → Echoes P ν lost κ d d' q q' Q) :
    Echoes P ν lost κ d d' (nextAfterNewlinesIs kind >>= fun b => if b = true then p else q)
      (nextAfterNewlinesIs kind >>= fun b => if b = true then p' else q') Q := by
  exact .ite_look (nextAfterNewlinesIs_online kind) hkind ht he

/-- A look at the current token, which is there. -/
theorem current {f f' : Token → Parse α} (hend : κ 0 ≠ .endOfInput)
    (h : ∀ t u, P.Same t u → t.kind = κ 0 → Echoes P ν lost κ d d' (f t) (f' u) Q) :
    Echoes P ν lost κ d d' (Parse.current >>= f) (Parse.current >>= f') Q := by
  intro s s' a t hpair hs hrun
  rw [bind_run, current_run] at hrun ⊢
  have hkind : s.token.kind ≠ .endOfInput := by rwa [hs.token]
  exact h _ _ (hpair.same hkind) hs.token _ _ a t hpair.filled (hs.reads s.reads_filled) hrun

/-- Nothing is skipped on a line. -/
theorem skip {f f' : Nat → Parse α} (h : Echoes P ν lost κ d d' (f 0) (f' 0) Q) :
    Echoes P ν lost κ d d' (skipNewlines >>= f) (skipNewlines >>= f') Q := by
  intro s s' a t hpair hs hrun
  rw [bind_run, skipNewlines_run _ _ hpair.ne_newline.1] at hrun
  rw [bind_run, skipNewlines_run _ _ hpair.ne_newline.2]
  exact h _ _ a t hpair.filled (hs.reads s.reads_filled) hrun

/-- How many loops are open is the same; terminators may be enforced in the first parse only. -/
theorem get {f f' : State → Parse α}
    (h : ∀ u u' : State, u'.loopDepth = u.loopDepth →
      Echoes P ν lost κ d d' (f u) (f' u') Q) :
    Echoes P ν lost κ d d' (MonadState.get >>= f) (MonadState.get >>= f') Q :=
  fun s s' a t hpair hs hrun => h s s' hpair.frame.1 s s' a t hpair hs hrun

theorem languages {f f' : LanguageTable → Parse α}
    (h : ∀ table, Echoes P ν lost κ d d' (f table) (f' table) Q) :
    Echoes P ν lost κ d d' (Parse.languages >>= f) (Parse.languages >>= f') Q := by
  intro s s' a t hpair hs hrun
  refine h P.alone.languages s s' a t hpair hs ?_ |>.imp id ?_
  · exact hrun
  · rintro ⟨b, t', κ', hrun', hrest⟩
    refine ⟨b, t', κ', ?_, hrest⟩
    change f' P.whole.languages P.whole s' = _
    rw [P.languages]
    exact hrun'

/-! ### Taking -/

/-- Taking the current token, which is there. -/
theorem take {Q : Token → Token → (Nat → Kind) → Prop} (hend : κ 0 ≠ .endOfInput)
    (hsteps : ν.Steps d (κ 0) d')
    (h : ∀ t u, P.Same t u → t.kind = κ 0 → Q t u fun i => κ (i + 1)) :
    Echoes P ν lost κ d d' consume consume Q := by
  intro s s' a t hpair hs hrun
  cases hrun
  have hkind : s.token.kind ≠ .endOfInput := by rwa [hs.token]
  exact .inr ⟨_, _, _, consume_run _ _, hpair.advanced hkind (by rw [hs.token]; exact hsteps),
    hs.advanced hend, h _ _ (hpair.same hkind) hs.token⟩

theorem taking {f f' : Token → Parse α} (hend : κ 0 ≠ .endOfInput) (hsteps : ν.Steps d (κ 0) k)
    (h : ∀ t u, P.Same t u → t.kind = κ 0 →
      Echoes P ν lost (fun i => κ (i + 1)) k d' (f t) (f' u) Q) :
    Echoes P ν lost κ d d' (consume >>= f) (consume >>= f') Q := by
  refine (take (Q := fun t u κ' => P.Same t u ∧ t.kind = κ 0 ∧ κ' = fun i => κ (i + 1)) hend hsteps
    fun t u hsame ht => ⟨hsame, ht, rfl⟩).bind ?_
  rintro t u _ ⟨hsame, ht, rfl⟩
  exact h t u hsame ht

/-- Requiring a token of a kind. -/
theorem expecting {kind : Kind} {f f' : Token → Parse α} (hkind : kind ≠ .endOfInput)
    (hsteps : ν.Steps d kind k)
    (h : ∀ t u, P.Same t u → t.kind = kind → κ 0 = kind →
      Echoes P ν lost (fun i => κ (i + 1)) k d' (f t) (f' u) Q) :
    Echoes P ν lost κ d d' (expect kind >>= f) (expect kind >>= f') Q := by
  intro s s' a t hpair hs hrun
  rw [bind_run, expect_run] at hrun ⊢
  by_cases hκ : κ 0 = kind
  · have hsame : s'.token.kind = kind := by
      rw [hpair.kind, hs.token, hκ, if_neg hkind]
    rw [hs.token, if_pos hκ] at hrun
    rw [if_pos hsame]
    rw [State.token_filled, State.advanced_filled] at hrun ⊢
    have hend : s.token.kind ≠ .endOfInput := by rwa [hs.token, hκ]
    exact h _ _ (hpair.same hend) (hs.token.trans hκ) hκ _ _ a t
      (hpair.advanced hend (by rw [hs.token, hκ]; exact hsteps)) (hs.advanced (by rwa [hκ])) hrun
  · rw [hs.token, if_neg hκ] at hrun
    cases hrun

/-- Requiring the closing bracket. -/
theorem closing {o o' : Token} {kind : Kind} {f f' : Token → Parse α} (hkind : kind ≠ .endOfInput)
    (hsteps : ν.Steps d kind k)
    (h : ∀ κ' t u, Echoes P ν lost κ' k d' (f t) (f' u) Q) :
    Echoes P ν lost κ d d' (expectClosing o kind >>= f) (expectClosing o' kind >>= f') Q := by
  intro s s' a t hpair hs hrun
  have hclosing : ∀ (o : Token) (env : Env) (s : State), s.token.kind = kind →
      expectClosing o kind env s = .ok s.token s.advanced := by
    intro o env s hs
    unfold expectClosing
    rw [bind_run, check_run]
    simp only [hs, decide_true, if_true]
    rw [consume_run, State.token_filled, State.advanced_filled]
  by_cases hκ : κ 0 = kind
  · have hsame : s'.token.kind = kind := by
      rw [hpair.kind, hs.token, hκ, if_neg hkind]
    have hend : s.token.kind ≠ .endOfInput := by rwa [hs.token, hκ]
    rw [bind_run, hclosing _ _ _ (hs.token.trans hκ)] at hrun
    rw [bind_run, hclosing _ _ _ hsame]
    exact h _ _ _ _ _ a t (hpair.advanced hend (by rw [hs.token, hκ]; exact hsteps))
      (hs.advanced (by rwa [hκ])) hrun
  -- Without the bracket the first parser fails, so there is nothing to compare.
  · exfalso
    have hfail : ∃ e u, expectClosing o kind P.alone s = .error e u := by
      unfold expectClosing
      rw [bind_run, check_run]
      simp only [hs.token, hκ, decide_false, Bool.false_eq_true, if_false]
      exact ⟨_, _, rfl⟩
    rcases hfail with ⟨e, u, hfail⟩
    rw [bind_run, hfail] at hrun
    cases hrun

/-! ### Loops and wrappers -/

/-- Loops with an invariant on their values. If the first one loses sight of the passage then what
    it goes on with has to trail off. -/
theorem loop {a b : α} {f f' : α → Parse (α ⊕ β)} {I : α → α → Prop}
    {Q : β → β → (Nat → Kind) → Prop} (hab : I a b)
    (hend : lost → ∀ a, Trails lost (f a))
    (hf : ∀ a b κ, I a b → Echoes P ν lost κ d d (f a) (f' b) fun r r' κ' =>
      (∃ a b, r = .inl a ∧ r' = .inl b ∧ I a b) ∨ ∃ c c', r = .inr c ∧ r' = .inr c' ∧ Q c c' κ') :
    Echoes P ν lost κ d d (loop a f) (loop b f') Q := by
  -- The second text is not shorter, so the second loop has at least as many rounds to spare.
  have hrounds : ∀ n n' a b κ, n ≤ n' → I a b →
      Echoes P ν lost κ d d (iterate f n a) (iterate f' n' b) Q := by
    intro n
    induction n with
    | zero => exact fun _ _ _ _ _ _ _ _ _ _ _ _ hrun => nomatch hrun
    | succ n ih =>
        intro n' a b κ hle hab s s' c u hpair hs hrun
        obtain ⟨n', rfl⟩ : ∃ m, n' = m + 1 := ⟨n' - 1, by omega⟩
        rw [iterate_succ_run] at hrun ⊢
        cases hmid : f a P.alone s with
        | error e t =>
            rw [hmid] at hrun
            cases hrun
        | ok r t =>
            rw [hmid] at hrun
            rcases hf a b κ hab s s' r t hpair hs hmid with
              ⟨hlost, ht⟩ | ⟨r', t', κ', hmid', hpair', ht, hr⟩
            -- Once the first text is over, the second parser need not keep up.
            · cases r with
              | inl a => exact .inl (Trails.iterate (hend hlost) n a _ t c u ht hrun)
              | inr c =>
                  cases hrun
                  exact .inl ⟨hlost, ht⟩
            · rw [hmid']
              rcases hr with ⟨a, b, rfl, rfl, hab⟩ | ⟨c, c', rfl, rfl, hQ⟩
              · exact ih n' a b κ' (by omega) hab t t' _ u hpair' ht hrun
              · cases hrun
                exact .inr ⟨c', t', κ', rfl, hpair', ht, hQ⟩
  intro s s' c u hpair hs hrun
  have hle := P.byteSize_le
  exact hrounds _ _ a b κ (by omega) hab s s' c u hpair hs hrun

/-- A wrapper that changes nothing about the tokens. -/
theorem around {before before' after after' : State → State} {p q : Parse α} {a : α}
    (h : Echoes P ν lost κ d d' p q Q) (hrun : Parse.around before after p P.alone s = .ok a t)
    (hpair : Tandem P ν d (before s) (before' s')) (hs : (before s).Sees κ)
    (hkept : ∀ u, (after u).Reframes u)
    (hafter : ∀ u u', Tandem P ν d' u u' → Tandem P ν d' (after u) (after' u')) :
    (lost ∧ t.token.kind = .endOfInput) ∨ ∃ b t' κ',
      Parse.around before' after' q P.whole s' = .ok b t' ∧ Tandem P ν d' t t' ∧ t.Sees κ' ∧
        Q a b κ' := by
  rcases ok_of_around hrun with ⟨u, hinner, rfl⟩
  rcases h _ _ a u hpair hs hinner with ⟨hlost, hu⟩ | ⟨b, u', κ', hinner', hpair', hu, hQ⟩
  · exact .inl ⟨hlost, by rw [(hkept u).token, hu]⟩
  · refine .inr ⟨b, after' u', κ', ?_, hafter u u' hpair', (hkept u).sees hu, hQ⟩
    rw [Parse.around, hinner']

theorem nested {p q : Parse α} (h : Echoes P ν lost κ d d' p q Q) :
    Echoes P ν lost κ d d' (nested p) (nested q) Q := by
  intro s s' a t hpair hs hrun
  rw [nested_entered (enter_of_disabled P.unguarded _ _)] at hrun
  rw [nested_entered (enter_of_disabled P.unguarded' _ _)]
  have hsees : s.filled.Sees κ := hs.reads s.reads_filled
  refine h.around hrun ?_ hsees (fun _ => ⟨rfl, rfl⟩) fun u u' hu => ?_
  · exact hpair.filled.reframed ⟨rfl, rfl⟩ ⟨rfl, rfl⟩ hpair.frame.1 hpair.frame.2
  · exact hu.reframed ⟨rfl, rfl⟩ ⟨rfl, rfl⟩ hu.frame.1 hu.frame.2

theorem inLoop {p q : Parse α} (h : Echoes P ν lost κ d d' p q Q) :
    Echoes P ν lost κ d d' (inLoop p) (inLoop q) Q := by
  intro s s' a t hpair hs hrun
  refine h.around hrun (hpair.reframed ⟨rfl, rfl⟩ ⟨rfl, rfl⟩ ?_ hpair.frame.2) hs
    (fun _ => ⟨rfl, rfl⟩) fun u u' hu => ?_
  · exact congrArg (· + 1) hpair.frame.1
  · exact hu.reframed ⟨rfl, rfl⟩ ⟨rfl, rfl⟩ (congrArg (· - 1) hu.frame.1) hu.frame.2

theorem withTerminators {p q : Parse α} {isRelaxed : Bool} (hlast : P.tail = [] ∨ isRelaxed = true)
    (h : Echoes P ν lost κ d d' p q Q) :
    Echoes P ν lost κ d d' (withTerminators isRelaxed p) (withTerminators isRelaxed q) Q := by
  intro s s' a t hpair hs hrun
  rw [withTerminators_run] at hrun ⊢
  refine h.around hrun
    (hpair.reframed ⟨rfl, rfl⟩ ⟨rfl, rfl⟩ hpair.frame.1 (P.eases_same hlast)) hs
    (fun _ => ⟨rfl, rfl⟩) fun u u' hu => ?_
  exact hu.reframed ⟨rfl, rfl⟩ ⟨rfl, rfl⟩ hu.frame.1 hpair.frame.2

/-- What is read in size mode. Where nothing can be read behind it, the copy is lost. -/
theorem inSizeMode {p q : Parse α} {R : α → α → Prop} (hp : StopsAtEnd p)
    (h : ∀ κ', Echoes P ⟨ν.sees, false⟩ False κ' d d' p q fun a b _ => R a b) :
    Echoes P ν True κ d d' (inSizeMode p) (inSizeMode q) fun a b _ => R a b := by
  rintro s s' a t ⟨lx, mx, hpair⟩ - hrun
  rcases ok_of_around hrun with ⟨u, hinner, rfl⟩
  rcases hnext : lx.next with ⟨e | v, lx'⟩
  · have hend := hpair.first.end_switched hpair.sound hpair.within hnext true
    rcases hp _ hend P.alone _ rfl with ⟨_, _, -, -, hfail⟩
    cases hfail.symm.trans hinner
  · have hswitched := hpair.switched hnext true false nofun
    rcases h _ _ _ a u ⟨_, _, hswitched⟩ (State.sees _) hinner with
      ⟨hfalse, -⟩ | ⟨b, u', _, hinner', ⟨nx, ox, hpair'⟩, -, hR⟩
    · exact hfalse.elim
    rcases hnext' : nx.next with ⟨e | v', nx'⟩
    · exact .inl ⟨trivial, hpair'.first.end_switched hpair'.sound hpair'.within hnext' false⟩
    · have hback := hpair'.switched hnext' false ν.outer fun _ => rfl
      refine .inr ⟨b, _, _, ?_, ⟨_, _, hback⟩, State.sees _, hR⟩
      rw [Parse.inSizeMode, Parse.around, hinner']

/-- A look-ahead that takes what it looks at. -/
theorem lookahead {p : Parse α} (hscans : Scans (Parse.lookahead p))
    (h : Echoes P (.blank ν.outer) False κ 0 0 p p fun a b _ => b = a) (hQ : ∀ a, Q a a κ) :
    Echoes P ν lost κ d d (Parse.lookahead p) (Parse.lookahead p) Q := by
  intro s s' a t hpair hs hrun
  -- A look-ahead that answers has only read tokens.
  have hreads : ∀ {env : Env} {s t : State} {a : α},
      Parse.lookahead p env s = .ok a t → s.Reads t := by
    intro env s t a hrun
    rcases hscans env s with ⟨b, u, hu, hok⟩ | ⟨u, -, hfail⟩
    · cases (hok env.guard).symm.trans hrun
      exact hu
    · cases (hfail env.guard).symm.trans hrun
  have hafter := hreads hrun
  rw [lookahead_run] at hrun
  cases hmid : p P.alone s with
  | error e u =>
      rw [hmid] at hrun
      cases hrun
  | ok b u =>
      rw [hmid] at hrun
      cases hrun
      rcases h s s' a u hpair.blank hs hmid with ⟨hfalse, -⟩ | ⟨c, u', _, hmid', -, -, rfl⟩
      · exact hfalse.elim
      have hrun' : Parse.lookahead p P.whole s' = .ok c { u' with cursor := s'.cursor } := by
        rw [lookahead_run, hmid']
      exact .inr ⟨c, _, κ, hrun', hpair.reads hafter (hreads hrun'), hs.reads hafter, hQ c⟩

end Echoes

end Parse

end PolyScript
