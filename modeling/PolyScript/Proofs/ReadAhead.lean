import PolyScript.Proofs.Rereading
import PolyScript.Proofs.Reordering
import PolyScript.Proofs.Tape

/-!
# However Much Was Read Ahead

A rule that declines has looked ahead, without any bound, and what it read stays in the
buffer. The rule that is asked next should not notice. For looking at tokens and taking them
this is so because the token at an index is settled from the start. It is less plain for a
switch of the mode: reading resumes at the current token if the buffer holds it, and where the
lexer of the buffer stands if it does not.

Two such states match. Either both have read on from a common one, or what they hold from the
cursor on was read from lexers that find the next token at the same place. There is a third
case. If a token cannot be read because of an invalid escape, then the state that has met it
resumes at the backslash, the other one at the quote. Both come to an error, at the same place
but not the same error, and neither gets past it. So two lexers also agree if both of them are
stuck at one place, and a parser cannot tell them apart, because an error is shown as the end
of the text.

## Main definitions

* `Lexer.Agrees`: Lexers that find the next token, or an error, at the same place.
* `Parse.State.Matches`: States that differ in how much was read ahead.
* `Parse.SameResult`: Outcomes with the same value or the same error.
* `Parse.Heedless`: A parser comes to the same from states that match.

## Theorems

* `Parse.State.Matches.switched`: Switching the mode keeps states matched.
* `Parse.heedless_of_alike`: Derived parsers are heedless.
* `Parse.heedless_builtin`: So are the handlers of the language.
-/

namespace PolyScript

/-! ### Lexers -/

namespace Lexer

variable {lx mx : Lexer}

/-- Lexers that find the next token at the same place, or both come to an error at the same
    place. -/
inductive Agrees (lx mx : Lexer) : Prop
  | same : lx.Same mx → Agrees lx mx
  | stuck {e e' : LexError} : lx.source = mx.source → lx.sizeMode = mx.sizeMode →
    lx.next.1 = .error e → mx.next.1 = .error e' → e.position = e'.position → Agrees lx mx

theorem Agrees.sizeMode (h : lx.Agrees mx) : lx.sizeMode = mx.sizeMode := by
  cases h with
  | same h => exact h.2.1
  | stuck _ hmode => exact hmode

/-- A lexer that agrees with one that reads a token reads it, too. -/
theorem Agrees.next_ok {lx' : Lexer} {t : Token} (h : lx.Agrees mx)
    (hnext : lx.next = (.ok t, lx')) : mx.next = (.ok t, lx') := by
  cases h with
  | same h => rw [← h.next, hnext]
  | stuck _ _ herror => rw [hnext] at herror; cases herror

/-- One that agrees with a lexer that is stuck is stuck as well. -/
theorem Agrees.next_error {e : LexError} (h : lx.Agrees mx) (hnext : lx.next.1 = .error e) :
    ∃ e', mx.next.1 = .error e' ∧ e'.position = e.position := by
  cases h with
  | same h => exact ⟨e, by rw [← h.next, hnext], rfl⟩
  | stuck _ _ herror herror' hplace =>
      cases herror.symm.trans hnext
      exact ⟨_, herror', hplace.symm⟩

/-- Lexers that agree read the same tokens beforehand. -/
theorem Agrees.eager (h : lx.Agrees mx) : lx.eager.1 = mx.eager.1 := by
  cases hnext : lx.next with
  | mk result lx' =>
  cases result with
  | ok t =>
      have hnext' := h.next_ok hnext
      by_cases hend : t.isEnd = true
      · rw [eager_end hnext hend, eager_end hnext' hend]
      · rw [Bool.not_eq_true] at hend
        rw [eager_token hnext hend, eager_token hnext' hend]
  | error e =>
      rcases h.next_error (congrArg Prod.fst hnext) with ⟨e', hnext', hplace⟩
      rw [eager_error hnext, eager_error (Prod.ext hnext' rfl), hplace]

end Lexer

namespace Parse

/-! ### States -/

namespace State

variable {source : String} {s t u v : State} {lx mx : Lexer}

/-- States that differ in how much was read ahead, and in what that leads to. -/
inductive Matches (source : String) : State → State → Prop
  | read {base s t : State} : base.Sound source → base.Reads s → base.Reads t →
    Matches source s t
  | lexed {s t : State} {lx mx : Lexer} : s.Sound source → t.Sound source →
    t.cursor = s.cursor → t.depth = s.depth → t.loopDepth = s.loopDepth →
    t.isRelaxed = s.isRelaxed → s.At lx → t.At mx → lx.Within source → mx.Within source →
    lx.Agrees mx → Matches source s t

theorem Matches.of_reads (hs : s.Sound source) (h : s.Reads t) : s.Matches source t :=
  .read hs (.refl s) h

theorem Matches.sound (h : s.Matches source t) : s.Sound source ∧ t.Sound source := by
  cases h with
  | read hbase hs ht => exact ⟨hbase.reads hs, hbase.reads ht⟩
  | lexed hs ht => exact ⟨hs, ht⟩

/-- What is not in the buffer is the same. -/
theorem Matches.frame (h : s.Matches source t) :
    t.cursor = s.cursor ∧ t.depth = s.depth ∧ t.loopDepth = s.loopDepth ∧
      t.isRelaxed = s.isRelaxed := by
  cases h with
  | read _ hs ht =>
      rcases hs with ⟨m, rfl⟩
      rcases ht with ⟨n, rfl⟩
      exact ⟨rfl, rfl, rfl, rfl⟩
  | lexed _ _ hcursor hdepth hloop hrelaxed => exact ⟨hcursor, hdepth, hloop, hrelaxed⟩

/-- So are the tokens ahead. -/
theorem Matches.tokenAt (h : s.Matches source t) (n : Nat) :
    t.buffer.tokenAt (t.cursor + n) = s.buffer.tokenAt (s.cursor + n) := by
  cases h with
  | read _ hs ht =>
      rcases hs with ⟨m, rfl⟩
      rcases ht with ⟨k, rfl⟩
      simp only [TokenBuffer.tokenAt_readMore]
  | lexed hs ht _ _ _ _ hat hat' _ _ hlx =>
      rw [hat.tokenAt_eager hs, hat'.tokenAt_eager ht, hlx.eager]

theorem Matches.token (h : s.Matches source t) : t.token = s.token := h.tokenAt 0

theorem Matches.sizeMode (h : s.Matches source t) :
    t.buffer.lexer.sizeMode = s.buffer.lexer.sizeMode := by
  cases h with
  | read _ hs ht =>
      rcases hs with ⟨m, rfl⟩
      rcases ht with ⟨n, rfl⟩
      simp only [TokenBuffer.sizeMode_readMore]
  | lexed _ _ _ _ _ _ hat hat' _ _ hlx => rw [hat.mode, hat'.mode, hlx.sizeMode]

/-- Reading ahead keeps states matched. -/
theorem Matches.reads (h : s.Matches source t) (hs : s.Reads u) (ht : t.Reads v) :
    u.Matches source v := by
  cases h with
  | read hbase hs' ht' => exact .read hbase (hs'.trans hs) (ht'.trans ht)
  | lexed hsound hsound' hcursor hdepth hloop hrelaxed hat hat' hlx hmx hagrees =>
      have hframe : ∀ {s t : State}, s.Reads t → t.cursor = s.cursor ∧ t.depth = s.depth ∧
          t.loopDepth = s.loopDepth ∧ t.isRelaxed = s.isRelaxed := by
        rintro s _ ⟨n, rfl⟩
        exact ⟨rfl, rfl, rfl, rfl⟩
      rcases hframe hs with ⟨hcursor₁, hdepth₁, hloop₁, hrelaxed₁⟩
      rcases hframe ht with ⟨hcursor₂, hdepth₂, hloop₂, hrelaxed₂⟩
      exact .lexed (hsound.reads hs) (hsound'.reads ht) (by rw [hcursor₂, hcursor, hcursor₁])
        (by rw [hdepth₂, hdepth, hdepth₁]) (by rw [hloop₂, hloop, hloop₁])
        (by rw [hrelaxed₂, hrelaxed, hrelaxed₁]) (hat.reads hsound hs) (hat'.reads hsound' ht)
        hlx hmx hagrees

theorem Matches.filled (h : s.Matches source t) : s.filled.Matches source t.filled :=
  h.reads s.reads_filled t.reads_filled

/-- So does putting the same into the frame. -/
theorem Matches.withFrame (h : s.Matches source t) (depth loopDepth : Nat) (isRelaxed : Bool) :
    (s.withFrame depth loopDepth isRelaxed).Matches source
      (t.withFrame depth loopDepth isRelaxed) := by
  cases h with
  | @read base _ _ hbase hs ht =>
      have hsound : (base.withFrame depth loopDepth isRelaxed).Sound source :=
        ⟨hbase.1, hbase.2, hbase.3⟩
      rcases hs with ⟨m, rfl⟩
      rcases ht with ⟨n, rfl⟩
      exact .read hsound ⟨m, rfl⟩ ⟨n, rfl⟩
  | lexed hsound hsound' hcursor _ _ _ hat hat' hlx hmx hagrees =>
      exact .lexed ⟨hsound.1, hsound.2, hsound.3⟩ ⟨hsound'.1, hsound'.2, hsound'.3⟩ hcursor rfl rfl
        rfl hat hat' hlx hmx hagrees

theorem Matches.atDepth (h : s.Matches source t) (depth : Nat) :
    (s.atDepth depth).Matches source (t.atDepth depth) := by
  have hframe := h.withFrame depth s.loopDepth s.isRelaxed
  have hlast : t.withFrame depth s.loopDepth s.isRelaxed = t.atDepth depth := by
    rw [← h.frame.2.2.1, ← h.frame.2.2.2]
    rfl
  rwa [hlast] at hframe

theorem Matches.inLoops (h : s.Matches source t) (change : Nat → Nat) :
    ({ s with loopDepth := change s.loopDepth } : State).Matches source
      { t with loopDepth := change t.loopDepth } := by
  have hframe := h.withFrame s.depth (change s.loopDepth) s.isRelaxed
  have hlast : t.withFrame s.depth (change s.loopDepth) s.isRelaxed =
      { t with loopDepth := change t.loopDepth } := by
    rw [← h.frame.2.1, ← h.frame.2.2.1, ← h.frame.2.2.2]
    rfl
  rwa [hlast] at hframe

theorem Matches.relaxed (h : s.Matches source t) (isRelaxed : Bool) :
    ({ s with isRelaxed } : State).Matches source { t with isRelaxed } := by
  have hframe := h.withFrame s.depth s.loopDepth isRelaxed
  have hlast : t.withFrame s.depth s.loopDepth isRelaxed = { t with isRelaxed } := by
    rw [← h.frame.2.1, ← h.frame.2.2.1]
    rfl
  rwa [hlast] at hframe

/-- Reading up to an index loses nothing that was read. -/
theorem Reads.fill (n : Nat) (b : TokenBuffer) (i : Nat) :
    ∃ m, (b.readMore n).fill i = (b.fill i).readMore m := by
  rcases Nat.le_total (i + 1 - b.tokens.size) n with hle | hle
  · refine ⟨n - (i + 1 - b.tokens.size), ?_⟩
    rw [show n = i + 1 - b.tokens.size + (n - (i + 1 - b.tokens.size)) by omega,
      TokenBuffer.readMore_add, Nat.add_sub_cancel_left]
    exact TokenBuffer.fill_readMore (TokenBuffer.fill_fill b i) _
  · refine ⟨0, ?_⟩
    have hall : b.fill i = (b.readMore n).readMore (i + 1 - b.tokens.size - n) := by
      rw [← TokenBuffer.readMore_add, Nat.add_sub_cancel' hle]
      rfl
    rw [TokenBuffer.readMore, hall, TokenBuffer.fill]
    rcases TokenBuffer.readMore_ready n b with hfinished | hsize
    · rw [TokenBuffer.readMore_finished hfinished, TokenBuffer.readMore_finished hfinished]
    · rw [hsize, Nat.sub_add_eq]

/-- A state takes a token wherever it has read to. -/
theorem Reads.advanced (h : s.Reads t) : s.advanced.Reads t.advanced := by
  rcases h with ⟨n, rfl⟩
  rcases Reads.fill n s.buffer s.cursor with ⟨m, hm⟩
  have htoken : ({ s with buffer := s.buffer.readMore n } : State).token = s.token :=
    TokenBuffer.tokenAt_readMore n s.buffer s.cursor
  refine ⟨m, ?_⟩
  rw [State.advanced, State.advanced, htoken]
  exact congrArg (fun buffer => ({ s with
    buffer, cursor := if s.token.isEnd then s.cursor else s.cursor + 1 } : State)) hm

/-- So does taking the current token. -/
theorem Matches.advanced (h : s.Matches source t) : s.advanced.Matches source t.advanced := by
  cases h with
  | read hbase hs ht => exact .read hbase.advanced hs.advanced ht.advanced
  | @lexed _ _ lx mx hsound hsound' hcursor hdepth hloop hrelaxed hat hat' hlx hmx hagrees =>
      have hmatch : s.Matches source t :=
        .lexed hsound hsound' hcursor hdepth hloop hrelaxed hat hat' hlx hmx hagrees
      -- At the end of the text nothing is taken, and elsewhere the same token is.
      by_cases hend : s.token.isEnd = true
      · have hend' : t.token.isEnd = true := by rw [hmatch.token, hend]
        have hkept : ∀ {s : State}, s.token.isEnd = true → s.advanced = s.filled := by
          intro s hend
          rw [State.advanced, if_pos hend]
          rfl
        rw [hkept hend, hkept hend']
        exact hmatch.filled
      · rw [Bool.not_eq_true] at hend
        rcases hat.next_of_token hsound (by simpa [Token.isEnd] using hend) with ⟨lx', hnext⟩
        have hnext' := hagrees.next_ok hnext
        have hcursor' : t.advanced.cursor = s.advanced.cursor := by
          rw [cursor_advanced hend, cursor_advanced (by rw [hmatch.token]; exact hend), hcursor]
        exact .lexed hsound.advanced hsound'.advanced hcursor' hdepth hloop hrelaxed
          (hat.advanced hsound hnext hend) (hat'.advanced hsound' hnext' hend)
          (hlx.next_ok hnext) (hmx.next_ok hnext') (.same (.refl lx'))

/-! ### Switching the mode -/

/-- A state that is stuck at an error stays stuck there. -/
theorem At.switched_stuck (h : s.At lx) (hs : s.Sound source) (hlx : lx.Within source)
    {e : LexError} (he : lx.next.1 = .error e) (sizeMode : Bool) :
    ∃ nx e', (Parse.switchSizeMode sizeMode s).At nx ∧ nx.Within source ∧
      nx.sizeMode = sizeMode ∧ nx.next.1 = .error e' ∧ e'.position = e.position := by
  have hnext : lx.next = (.error e, lx.next.2) := Prod.ext he rfl
  rcases h.switched hs hlx sizeMode with
    hat | ⟨sequence, p, lx', mx, rest, hescape, hat, hmx, hmode, hcursor⟩
  · exact ⟨_, e, hat, hlx, rfl, Lexer.next_error_mode hnext sizeMode, rfl⟩
  · cases hnext.symm.trans hescape
    have hrest : mx.cursor.rest = '\\' :: rest := by rw [hcursor]
    have hplain := Lexer.next_backslash hrest
    have hstuck := Lexer.next_error_mode hplain mx.sizeMode
    exact ⟨mx, _, hat, hmx, hmode, hstuck, by rw [Lexer.location, hcursor]; rfl⟩

/-- Where the current token is held, reading resumes at it. -/
theorem Sound.switched_of_some (hs : s.Sound source) (h : s.Reads t) {u : Token}
    (hplace : u.position.IsPlace source.toList) {sizeMode : Bool}
    (hmode : s.buffer.lexer.sizeMode ≠ sizeMode) (htoken : s.buffer.tokens[s.cursor]? = some u) :
    (Parse.switchSizeMode sizeMode t).At { t.buffer.lexer.resetTo u.position with sizeMode } ∧
      ({ t.buffer.lexer.resetTo u.position with sizeMode } : Lexer).Within source := by
  have ht := hs.reads h
  rcases h with ⟨n, rfl⟩
  -- Reading more does not move the token that was held.
  have hresume : ({ s with buffer := s.buffer.readMore n } : State).resume = u.position := by
    have hlt : s.cursor < s.buffer.tokens.size := (Array.getElem?_eq_some_iff.1 htoken).1
    have hheld := (TokenBuffer.readMore_getElem? n s.buffer s.cursor hlt).trans htoken
    rw [State.resume]
    simp only [hheld]
  have hmode' : (s.buffer.readMore n).lexer.sizeMode ≠ sizeMode := by
    simpa only [TokenBuffer.sizeMode_readMore] using hmode
  have hat := ht.at_switched hmode'
  rw [hresume] at hat
  refine ⟨hat, ht.buffer.source_eq, ?_⟩
  have hheld : u.position.IsPlace (s.buffer.readMore n).lexer.source.toList := by
    rw [ht.buffer.source_eq]
    exact hplace
  have hstands := Lexer.resetTo_stands hheld
  rw [ht.buffer.source_eq] at hstands
  exact hstands

/-- Where it is not, the lexer of the buffer is to read it. -/
theorem Sound.at_of_none (hs : s.Sound source) (htoken : s.buffer.tokens[s.cursor]? = none) :
    s.At s.buffer.lexer := by
  have hsize : s.buffer.tokens.size ≤ s.cursor := by simpa using htoken
  have hopen : s.buffer.finished = false := by
    by_contra hfinished
    have := hs.cursor_lt (by simpa using hfinished)
    omega
  have hnone : s.buffer.failure = none := by
    cases hfailure : s.buffer.failure with
    | none => rfl
    | some f => exact Bool.noConfusion (hopen.symm.trans (hs.buffer.failed f.1 f.2 hfailure).1)
  have hnil : s.buffer.tokens.toList.drop s.cursor = [] := by
    rw [List.drop_eq_nil_iff, Array.length_toList]
    exact hsize
  rw [At, hnil]
  exact .rest hopen hnone (.refl _)

/-- Switching the mode where what is ahead was read from lexers that agree. -/
theorem Matches.switched_lexed (hs : s.Sound source) (ht : t.Sound source)
    (hcursor : t.cursor = s.cursor) (hdepth : t.depth = s.depth)
    (hloop : t.loopDepth = s.loopDepth) (hrelaxed : t.isRelaxed = s.isRelaxed) (hat : s.At lx)
    (hat' : t.At mx) (hlx : lx.Within source) (hmx : mx.Within source) (h : lx.Agrees mx)
    (sizeMode : Bool) :
    (Parse.switchSizeMode sizeMode s).Matches source (Parse.switchSizeMode sizeMode t) := by
  have hsource := hlx.1.trans hmx.1.symm
  -- Where both lexers read a token the switch sets them to its place. Where they fail, they fail
  -- in the same place.
  cases hnext : lx.next.1 with
  | ok a =>
      have hclear : ∀ {s : State} {lx : Lexer}, s.At lx → s.Sound source → lx.Within source →
          lx.next.1 = .ok a → (Parse.switchSizeMode sizeMode s).At { lx with sizeMode } := by
        intro s lx hat hs hlx hnext
        rcases hat.switched hs hlx sizeMode with hat | ⟨_, _, _, _, _, herror, _⟩
        · exact hat
        · rw [herror] at hnext
          cases hnext
      cases h with
      | same h =>
          have hsame : ({ lx with sizeMode } : Lexer).Same { mx with sizeMode } := ⟨h.1, rfl, h.2.2⟩
          exact .lexed (hs.switchSizeMode _) (ht.switchSizeMode _) hcursor hdepth hloop hrelaxed
            (hclear hat hs hlx hnext) (hclear hat' ht hmx (by rw [← h.next, hnext])) hlx hmx
            (.same hsame)
      | stuck _ _ herror => rw [hnext] at herror; cases herror
  | error e =>
      rcases h.next_error hnext with ⟨e', hnext', hplace⟩
      rcases hat.switched_stuck hs hlx hnext sizeMode with ⟨nx, f, hnx, hwithin, hmode, hf, hfplace⟩
      rcases hat'.switched_stuck ht hmx hnext' sizeMode with
        ⟨nx', f', hnx', hwithin', hmode', hf', hfplace'⟩
      exact .lexed (hs.switchSizeMode _) (ht.switchSizeMode _) hcursor hdepth hloop hrelaxed
        hnx hnx' hwithin hwithin' (.stuck (hwithin.1.trans hwithin'.1.symm)
          (hmode.trans hmode'.symm) hf hf' (by rw [hfplace, hfplace', hplace]))

/-- Switching the mode keeps states matched. This is the one operation that can tell how much was
    read, since reading resumes at the current token only if the buffer holds it. -/
theorem Matches.switched (h : s.Matches source t) (sizeMode : Bool) :
    (Parse.switchSizeMode sizeMode s).Matches source (Parse.switchSizeMode sizeMode t) := by
  cases h with
  | @read base _ _ hbase hs ht =>
      by_cases hmode : base.buffer.lexer.sizeMode = sizeMode
      · have hkept : ∀ {t : State}, base.Reads t → Parse.switchSizeMode sizeMode t = t := by
          rintro _ ⟨n, rfl⟩
          unfold Parse.switchSizeMode TokenBuffer.setSizeMode
          rw [if_pos (by simpa using hmode)]
        rw [hkept hs, hkept ht]
        exact .read hbase hs ht
      -- Either the current token was read before and the lexers go back to it, or neither has
      -- gone further.
      · cases htoken : base.buffer.tokens[base.cursor]? with
        | some u =>
            have hmem := Array.mem_toList_iff.2 (Array.mem_of_getElem? htoken)
            have hplace : u.position.IsPlace source.toList := (hbase.buffer.tokens u hmem).place.1
            rcases hbase.switched_of_some hs hplace hmode htoken with ⟨hat, hwithin⟩
            rcases hbase.switched_of_some ht hplace hmode htoken with ⟨hat', hwithin'⟩
            have hframe := (Matches.read hbase hs ht).frame
            have hsame : ({ s.buffer.lexer.resetTo u.position with sizeMode } : Lexer).Same
                { t.buffer.lexer.resetTo u.position with sizeMode } :=
              Lexer.same_of_cursor (hwithin.1.trans hwithin'.1.symm) rfl
                (by
                  simp only [Lexer.resetTo, (hbase.reads hs).buffer.source_eq,
                    (hbase.reads ht).buffer.source_eq])
            exact .lexed ((hbase.reads hs).switchSizeMode _) ((hbase.reads ht).switchSizeMode _)
              hframe.1 hframe.2.1 hframe.2.2.1 hframe.2.2.2 hat hat' hwithin hwithin' (.same hsame)
        | none =>
            have hat := hbase.at_of_none htoken
            have hwithin : base.buffer.lexer.Within source :=
              ⟨hbase.buffer.source_eq, hbase.buffer.stands⟩
            have hframe := (Matches.read hbase hs ht).frame
            exact .switched_lexed (hbase.reads hs) (hbase.reads ht) hframe.1 hframe.2.1 hframe.2.2.1
              hframe.2.2.2 (hat.reads hbase hs) (hat.reads hbase ht) hwithin hwithin
              (.same (.refl _)) sizeMode
  | lexed hsound hsound' hcursor hdepth hloop hrelaxed hat hat' hlx hmx hagrees =>
      exact Matches.switched_lexed hsound hsound' hcursor hdepth hloop hrelaxed hat hat' hlx hmx
        hagrees sizeMode

/-- So does going on behind guest code. -/
theorem Matches.guest (h : s.Matches source t) {code : String} {resume : Position}
    (hbrace : s.token.kind = .leftBrace)
    (hcode : guestCodeAt? source s.token.stop = some (code, resume)) :
    ({ s.advanced with
      buffer := s.advanced.buffer.restart s.advanced.cursor resume } : State).Matches source
      { t.advanced with buffer := t.advanced.buffer.restart t.advanced.cursor resume } := by
  -- Both states have come to the same token, so the code is found in the same place.
  have hadvanced := h.advanced
  rcases hadvanced.sound with ⟨hs, ht⟩
  have hwithin : ∀ {s : State}, s.Sound source →
      (s.buffer.lexer.resetTo resume).Within source := by
    intro s hs
    have hplace : resume.IsPlace s.buffer.lexer.source.toList := by
      rw [hs.buffer.source_eq]
      exact (guestCodeAt?_place hcode).1
    have hstands := Lexer.resetTo_stands hplace
    rw [hs.buffer.source_eq] at hstands
    exact ⟨hs.buffer.source_eq, hstands⟩
  have hsame : (s.advanced.buffer.lexer.resetTo resume).Same
      (t.advanced.buffer.lexer.resetTo resume) := by
    have hsource := hs.buffer.source_eq.trans ht.buffer.source_eq.symm
    exact Lexer.same_of_cursor hsource hadvanced.sizeMode.symm
      (by simp only [Lexer.resetTo, hsource])
  have hframe := hadvanced.frame
  exact .lexed (h.sound.1.guest hbrace hcode)
    (h.sound.2.guest (by rw [h.token]; exact hbrace) (by rw [h.token]; exact hcode)) hframe.1
    hframe.2.1 hframe.2.2.1 hframe.2.2.2 (hs.at_restart resume) (ht.at_restart resume) (hwithin hs)
    (hwithin ht) (.same hsame)

end State

/-! ### Outcomes -/

variable {α β : Type} {env : Env} {s t : State} {R : State → State → Prop}

/-- Two outcomes are the same value or the same error, in related states. -/
def SameResult (R : State → State → Prop) :
    EStateM.Result ParseError State α → EStateM.Result ParseError State α → Prop
  | .ok a s, .ok b t => a = b ∧ R s t
  | .error e s, .error e' t => e = e' ∧ R s t
  | _, _ => False

namespace SameResult

theorem imp {R' : State → State → Prop} {r r' : EStateM.Result ParseError State α}
    (h : SameResult R r r') (hR : ∀ s t, R s t → R' s t) : SameResult R' r r' := by
  cases r <;> cases r'
  · exact ⟨h.1, hR _ _ h.2⟩
  · exact h.elim
  · exact h.elim
  · exact ⟨h.1, hR _ _ h.2⟩

theorem bind {p : Parse α} {f : α → Parse β} (hp : SameResult R (p env s) (p env t))
    (hf : ∀ a s' t', p env s = .ok a s' → R s' t' → SameResult R (f a env s') (f a env t')) :
    SameResult R ((p >>= f) env s) ((p >>= f) env t) := by
  rw [bind_run, bind_run]
  cases hs : p env s <;> cases ht : p env t <;> rw [hs, ht] at hp
  · rcases hp with ⟨rfl, hstates⟩
    exact hf _ _ _ hs hstates
  · exact hp.elim
  · exact hp.elim
  · exact hp

theorem around {p : Parse α} {before after : State → State}
    (hp : SameResult R (p env (before s)) (p env (before t)))
    (hafter : ∀ u v, R u v → R (after u) (after v)) :
    SameResult R (Parse.around before after p env s) (Parse.around before after p env t) := by
  unfold Parse.around
  cases hs : p env (before s) <;> cases ht : p env (before t) <;> rw [hs, ht] at hp
  · exact ⟨hp.1, hafter _ _ hp.2⟩
  · exact hp.elim
  · exact hp.elim
  · exact ⟨hp.1, hafter _ _ hp.2⟩

/-- From states that match, a nested parser comes to the same. Either the budget is spent in both
    at the same token, or both are one level deeper and still match. -/
theorem nested {p : Parse α} (hmatch : s.Matches env.source t)
    (hp : ∀ depth, SameResult (State.Matches env.source) (p env (s.filled.atDepth depth))
      (p env (t.filled.atDepth depth))) :
    SameResult (State.Matches env.source) (Parse.nested p env s) (Parse.nested p env t) := by
  have hdepth := hmatch.frame.2.1
  cases henter : env.guard.enter s.depth s.token.position with
  | error e =>
      rw [nested_run, nested_run, hdepth, hmatch.token, henter]
      exact ⟨rfl, hmatch.filled⟩
  | ok depth =>
      rw [nested_entered henter,
        nested_entered (s := t) (by rw [hdepth, hmatch.token]; exact henter)]
      refine around (hp depth) fun u v huv => ?_
      rw [huv.frame.2.1]
      exact huv.atDepth _

end SameResult

/-! ### Heedless parsers -/

/-- A parser comes to the same from states that match. -/
def Heedless (env : Env) (p : Parse α) : Prop :=
  ∀ s t, s.Matches env.source t → SameResult (State.Matches env.source) (p env s) (p env t)

namespace Heedless

theorem pure (a : α) : Heedless env (Pure.pure a : Parse α) := fun _ _ h => ⟨rfl, h⟩

theorem throw (e : ParseError) : Heedless env (MonadExcept.throw e : Parse α) :=
  fun _ _ h => ⟨rfl, h⟩

theorem bind {p : Parse α} {f : α → Parse β} (hp : Heedless env p)
    (hf : ∀ a, Heedless env (f a)) : Heedless env (p >>= f) :=
  fun s t h => (hp s t h).bind fun a s' t' _ h' => hf a s' t' h'

theorem ite {c : Prop} [Decidable c] {p q : Parse α} (hp : Heedless env p)
    (hq : Heedless env q) : Heedless env (if c then p else q) := by
  split
  · exact hp
  · exact hq

theorem peekKind (n : Nat) : Heedless env (Parse.peekKind n) := by
  intro s t h
  rw [peekKind_run, peekKind_run, h.tokenAt n]
  exact ⟨rfl, h.reads ⟨_, rfl⟩ ⟨_, rfl⟩⟩

theorem check (kind : Kind) : Heedless env (Parse.check kind) :=
  (peekKind 0).bind fun _ => pure _

theorem current : Heedless env Parse.current := by
  intro s t h
  rw [current_run, current_run, h.token]
  exact ⟨rfl, h.filled⟩

theorem consume : Heedless env Parse.consume := by
  intro s t h
  rw [consume_run, consume_run, h.token]
  exact ⟨rfl, h.advanced⟩

theorem taking {f : Token → Parse β} (hf : ∀ t, Heedless env (f t)) :
    Heedless env (Parse.consume >>= f) := consume.bind hf

theorem exhausted : Heedless env (Parse.exhausted : Parse α) :=
  current.bind fun _ _ _ h => ⟨rfl, h⟩

theorem loop {f : α → Parse (α ⊕ β)} (hf : ∀ a, Heedless env (f a)) (a : α) :
    Heedless env (Parse.loop a f) := by
  have hrounds : ∀ n a, Heedless env (iterate f n a) := by
    intro n
    induction n with
    | zero => exact fun _ => exhausted
    | succ n ih =>
        refine fun a => (hf a).bind fun r => ?_
        cases r with
        | inl next => exact ih next
        | inr b => exact pure b
  intro s t h
  rw [loop_run, loop_run]
  exact hrounds _ a s t h

/-- A look-ahead comes back to where it began. -/
theorem lookahead {p : Parse α} (hscans : Scans (Parse.lookahead p)) (hp : Heedless env p) :
    Heedless env (Parse.lookahead p) := by
  intro s t h
  have hboth := hp s t h
  have hreads : ∀ {s u : State} {a : α}, Parse.lookahead p env s = .ok a u → s.Reads u := by
    intro s u a hrun
    rcases hscans env s with ⟨b, v, hv, hok⟩ | ⟨v, _, herror⟩
    · cases (hok env.guard).symm.trans hrun
      exact hv
    · cases (herror env.guard).symm.trans hrun
  have hs := lookahead_run p env s
  have ht := lookahead_run p env t
  cases hps : p env s <;> cases hpt : p env t <;> rw [hps, hpt] at hboth <;> rw [hps] at hs <;>
    rw [hpt] at ht <;> rw [hs, ht]
  · exact ⟨hboth.1, h.reads (hreads hs) (hreads ht)⟩
  · exact hboth.elim
  · exact hboth.elim
  · exact hboth

end Heedless

theorem heedless_expectClosing (o : Token) (kind : Kind) : Heedless env (expectClosing o kind) :=
  (Heedless.check kind).bind fun _ => .ite .consume (Heedless.current.bind fun _ => .throw _)

theorem heedless_literal : Heedless env literal := by
  intro s t h
  rw [literal_run, literal_run, h.token]
  cases literalOf env.source s.token with
  | ok e => exact ⟨rfl, h.advanced⟩
  | error e => exact ⟨rfl, h.filled⟩

/-- The body of a block of guest code is taken from the text. -/
theorem heedless_guestBody (language : String) (names : List String) (p : Position) :
    Heedless env (guestBody language names p) := by
  intro s t h
  by_cases hbrace : s.token.kind = .leftBrace
  · rw [guestBody_run _ _ _ hbrace, guestBody_run _ _ _ (by rw [h.token]; exact hbrace), h.token]
    cases hcode : guestCodeAt? env.source s.token.stop with
    | none => exact ⟨rfl, h.advanced⟩
    | some found => exact ⟨rfl, h.guest hbrace hcode⟩
  · unfold guestBody
    rw [bind_run, bind_run, expect_run, expect_run, State.token_filled, State.token_filled, h.token,
      if_neg hbrace, if_neg hbrace]
    exact ⟨rfl, h.filled.filled⟩

theorem heedless_capturesThenBrace : Heedless env capturesThenBrace := by
  refine .lookahead scans_capturesThenBrace (.taking fun _ => (Heedless.check _).bind fun _ =>
    .ite (.taking fun _ => ?_) (.check _))
  refine (Heedless.loop (fun _ => (Heedless.peekKind 0).bind fun _ =>
    .ite (.taking fun _ => .pure _) (.pure _)) ()).bind fun _ => ?_
  exact (Heedless.check _).bind fun _ => .ite (.taking fun _ => .check _) (.pure _)

/-- The look-aheads of unbounded length. -/
theorem Survey.heedless {stage : Stage} {κ : Nat → Kind} {p : Parse Bool} {V : Bool → Prop}
    (h : Survey stage κ p V) : Heedless env p := by
  cases h with
  | call =>
      have hmember : Heedless env memberAhead :=
        (Heedless.check _).bind fun _ =>
          .ite ((Heedless.peekKind 1).bind fun _ => .pure _) (.pure _)
      refine .lookahead scans_chainEndsInCall (.taking fun _ => .loop (fun _ =>
        hmember.bind fun _ => ?_) ())
      exact .ite (.taking fun _ => .taking fun _ => .pure _)
        ((Heedless.check _).bind fun _ => .pure _)
  | captures => exact heedless_capturesThenBrace
  | forIn =>
      refine .lookahead scans_forInAhead (.taking fun _ => .loop (fun _ =>
        (Heedless.peekKind 0).bind fun _ => .ite (.taking fun _ =>
          (Heedless.peekKind 0).bind fun kind => ?_) (.pure _)) ())
      split
      · exact .taking fun _ => .pure _
      · exact .pure _
      · exact .pure _
  | assignment =>
      intro s t h
      rw [assignmentAhead_run, assignmentAhead_run, h.frame.2.2.2]
      refine Heedless.lookahead (scans_seekAssignment s.isRelaxed) (.loop (fun depth => ?_) 0) s t h
      refine (Heedless.peekKind 0).bind fun kind => ?_
      split
      · exact .pure _
      · exact .pure _
      · exact .taking fun _ => .pure _
  | newlines =>
      exact .loop (fun n => (Heedless.peekKind n).bind fun _ => .ite (.pure _) (.pure _)) 0

/-! ### Derived parsers -/

/-- The parts of a grammar are heedless. -/
structure KeepsHeedless (env : Env) (g : Grammar) : Prop where
  expression : Heedless env g.expression
  operand : Heedless env g.operand
  pattern : Heedless env g.pattern
  statement : Heedless env g.statement
  conditional : Heedless env g.conditional

/-- Derived parsers are heedless, if the grammar they are read against is. What two matching
    states show is the same, and each operation leaves matching states, so the derivation is
    followed in both at once. The discipline of sound states says where the second of two parsers
    begins. -/
theorem heedless_of_alike {g : Grammar} {γ : View} {m : α → α} {p q : Parse α}
    {Q : α → View → Prop} (hplaced : (placing env).Keeps g) (hg : KeepsHeedless env g)
    (h : Alike (Position.IsPlace env.source.toList) True ⟨0, 0⟩ g g γ m p q Q)
    (hs : (placing env).inv γ s) (hmatch : s.Matches env.source t) :
    SameResult (State.Matches env.source) (p env s) (p env t) := by
  induction h generalizing s t with
  | weaken _ _ ih => exact ih hs hmatch
  | pure => exact ⟨rfl, hmatch⟩
  | bind hp _ ihp ihf =>
      refine (ihp hs hmatch).bind fun a s' t' hrun hmatch' => ?_
      rcases Discipline.exists_view hplaced hp hs hrun with ⟨γ', hR, hs'⟩
      exact ihf a γ' hR hs' hmatch'
  | throw => exact ⟨rfl, hmatch⟩
  | giveUp hend _ ih => exact ih ((placing env).spend hs hend) hmatch
  | stop hahead _ _ ih => exact ih _ rfl ((placing env).revive hs hahead) hmatch
  | exhaust _ _ _ _ _ _ ih => exact ih hs hmatch
  | peek n _ _ _ ih =>
      rw [bind_run, bind_run, peekKind_run, peekKind_run, hmatch.tokenAt n, hs.2 n]
      exact ih ((placing env).reads hs ⟨_, rfl⟩) (hmatch.reads ⟨_, rfl⟩ ⟨_, rfl⟩)
  | current _ _ ih =>
      rw [bind_run, bind_run, current_run, current_run, hmatch.token]
      exact ih s.token hs.2.token (fun _ => hs.1.place.1) (Discipline.filled hs) hmatch.filled
  | @refuse γ α m f q Q hend hf =>
      rcases hf s.token (by rw [hs.2.token, hend]) with ⟨e, he, _⟩
      rw [bind_run, bind_run, current_run, current_run, hmatch.token]
      simp only [he]
      exact ⟨rfl, hmatch.filled⟩
  | languages _ _ ih => exact ih env.languages hs hmatch
  | @state γ α m f h Q _ ih =>
      change SameResult _ (f s.isRelaxed s.loopDepth env s) (f t.isRelaxed t.loopDepth env t)
      rw [hmatch.frame.2.2.1, hmatch.frame.2.2.2]
      exact ih s.isRelaxed s.loopDepth hs hmatch
  | scan _ hsurvey _ => exact hsurvey.heedless _ _ hmatch
  | allowed _ _ _ _ ih => exact ih hs hmatch
  | take => exact Heedless.consume _ _ hmatch
  | takeOpener => exact Heedless.consume _ _ hmatch
  | takeNewline => exact Heedless.consume _ _ hmatch
  | closing => exact heedless_expectClosing _ _ _ _ hmatch
  | literal => exact heedless_literal _ _ hmatch
  | @loop γ α β m n a b f f' I Q _ hstart hf ih =>
      -- on the rounds that are left, since a round leads to the next by the discipline
      have hrounds : ∀ n a γ s t, I a γ → (placing env).inv γ s → s.Matches env.source t →
          SameResult (State.Matches env.source) (iterate f n a env s) (iterate f n a env t) := by
        intro n
        induction n with
        | zero => exact fun _ _ s t _ _ h => Heedless.exhausted s t h
        | succ n ihn =>
            intro a γ s t ha hs hmatch
            refine (ih a γ ha hs hmatch).bind fun r s' t' hrun hmatch' => ?_
            rcases Discipline.exists_view hplaced (hf a γ ha) hs hrun with ⟨γ', hr, hs'⟩
            cases r with
            | inl next => exact ihn next γ' s' t' hr hs' hmatch'
            | inr => exact ⟨rfl, hmatch'⟩
      rw [loop_run, loop_run]
      exact hrounds _ a γ s t hstart hs hmatch
  | nested _ _ ih =>
      exact .nested hmatch fun depth =>
        ih ((placing env).frame depth s.loopDepth s.isRelaxed (Discipline.filled hs))
          (hmatch.filled.atDepth depth)
  | inLoop _ ih =>
      exact .around (ih ((placing env).frame s.depth (s.loopDepth + 1) s.isRelaxed hs)
        (hmatch.inLoops (· + 1))) fun _ _ h => h.inLoops (· - 1)
  | terminators isRelaxed _ ih =>
      rw [withTerminators_run, withTerminators_run, hmatch.frame.2.2.2]
      exact SameResult.around (ih ((placing env).frame s.depth s.loopDepth isRelaxed hs)
        (hmatch.relaxed isRelaxed)) fun _ _ h => h.relaxed s.isRelaxed
  | size hlive hstage _ _ ih =>
      rcases (placing env).sizeOn hs hlive hstage with ⟨κ, hon⟩
      exact .around (ih κ hon (hmatch.switched true)) fun _ _ h => h.switched false
  | expression => exact hg.expression s t hmatch
  | operand => exact hg.operand s t hmatch
  | pattern => exact hg.pattern s t hmatch
  | statement => exact hg.statement s t hmatch
  | conditional => exact hg.conditional s t hmatch
  | guest => exact heedless_guestBody _ _ _ s t hmatch

/-! ### Handlers -/

theorem heedless_languages : Heedless env languages := fun _ _ h => ⟨rfl, h⟩

theorem heedless_captures : Heedless env captures := by
  refine (Heedless.check _).bind fun _ => .ite (.taking fun opening => ?_) (.pure _)
  refine (Heedless.loop (fun acc => (Heedless.check _).bind fun _ => .ite (.taking fun name =>
    (Heedless.check _).bind fun _ => .ite (.taking fun _ => .pure _) (.pure _)) (.pure _))
    []).bind fun names => ?_
  exact (heedless_expectClosing opening _).bind fun _ => .pure _

/-- No view of what is ahead is needed for guest code, so this holds at a newline, too. -/
theorem heedless_codeBlock : Heedless env codeBlock := by
  have hahead : Heedless env codeBlockAhead := by
    refine Heedless.current.bind fun head => (Heedless.peekKind 1).bind fun next =>
      heedless_languages.bind fun table => ?_
    dsimp only
    split
    · exact .ite (.pure _) (.ite (.pure _) (.ite (.throw _) (.pure _)))
    · exact .ite heedless_capturesThenBrace (.pure _)
    · exact .pure _
  rw [codeBlock_eq]
  refine hahead.bind fun _ => .ite (Heedless.current.bind fun head =>
    heedless_languages.bind fun table => ?_) (.pure _)
  split
  · exact .throw _
  · exact .taking fun _ => heedless_captures.bind fun names => heedless_guestBody _ _ _

/-- The handlers of the language are heedless, if the grammar is. -/
theorem heedless_builtin {g : Grammar} (hplaced : (placing env).Keeps g)
    (hg : KeepsHeedless env g) (hproper : g.Proper) (settings : HandlerSettings) :
    Heedless env ((Handler.builtin settings).parse g) := by
  by_cases hcode : settings.construct = .codeBlock
  · have hparse : (Handler.builtin settings).parse g = codeBlock := by
      simp only [Handler.builtin, Handler.rule, hcode, Construct.keyword?]
    rw [hparse]
    exact heedless_codeBlock
  · intro s t h
    let κ : Nat → Kind := fun n => (s.buffer.tokenAt (s.cursor + n)).kind
    exact heedless_of_alike hplaced hg
      (alike_builtin (γ := View.start κ) hproper rfl fun h => absurd h hcode)
      ⟨h.sound.1, s.sees⟩ h

end Parse

end PolyScript
