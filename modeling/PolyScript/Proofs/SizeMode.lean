import PolyScript.Proofs.SizesRead

/-!
# Size Mode Behind a Size

Size mode is switched on before the size of a segment is read and off behind it,
where the other wrappers put back what was there before. So a parser that begins
with size mode off ends with it off, by `Parse.Made.kept`, and one that begins with
it on may end either way.

Which way it ends depends on one thing only, and whether the parser succeeds is not
it: size mode is still on if no size was read on the way. Where a parser succeeds,
this can be seen in what it returns. So a size in which there is no other is read
in size mode to its end, and no name in it has a dash.

That is lost where sizes are nested. Behind the size of an inner segment the rest
of the outer size is read with size mode off, and a dash there continues a name:
in `<<1:(f(<<2:3>>) + a-b)>>` the last operand is the one name `a-b`, while the same
operand before the inner bit string would be a subtraction.

## Main definitions

* `TokenBuffer.Carries`: One buffer came of another in the same mode.
* `Parse.ReadsSize`: A run reads the size of a segment.

## Theorems

* `Parse.Made.carries`: A run that reads no size stays in one mode.
* `Parse.Made.sizeMode_iff`: Size mode is on behind a run if it was on before and no
  size was read.
* `Parse.undashed_of_size`: A size without sizes in it has no names with dashes.
* `sizes_scoped`: All of this for the parsers of expressions, bit strings and sizes.
* `sizeMode_lost`: A call may leave size mode off where it was on, and a dash is then
  taken for a part of a name.
-/

namespace PolyScript

namespace TokenBuffer

/-! ### Buffers in one mode -/

/-- One buffer came of another in the same mode, and all that was read in size mode is free of
    dashes. -/
structure Carries (b c : TokenBuffer) : Prop where
  sizeMode : c.lexer.sizeMode = b.lexer.sizeMode
  undashed : b.lexer.sizeMode = true → ∀ i, b.UndashedFrom i → c.UndashedFrom i

variable {b c d : TokenBuffer}

theorem Carries.refl (b : TokenBuffer) : b.Carries b := ⟨rfl, fun _ _ => id⟩

theorem Carries.trans (h1 : b.Carries c) (h2 : c.Carries d) : b.Carries d where
  sizeMode := h2.sizeMode.trans h1.sizeMode
  undashed := fun hb i hi => h2.undashed (h1.sizeMode.trans hb) i (h1.undashed hb i hi)

theorem carries_readMore (b : TokenBuffer) (n : Nat) : b.Carries (b.readMore n) where
  sizeMode := sizeMode_readMore n b
  undashed := fun hb _ hi => hi.readMore hb n

/-- Dropping tokens adds no names. -/
theorem UndashedFrom.take {i index : Nat} (h : b.UndashedFrom i)
    (hc : c.tokens = b.tokens.take index) : c.UndashedFrom i := by
  intro j t hj ht hname
  refine h j t hj ?_ hname
  rw [hc, Array.take_eq_extract, Array.getElem?_extract] at ht
  split at ht
  · simpa using ht
  · cases ht

theorem carries_restart (b : TokenBuffer) (index : Nat) (p : Position) :
    b.Carries (b.restart index p) where
  sizeMode := rfl
  undashed := fun _ _ hi => hi.take rfl

theorem UndashedFrom.setSizeMode {i : Nat} (h : b.UndashedFrom i) (cursor : Nat) (enabled : Bool) :
    (b.setSizeMode cursor enabled).UndashedFrom i := by
  unfold TokenBuffer.setSizeMode
  split
  · exact h
  · exact h.take rfl

/-- What is read behind a switch to size mode is free of dashes. -/
theorem undashed_of_setSizeMode {i : Nat} (h : b.lexer.sizeMode = true → b.UndashedFrom i) :
    (b.setSizeMode i true).UndashedFrom i := by
  by_cases hmode : b.lexer.sizeMode = true
  · rw [setSizeMode, if_pos hmode]
    exact h hmode
  · intro j t hj ht
    rw [setSizeMode, if_neg hmode] at ht
    have hsize : (b.tokens.take i).size ≤ i := by
      rw [Array.take_eq_extract, Array.size_extract]
      omega
    cases ht.symm.trans (Array.getElem?_eq_none (Nat.le_trans hsize hj))

end TokenBuffer

namespace Parse

variable {α : Type} {env : Env} {p : Parse α} {s : State}

/-! ### Runs that read sizes -/

/-- A run of a parser from a state reads the size of a segment, whether it comes to an
    end or fails on the way. -/
inductive ReadsSize (env : Env) : {α : Type} → Parse α → State → Prop
  | here {α : Type} {p : Parse α} {s : State} : ReadsSize env (inSizeMode p) s
  | first {α β : Type} {p : Parse α} {f : α → Parse β} {s : State} :
    (∀ a, Made (f a)) → ReadsSize env p s → ReadsSize env (p >>= f) s
  | next {α β : Type} {p : Parse α} {f : α → Parse β} {a : α} {s t : State} :
    p env s = .ok a t → ReadsSize env (f a) t → ReadsSize env (p >>= f) s
  | nested {α : Type} {p : Parse α} {depth : Nat} {s : State} :
    env.guard.enter s.depth s.token.position = .ok depth →
    ReadsSize env p (s.filled.atDepth depth) → ReadsSize env (nested p) s
  | inLoop {α : Type} {p : Parse α} {s : State} :
    ReadsSize env p { s with loopDepth := s.loopDepth + 1 } → ReadsSize env (inLoop p) s
  | withTerminators {α : Type} {p : Parse α} {isRelaxed : Bool} {s : State} :
    ReadsSize env p { s with isRelaxed } → ReadsSize env (withTerminators isRelaxed p) s

theorem buffer_around {before after : State → State} (hafter : ∀ t, (after t).buffer = t.buffer) :
    (endState (around before after p env s)).buffer = (endState (p env (before s))).buffer := by
  unfold around
  cases p env (before s) <;> exact hafter _

theorem buffer_nested {depth : Nat}
    (henter : env.guard.enter s.depth s.token.position = .ok depth) :
    (endState (nested p env s)).buffer = (endState (p env (s.filled.atDepth depth))).buffer := by
  rw [nested_entered henter]
  exact buffer_around fun _ => rfl

theorem buffer_inLoop : (endState (inLoop p env s)).buffer =
    (endState (p env { s with loopDepth := s.loopDepth + 1 })).buffer :=
  buffer_around fun _ => rfl

theorem buffer_withTerminators {isRelaxed : Bool} :
    (endState (withTerminators isRelaxed p env s)).buffer =
      (endState (p env { s with isRelaxed })).buffer := by
  rw [withTerminators_run]
  exact buffer_around fun _ => rfl

theorem sizeMode_inSizeMode : (endState (inSizeMode p env s)).sizeMode = false := by
  unfold inSizeMode around
  cases p env (switchSizeMode true s) <;> exact TokenBuffer.sizeMode_setSizeMode _ _ _

/-- Size mode is off behind a run that reads a size, since nothing puts it on again. -/
theorem ReadsSize.sizeMode (h : ReadsSize env p s) : (endState (p env s)).sizeMode = false := by
  induction h with
  | here => exact sizeMode_inSizeMode
  | @first α β p f s hf _ ih =>
      rw [bind_run]
      cases hrun : p env s with
      | ok a t =>
          rw [hrun] at ih
          -- What runs behind it does not put the mode on, so it would have been on in front of
          -- that.
          by_contra hon
          have ht : t.sizeMode = true :=
            ((hf a).kept env t).sizeMode (Bool.eq_true_of_not_eq_false hon)
          cases ht.symm.trans ih
      | error e t =>
          rw [hrun] at ih
          exact ih
  | next hrun _ ih =>
      rw [bind_run, hrun]
      exact ih
  | nested henter _ ih => rwa [State.sizeMode, buffer_nested henter]
  | inLoop _ ih => rwa [State.sizeMode, buffer_inLoop]
  | withTerminators _ ih => rwa [State.sizeMode, buffer_withTerminators]

/-- A run that reads no size stays in one mode, with any outcome. Only the wrapper around a size
    switches the mode, and a run that gets there has read one. -/
theorem Made.carries (h : Made p) (env : Env) (s : State) :
    s.buffer.Carries (endState (p env s)).buffer ∨ ReadsSize env p s := by
  -- One case for each operation. Reading ahead, going back and restarting keep the mode.
  induction h generalizing s with
  | pure => exact .inl (.refl _)
  | @bind α β p f hp hf ihp ihf =>
      rw [bind_run]
      have hfirst := ihp s
      cases hrun : p env s with
      | ok a t =>
          rw [hrun] at hfirst
          rcases hfirst with hfirst | hreads
          · exact (ihf a t).imp hfirst.trans (.next hrun)
          · exact .inr (.first hf hreads)
      | error e t =>
          rw [hrun] at hfirst
          exact hfirst.imp_right (.first hf)
  | throw => exact .inl (.refl _)
  | read => exact .inl (.refl _)
  | get => exact .inl (.refl _)
  | peek => exact .inl (s.buffer.carries_readMore _)
  | consume => exact .inl (s.buffer.carries_readMore _)
  | window count =>
      rcases window_run count s with ⟨t, ⟨n, rfl⟩, _, hrun⟩
      rw [hrun env]
      exact .inl (s.buffer.carries_readMore n)
  | setCursor => exact .inl (.refl _)
  | resumeAt p => exact .inl (s.buffer.carries_restart _ p)
  -- What is nested runs from a deeper state with the same buffer.
  | nested _ ih =>
      cases henter : env.guard.enter s.depth s.token.position with
      | error e =>
          rw [nested_run, henter]
          exact .inl (s.buffer.carries_readMore _)
      | ok depth =>
          rw [buffer_nested henter]
          exact (ih (s.filled.atDepth depth)).imp (s.buffer.carries_readMore _).trans
            (.nested henter)
  | inLoop _ ih =>
      rw [buffer_inLoop]
      exact (ih { s with loopDepth := s.loopDepth + 1 }).imp id .inLoop
  | withTerminators isRelaxed _ ih =>
      rw [buffer_withTerminators]
      exact (ih { s with isRelaxed }).imp id .withTerminators
  | inSizeMode => exact .inr .here
  | loopControl =>
      rw [loopControl_run]
      split
      · exact .inl (s.buffer.carries_readMore _)
      · exact .inl ((s.buffer.carries_readMore _).trans (s.filled.buffer.carries_readMore _))

/-- Size mode is on behind a run if it was on before and no size was read. -/
theorem Made.sizeMode_iff (h : Made p) (env : Env) (s : State) :
    (endState (p env s)).sizeMode = true ↔ s.sizeMode = true ∧ ¬ReadsSize env p s := by
  constructor
  · intro hon
    exact ⟨(h.kept env s).sizeMode hon, fun hreads => absurd (hon.symm.trans hreads.sizeMode) nofun⟩
  · rintro ⟨hon, hreads⟩
    exact ((h.carries env s).resolve_right hreads).sizeMode.trans hon

/-- Where size mode is still on behind a run, no name with a dash was read. -/
theorem Made.undashed (h : Made p) (env : Env) {i : Nat} (hs : s.buffer.UndashedFrom i)
    (hon : (endState (p env s)).sizeMode = true) :
    (endState (p env s)).buffer.UndashedFrom i := by
  rcases (h.sizeMode_iff env s).1 hon with ⟨hmode, hreads⟩
  exact ((h.carries env s).resolve_right hreads).undashed hmode i hs

/-- A size without sizes in it is read in size mode to its end, so that no name in it has a
    dash. -/
theorem undashed_of_size {g : Grammar} (hg : g.Made) (hsizes : LeavesSizes env g) {e : Expr}
    {t : State} (hs : s.sizeMode = true → s.buffer.UndashedFrom s.cursor)
    (hrun : inSizeMode (segmentSize g) env s = .ok e t) (he : e.hasSizes = false) :
    t.buffer.UndashedFrom s.cursor := by
  unfold inSizeMode around at hrun
  split at hrun
  · rename_i b u hinner
    cases hrun
    have hswitched : (switchSizeMode true s).sizeMode = true :=
      TokenBuffer.sizeMode_setSizeMode s.buffer s.cursor true
    -- The size has no size in it, so nothing has put the mode off.
    have hon : u.sizeMode = (true && !e.hasSizes) :=
      leaves_segmentSize hsizes _ _ _ hswitched hinner
    rw [he] at hon
    have hundashed : (endState (segmentSize g env (switchSizeMode true s))).buffer.UndashedFrom
        s.cursor := by
      refine (made_segmentSize hg).undashed env (TokenBuffer.undashed_of_setSizeMode hs) ?_
      rw [hinner]
      exact hon
    rw [hinner] at hundashed
    exact hundashed.setSizeMode u.cursor false
  · cases hrun

theorem exists_ok (p : Parse α) (env : Env) (s : State) (test : α → Bool)
    (h : (runFrom p env s).1.toOption.any test = true) :
    ∃ a t, p env s = .ok a t ∧ test a = true := by
  unfold runFrom at h
  cases hrun : p env s with
  | ok a t =>
      rw [hrun] at h
      exact ⟨a, t, rfl, h⟩
  | error e t =>
      rw [hrun] at h
      cases h

end Parse

/-- Size mode is scoped as long as sizes are not nested. From any state, a call of the parser of
    expressions or of bit strings, with any outcome, leaves it on exactly if it was on and no size
    was read; where a call succeeds, none was read if what it returns has none. And a size in
    which there is no other is read in size mode as a whole: no name in it has a dash. -/
theorem sizes_scoped (settings : Settings) (source : String) :
    let parser := Parser.ofSettings settings
    let env := parser.env source
    let grammar := parser.grammar source
    (∀ s : Parse.State,
      ((Parse.endState (grammar.expression env s)).sizeMode = true ↔
        s.sizeMode = true ∧ ¬Parse.ReadsSize env grammar.expression s) ∧
      ∀ e t, grammar.expression env s = .ok e t →
        t.sizeMode = (s.sizeMode && !e.hasSizes)) ∧
    (∀ (inPattern : Bool) (s : Parse.State),
      ((Parse.endState (Parse.bitstring grammar inPattern env s)).sizeMode = true ↔
        s.sizeMode = true ∧ ¬Parse.ReadsSize env (Parse.bitstring grammar inPattern) s) ∧
      ∀ r t, Parse.bitstring grammar inPattern env s = .ok r t →
        t.sizeMode = (s.sizeMode && !segmentsHaveSizes r.1)) ∧
    ∀ (s : Parse.State) e t, (s.sizeMode = true → s.buffer.UndashedFrom s.cursor) →
      Parse.inSizeMode (Parse.segmentSize grammar) env s = .ok e t → e.hasSizes = false →
        t.buffer.UndashedFrom s.cursor := by
  intro parser env grammar
  have hmade : grammar.Made := Grammar.made_level (Registry.isBuiltin_ofSettings settings) _
  have hsizes : Parse.LeavesSizes env grammar := Parse.leavesSizes_level parser.registry _
  refine ⟨fun s => ⟨hmade.expression.sizeMode_iff env s, fun e t hrun => ?_⟩,
    fun inPattern s => ⟨(Parse.made_bitstring hmade inPattern).sizeMode_iff env s,
      fun r t hrun => ?_⟩, fun s e t hs hrun he => Parse.undashed_of_size hmade hsizes hs hrun he⟩
  · exact hsizes.expression _ s e t rfl hrun
  · exact Parse.leaves_bitstring hsizes inPattern s r t rfl hrun

/-- A bit string without sizes does no harm to the size that it stands in. One with a size does. -/
theorem sizes_scoped_group :
    let parser := Parser.ofSettings Settings.defaults
    let start := fun source => Parse.switchSizeMode true (Parse.State.initial source)
    (∃ e t, (parser.grammar "f(<<2>>)").expression (parser.env "f(<<2>>)") (start "f(<<2>>)") =
        .ok e t ∧ t.sizeMode = true) ∧
    (∃ r t, Parse.bitstring (parser.grammar "<<2:3>>") false (parser.env "<<2:3>>")
        (start "<<2:3>>") = .ok r t ∧ t.sizeMode = false) ∧
    ∃ e t, Parse.inSizeMode (Parse.segmentSize (parser.grammar "(f(<<2>>) + a-b)"))
        (parser.env "(f(<<2>>) + a-b)") (Parse.State.initial "(f(<<2>>) + a-b)") = .ok e t ∧
      e.within.length = 8 ∧ t.buffer.UndashedFrom 0 := by
  intro parser start
  refine ⟨?_, ?_, ?_⟩
  · rcases Parse.exists_ok (parser.grammar "f(<<2>>)").expression (parser.env "f(<<2>>)")
      (start "f(<<2>>)") (fun e => !e.hasSizes) (by decide +kernel) with ⟨e, t, hrun, he⟩
    refine ⟨e, t, hrun, ?_⟩
    rw [((sizes_scoped Settings.defaults "f(<<2>>)").1 _).2 e t hrun, he]
    rfl
  · rcases Parse.exists_ok (Parse.bitstring (parser.grammar "<<2:3>>") false)
      (parser.env "<<2:3>>") (start "<<2:3>>") (fun r => segmentsHaveSizes r.1)
      (by decide +kernel) with ⟨r, t, hrun, hr⟩
    refine ⟨r, t, hrun, ?_⟩
    rw [((sizes_scoped Settings.defaults "<<2:3>>").2.1 false _).2 r t hrun, hr]
    rfl
  · rcases Parse.exists_ok
      (Parse.inSizeMode (Parse.segmentSize (parser.grammar "(f(<<2>>) + a-b)")))
      (parser.env "(f(<<2>>) + a-b)") (Parse.State.initial "(f(<<2>>) + a-b)")
      (fun e => !e.hasSizes && e.within.length = 8) (by decide +kernel) with ⟨e, t, hrun, he⟩
    rw [Bool.and_eq_true, Bool.not_eq_true', decide_eq_true_eq] at he
    have hoff : (Parse.State.initial "(f(<<2>>) + a-b)").sizeMode = false := rfl
    exact ⟨e, t, hrun, he.2, (sizes_scoped Settings.defaults "(f(<<2>>) + a-b)").2.2 _ e t
      (fun hon => absurd (hoff.symm.trans hon) Bool.false_ne_true) hrun he.1⟩

/-- A call that begins in size mode need not end in it. The dash behind the inner bit
    string is then read as a part of a name, although it stands in a size. -/
theorem sizeMode_lost :
    let source := "<<1:(f(<<2:3>>) + a-b)>>"
    let parser := Parser.ofSettings Settings.defaults
    (¬ ∀ s : Parse.State,
      (Parse.endState ((parser.grammar source).expression
          (parser.env source) s)).buffer.lexer.sizeMode =
        s.buffer.lexer.sizeMode) ∧
      (match parser.parseExpression source with
        | .ok (.bitstring [.mk _ (some (.grouped (.binary _ .add
            (.identifier name _) _) _)) _ _ _] _) =>
          name
        | _ => "") = "a-b" := by
  refine ⟨fun h => ?_, by decide +kernel⟩
  have hstart := h (Parse.switchSizeMode true (Parse.State.initial "<<1:(f(<<2:3>>) + a-b)>>"))
  revert hstart
  decide +kernel

end PolyScript
