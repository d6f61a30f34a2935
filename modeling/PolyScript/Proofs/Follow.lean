import PolyScript.Proofs.Surveys

/-!
# A Parse Follows Another One

Parsers that are put together in the same way stay in step. If the first parse of a
construct succeeds, and it neither passes over guest code nor comes to the end of its
text with the second one left behind, then the second parse succeeds as well: it yields
the same tree, moved, and the states that the two leave are in step again.

Errors play no part, so nothing is said of parses that fail. That is why a construct
that would read on past the end of the copy does no harm. The first parse would have to
go on at the end of its text, and there it fails.

## Main definitions

* `Parse.View.Tracked`: The second parse is still in step.
* `Parse.Pursues`: What the outcome of the first parse says of the second one.
* `Parse.Follows`: The same of all parts of two grammars.

## Theorems

* `Parse.Chases.peek`, `Parse.Chases.consume` and their like: The steps of a derivation.
* `Parse.Follows.derived`: Derived parsers stay in step.
* `Parse.follows_level`: So do all levels of the grammar.
-/

namespace PolyScript

/-! ### Slices -/

theorem Text.splitBytes?_append (before rest : List Char) :
    splitBytes? (Position.byteCount before) (before ++ rest) = some (before, rest) := by
  induction before with
  | nil => cases rest <;> rfl
  | cons c before ih =>
      have hsize : Position.byteCount (c :: before) = c.utf8Size + Position.byteCount before := rfl
      have hpos := Char.utf8Size_pos c
      rw [List.cons_append, splitBytes?, if_neg (by omega), if_pos (by omega), hsize,
        Nat.add_sub_cancel_left, ih]

/-- The text between two places. -/
theorem Text.slice_eq {source : String} {before piece rest : List Char}
    (h : source.toList = before ++ piece ++ rest) :
    slice source (Position.byteCount before) (Position.byteCount (before ++ piece)) =
      String.ofList piece := by
  have hsize : Position.byteCount (before ++ piece) =
      Position.byteCount before + Position.byteCount piece := by
    simp [Position.byteCount]
  rw [slice, h, List.append_assoc, splitBytes?_append]
  simp only [hsize, Nat.le_add_right, if_true, Nat.add_sub_cancel_left, splitBytes?_append]

/-- A token other than a newline ends where the lexer goes on. -/
theorem Lexer.next_stop {lx lx' : Lexer} {t : Token} (hnext : lx.next = (.ok t, lx'))
    (hkind : t.kind ≠ .newline) : t.stop = lx'.location.offset := by
  have hscans := scansAs_of_next hnext
  rw [location]
  generalize lx.tokenStart.rest = cs at hscans
  generalize lx'.cursor = after at hscans ⊢
  cases hscans with
  | newline => exact absurd rfl hkind
  | endOfInput | string | number | word | symbol => rfl

namespace Excerpt

/-- The copy has the slices of the text. -/
theorem slice_eq (e : Excerpt) {c d : Cursor} (hc : c.Stands e.source.toList) (hd : c.Leads d) :
    Text.slice e.context (c.here.offset + e.shift.bytes) (d.here.offset + e.shift.bytes) =
      Text.slice e.source c.here.offset d.here.offset := by
  rcases hc with ⟨before, hsource, hhere⟩
  rcases hd with ⟨piece, hpiece, hthere⟩
  have hoffset : c.here.offset = Position.byteCount before := by
    rw [hhere, Position.offset_after]
  have hstop : d.here.offset = Position.byteCount (before ++ piece) := by
    rw [hthere, hhere, Position.after, ← Position.advanceAll_append]
    exact Position.offset_after _
  -- Both texts are divided around the piece; the copy has more before it and behind it.
  have hfirst : e.source.toList = before ++ piece ++ d.rest := by
    rw [hsource, hpiece, List.append_assoc]
  have hsecond : e.context.toList = (e.before ++ before) ++ piece ++ (d.rest ++ e.tail) := by
    rw [e.context_eq, hfirst]
    simp only [List.append_assoc]
  have hmoved : ∀ cs : List Char, Position.byteCount cs + e.shift.bytes =
      Position.byteCount (e.before ++ cs) := by
    intro cs
    rw [shift, Position.byteCount, Position.byteCount, Position.byteCount, List.map_append,
      List.sum_append, Nat.add_comm]
  rw [hoffset, hstop, Text.slice_eq hfirst, hmoved, hmoved, ← List.append_assoc,
    Text.slice_eq hsecond]

end Excerpt

namespace Parse

/-! ### Views of parses in step -/

/-- No guest code has been passed over, and the first parse has not left the second one
    behind. -/
def View.Tracked (γ : View) : Prop := γ.coded = false ∧ ∃ κ, γ.ahead = some κ

theorem View.tracked_seeing {γ : View} {κ : Nat → Kind} :
    (γ.seeing κ).Tracked ↔ γ.coded = false := ⟨fun h => h.1, fun h => ⟨h, κ, rfl⟩⟩

theorem View.not_tracked_spent {γ : View} : ¬γ.spent.Tracked := fun ⟨_, _, h⟩ => by cases h

theorem View.Live.tracked {γ : View} (h : γ.Live) (hcoded : γ.coded = false) : γ.Tracked := by
  rcases h with ⟨κ, hκ⟩
  exact ⟨hcoded, κ, by rw [hκ]; rfl⟩

/-- Nothing in a text goes wrong. -/
def tidy : Lexer.Forecast := ⟨none, True, True⟩

/-- Any place stands before whatever goes wrong. -/
def tidyPlace (p : Position) : Prop :=
  tidy.tongues ∨ ∀ lex, tidy.error? = some lex → p.offset < lex.position.offset

end Parse

/-- What is known of a parse of the text, if nothing in it goes wrong. -/
def Excerpt.watch (e : Excerpt) (guard : Guard) :
    Parse.Discipline Parse.tidyPlace Parse.tidy.tongues
      (e.first (.ofList Language.defaults) guard) :=
  Parse.foresight (e.first (.ofList Language.defaults) guard) rfl Parse.tidy 0

namespace Parse

open Lexer

variable {e : Excerpt} {guard : Guard} {α β : Type} {γ : View} {s s' t t' : State}

theorem watch_foreseen (h : (e.watch guard).inv γ s) (hcoded : γ.coded = false) :
    ∃ lx v n, Foreseen tidy e.source 0 γ s lx v n := h.2.2 hcoded

theorem watch_sound (h : (e.watch guard).inv γ s) : s.Sound e.source := h.1.1

theorem watch_clean (h : (e.watch guard).inv γ s) (hcoded : γ.coded = false) (n : Nat) :
    (s.buffer.readMore n).lexError? = none := by
  have hread := (e.watch guard).reads h ⟨n, rfl⟩
  rcases watch_foreseen hread hcoded with ⟨lx, v, k, hf⟩
  cases hlex : (s.buffer.readMore n).lexError? with
  | none => rfl
  | some lex =>
      rcases hf.revised.place_back (hf.toFacing.known hlex) with ⟨_, hnone, _⟩
      cases hnone

namespace Abreast

theorem frame (h : Abreast e s s') :
    s'.depth = s.depth ∧ s'.loopDepth = s.loopDepth ∧ s'.isRelaxed = s.isRelaxed := by
  rcases h with ⟨lx, mx, h⟩
  exact ⟨h.depth, h.loopDepth, h.relaxed⟩

theorem filled (h : Abreast e s s') : Abreast e s.filled s'.filled :=
  (h.reads s.reads_filled).reads' s'.reads_filled

/-- Switching the mode in both parses leaves them in step. -/
theorem switched (h : Abreast e s s') (sizeMode : Bool)
    (hclean : ∀ n, ((switchSizeMode sizeMode s).buffer.readMore n).lexError? = none) :
    Abreast e (switchSizeMode sizeMode s) (switchSizeMode sizeMode s') := by
  rcases h with ⟨lx, mx, h⟩
  rcases h.next with ⟨lx', hnext⟩
  -- A token can be read next, so that no error is in the way of switching.
  have hat : (switchSizeMode sizeMode s).At { lx with sizeMode } := by
    rcases h.first.switched h.sound h.within sizeMode with hat | ⟨_, _, _, _, _, herror, _⟩
    · exact hat
    · cases hnext.symm.trans herror
  have hat' : (switchSizeMode sizeMode s').At { mx with sizeMode } := by
    rcases h.second.switched h.sound' h.within' sizeMode with hat' | ⟨_, _, _, _, _, herror, _⟩
    · exact hat'
    · rcases h.next' with ⟨u, mx', hnext'⟩
      cases hnext'.symm.trans herror
  exact ⟨_, _, {
    first := hat
    second := hat'
    within := h.within
    within' := h.within'
    retells := h.retells.switched sizeMode
    sound := h.sound.switchSizeMode sizeMode
    sound' := h.sound'.switchSizeMode sizeMode
    clean := hclean
    depth := h.depth
    loopDepth := h.loopDepth
    relaxed := h.relaxed }⟩

end Abreast

/-! ### Outcomes -/

/-- What the outcome of the first parse says of the second one. -/
def Pursues (e : Excerpt) (guard : Guard) (γ : View) (m : α → α) (Q : α → View → Prop)
    (r r' : EStateM.Result ParseError State α) : Prop :=
  ∀ a t, r = .ok a t → ∃ γ', Q a γ' ∧ (e.watch guard).inv γ' t ∧
    (γ'.Tracked → γ.Tracked ∧ ∃ t', r' = .ok (m a) t' ∧ Abreast e t t')

/-- From states in step, parsers of the two texts come to states in step. -/
def Chases (e : Excerpt) (guard : Guard) (γ : View) (m : α → α) (p q : Parse α)
    (Q : α → View → Prop) : Prop :=
  ∀ s s', (e.watch guard).inv γ s → (γ.Tracked → Abreast e s s') →
    Pursues e guard γ m Q (p (e.first (.ofList Language.defaults) guard) s)
      (q (e.second (.ofList Language.defaults) guard) s')

/-- Parts of two grammars, in the same place, stay in step. -/
def FollowsPart (e : Excerpt) (guard : Guard) (m : α → α) (p q : Parse α) : Prop :=
  ∀ γ s s' a t, γ.Live → γ.coded = false → (e.watch guard).inv γ s → Abreast e s s' →
    p (e.first (.ofList Language.defaults) guard) s = .ok a t →
    ∃ t', q (e.second (.ofList Language.defaults) guard) s' = .ok (m a) t' ∧ Abreast e t t'

/-- Statements of two grammars stay in step, unless they contain guest code. -/
def FollowsStatement (e : Excerpt) (guard : Guard) (p q : Parse Statement) : Prop :=
  ∀ γ s s' a t, γ.Live → γ.stage = .free → γ.kind 0 ≠ .newline → γ.coded = false →
    a.hasCode = false → (e.watch guard).inv γ s → Abreast e s s' →
    p (e.first (.ofList Language.defaults) guard) s = .ok a t →
    ∃ t', q (e.second (.ofList Language.defaults) guard) s' = .ok (a.shift e.shift) t' ∧
      Abreast e t t'

/-- All parts of two grammars stay in step. -/
structure Follows (e : Excerpt) (guard : Guard) (g g' : Grammar) : Prop where
  expression : FollowsPart e guard (Expr.shift e.shift) g.expression g'.expression
  operand : FollowsPart e guard (Expr.shift e.shift) g.operand g'.operand
  pattern : FollowsPart e guard (Pattern.shift e.shift) g.pattern g'.pattern
  statement : FollowsStatement e guard g.statement g'.statement
  conditional : ∀ γ s s' a t, γ.Live → γ.stage = .free → γ.coded = false → a.hasCode = false →
    (e.watch guard).inv γ s → Abreast e s s' →
    g.conditional (e.first (.ofList Language.defaults) guard) s = .ok a t →
    ∃ t', g'.conditional (e.second (.ofList Language.defaults) guard) s' =
      .ok (a.shift e.shift) t' ∧ Abreast e t t'

namespace Chases

variable {m : α → α} {n : β → β} {Q : α → View → Prop}

/-- Two steps. If the first parse has left the second one behind after one step, then it never
    catches up. -/
theorem bind {p q : Parse α} {f f' : α → Parse β} {R : α → View → Prop} {Q : β → View → Prop}
    (hp : Chases e guard γ m p q R)
    (hf : ∀ a γ', R a γ' → Chases e guard γ' n (f a) (f' (m a)) Q) :
    Chases e guard γ n (p >>= f) (q >>= f') Q := by
  intro s s' hs hstep b u hrun
  rw [bind_run] at hrun
  split at hrun
  · rename_i a t hmid
    rcases hp s s' hs hstep a t hmid with ⟨γ', hR, ht, hfirst⟩
    by_cases htracked : γ'.Tracked
    · rcases hfirst htracked with ⟨hγ, t', hmid', hstep'⟩
      rcases hf a γ' hR t t' ht (fun _ => hstep') b u hrun with ⟨γ'', hQ, hu, hsecond⟩
      refine ⟨γ'', hQ, hu, fun htracked' => ⟨hγ, ?_⟩⟩
      rcases hsecond htracked' with ⟨-, u', hrun', hstep''⟩
      exact ⟨u', by rw [bind_run, hmid']; exact hrun', hstep''⟩
    · rcases hf a γ' hR t s' ht (fun h => absurd h htracked) b u hrun with ⟨γ'', hQ, hu, hsecond⟩
      exact ⟨γ'', hQ, hu, fun htracked' => absurd (hsecond htracked').1 htracked⟩
  · cases hrun

/-- A loop stays in step if its rounds do, by induction on the rounds of the first parse. -/
theorem loop {a : α} {f f' : α → Parse (α ⊕ β)} {I : α → View → Prop} {Q : β → View → Prop}
    (ha : I a γ) (hf : ∀ c γ', I c γ' → Chases e guard γ' (Sum.map m n) (f c) (f' (m c))
      fun r γ'' => Sum.elim (fun c => I c γ'') (fun c => Q c γ'') r) :
    Chases e guard γ n (Parse.loop a f) (Parse.loop (m a) f') Q := by
  have hrounds : ∀ k k' a γ, k ≤ k' → I a γ →
      Chases e guard γ n (iterate f k a) (iterate f' k' (m a)) Q := by
    intro k
    induction k with
    | zero => intro k' a γ _ _ s s' _ _ b u hrun; cases hrun
    | succ k ih =>
        -- The copy is no shorter than the text, so it is allowed at least as many rounds.
        intro k' a γ hle ha
        obtain ⟨k', rfl⟩ : ∃ l, k' = l + 1 := ⟨k' - 1, by omega⟩
        refine bind (m := Sum.map m n) (hf a γ ha) fun r γ' hr => ?_
        cases r with
        | inl c => exact ih k' c γ' (by omega) hr
        | inr b =>
            intro s s' hs hstep c u hrun
            cases hrun
            exact ⟨γ', hr, hs, fun htracked => ⟨htracked, s', rfl, hstep htracked⟩⟩
  intro s s' hs hstep b u hrun
  have hle := e.byteSize_le
  refine hrounds (e.source.utf8ByteSize + 2) (e.context.utf8ByteSize + 2) a γ (by omega) ha s s' hs
    hstep b u hrun

/-- A wrapper that changes the same things in the states of both parses. -/
theorem around {p q : Parse α} (hp : Chases e guard γ m p q Q) {before before' after after' :
    State → State} (hs : (e.watch guard).inv γ s) (hstep : γ.Tracked → Abreast e s s')
    (hbefore : ∃ depth loopDepth isRelaxed, before s = s.withFrame depth loopDepth isRelaxed ∧
      (γ.Tracked → before' s' = s'.withFrame depth loopDepth isRelaxed))
    (hafter : ∀ t, ∃ depth loopDepth isRelaxed, after t = t.withFrame depth loopDepth isRelaxed ∧
      ∀ t', γ.Tracked → Abreast e t t' → after' t' = t'.withFrame depth loopDepth isRelaxed) :
    Pursues e guard γ m Q
      (Parse.around before after p (e.first (.ofList Language.defaults) guard) s)
      (Parse.around before' after' q (e.second (.ofList Language.defaults) guard) s') := by
  intro a t hrun
  rcases hbefore with ⟨depth, loopDepth, isRelaxed, hfirst, hsecond⟩
  unfold Parse.around at hrun ⊢
  rw [hfirst] at hrun
  split at hrun
  · rename_i b u hinner
    cases hrun
    -- Before the wrapped parser the frames are set alike, and behind it they are set alike again.
    have hframed := fun htracked => (hstep htracked).withFrame depth loopDepth isRelaxed
    rcases hp _ _ ((e.watch guard).frame depth loopDepth isRelaxed hs) hframed a u hinner with
      ⟨γ', hQ, hu, hnext⟩
    rcases hafter u with ⟨depth', loopDepth', isRelaxed', hthere, hthere'⟩
    rw [hthere]
    refine ⟨γ', hQ, (e.watch guard).frame depth' loopDepth' isRelaxed' hu, fun htracked => ?_⟩
    rcases hnext htracked with ⟨hγ, u', hinner', hstep'⟩
    refine ⟨hγ, _, ?_, hstep'.withFrame depth' loopDepth' isRelaxed'⟩
    rw [hsecond hγ, hinner']
    simp only [hthere' u' hγ hstep']
  · cases hrun

/-- Entering a level. Both parses are equally deep, so the guard lets both of them in. -/
theorem nested {p q : Parse α} (hp : Chases e guard γ m p q Q) :
    Chases e guard γ m (nested p) (nested q) Q := by
  intro s s' hs hstep a t hrun
  have henter : guard.enter s.depth s.token.position = .ok (s.depth + 1) := (ok_of_nested hrun).1
  rw [nested_entered henter] at hrun
  have hbefore : ∃ depth loopDepth isRelaxed, s.filled.atDepth (s.depth + 1) =
      s.filled.withFrame depth loopDepth isRelaxed ∧ (γ.Tracked →
        s'.filled.atDepth (s.depth + 1) = s'.filled.withFrame depth loopDepth isRelaxed) := by
    refine ⟨s.depth + 1, s.loopDepth, s.isRelaxed, rfl, fun htracked => ?_⟩
    rw [← (hstep htracked).frame.2.1, ← (hstep htracked).frame.2.2]
    rfl
  have hafter (u : State) : ∃ depth loopDepth isRelaxed, u.atDepth (Guard.exit u.depth) =
      u.withFrame depth loopDepth isRelaxed ∧ ∀ u', γ.Tracked → Abreast e u u' →
        u'.atDepth (Guard.exit u'.depth) = u'.withFrame depth loopDepth isRelaxed := by
    refine ⟨Guard.exit u.depth, u.loopDepth, u.isRelaxed, rfl, fun u' _ hstep' => ?_⟩
    rw [← hstep'.frame.1, ← hstep'.frame.2.1, ← hstep'.frame.2.2]
    rfl
  have hwrapped : Pursues e guard γ m Q
      (Parse.around (fun t => t.atDepth (s.depth + 1)) (fun t => t.atDepth (Guard.exit t.depth))
        p _ s.filled)
      (Parse.around (fun t => t.atDepth (s.depth + 1)) (fun t => t.atDepth (Guard.exit t.depth))
        q _ s'.filled) :=
    hp.around ((e.watch guard).reads hs s.reads_filled) (fun htracked => (hstep htracked).filled)
      hbefore hafter
  rcases hwrapped a t hrun with ⟨γ', hQ, ht, hnext⟩
  refine ⟨γ', hQ, ht, fun htracked => ?_⟩
  rcases hnext htracked with ⟨hγ, hsecond⟩
  -- The guard lets the second parse in as well, since it is at the same depth.
  have henter' : guard.enter s'.depth s'.token.position = .ok (s.depth + 1) := by
    rw [(hstep hγ).frame.1]
    exact enter_of_below (enter_ok henter).2 _
  refine ⟨hγ, ?_⟩
  rw [nested_entered henter']
  exact hsecond

theorem inLoop {p q : Parse α} (hp : Chases e guard γ m p q Q) :
    Chases e guard γ m (inLoop p) (inLoop q) Q := by
  intro s s' hs hstep
  refine hp.around hs hstep ⟨s.depth, s.loopDepth + 1, s.isRelaxed, rfl, fun htracked => ?_⟩
    fun t => ⟨t.depth, t.loopDepth - 1, t.isRelaxed, rfl, fun t' _ hstep' => ?_⟩
  · rw [← (hstep htracked).frame.1, ← (hstep htracked).frame.2.1, ← (hstep htracked).frame.2.2]
    rfl
  · rw [← hstep'.frame.1, ← hstep'.frame.2.1, ← hstep'.frame.2.2]
    rfl

theorem withTerminators {p q : Parse α} (isRelaxed : Bool) (hp : Chases e guard γ m p q Q) :
    Chases e guard γ m (withTerminators isRelaxed p) (withTerminators isRelaxed q) Q := by
  intro s s' hs hstep
  rw [withTerminators_run, withTerminators_run]
  refine hp.around hs hstep ⟨s.depth, s.loopDepth, isRelaxed, rfl, fun htracked => ?_⟩
    fun t => ⟨t.depth, t.loopDepth, s.isRelaxed, rfl, fun t' htracked hstep' => ?_⟩
  · rw [← (hstep htracked).frame.1, ← (hstep htracked).frame.2.1]
    rfl
  · rw [← hstep'.frame.1, ← hstep'.frame.2.1, ← (hstep htracked).frame.2.2]
    rfl

/-- A size is read in its own mode. The parses switch at the same token, and back again at the
    same token. -/
theorem inSizeMode {p q : Parse α} {V : α → Prop} (hlive : γ.Live) (hstage : γ.stage ≠ .free)
    (hp : ∀ κ, Chases e guard (γ.sizing.seeing κ) m p q (Settled γ.sizing V))
    (hQ : ∀ a κ, V a → Q a { γ.seeing κ with loose := true }) :
    Chases e guard γ m (inSizeMode p) (inSizeMode q) Q := by
  intro s s' hs hstep a t hrun
  rcases (e.watch guard).sizeOn hs hlive hstage with ⟨κ, hon⟩
  unfold Parse.inSizeMode Parse.around at hrun ⊢
  split at hrun
  · rename_i b u hinner
    cases hrun
    -- Both parses switch at the same token.
    have hswitched : (γ.sizing.seeing κ).Tracked →
        Abreast e (switchSizeMode true s) (switchSizeMode true s') := fun htracked =>
      (hstep (hlive.tracked htracked.1)).switched true fun n => watch_clean hon htracked.1 n
    rcases hp κ _ _ hon hswitched a u hinner with ⟨_, ⟨hV, κ', rfl⟩, hu, hnext⟩
    rcases (e.watch guard).sizeOff hu hstage with ⟨κ'', hoff⟩
    refine ⟨_, hQ a κ'' hV, hoff, fun htracked => ?_⟩
    have hcoded : γ.coded = false := htracked.1
    rcases hnext (View.tracked_seeing.2 hcoded) with ⟨-, u', hinner', hstep'⟩
    refine ⟨hlive.tracked hcoded, _, ?_, hstep'.switched false fun n => watch_clean hoff hcoded n⟩
    rw [hinner']
  · cases hrun

end Chases

/-- A literal of the copy is the one of the text, moved. -/
theorem literalOf_shift {source context : String} {t : Token} {expr : Expr}
    (hslice : t.kind = .string → Text.slice context (t.shift e.shift).position.offset
      (t.shift e.shift).stop = Text.slice source t.position.offset t.stop)
    (h : literalOf source t = .ok expr) :
    literalOf context (t.shift e.shift) = .ok (expr.shift e.shift) := by
  unfold literalOf at h ⊢
  rw [Token.shift_kind, Token.shift_text]
  split at h
  · rename_i hkind
    split at h
    · rename_i hvalue
      cases h
      rfl
    · cases h
  · rename_i hkind
    cases h
    simp only [hslice hkind]
    rfl
  all_goals cases h
  all_goals rfl

/-- A string that both parses have read is spelled in the same way in both texts, so its value is
    the same. -/
theorem Abreast.slice (h : Abreast e s s') (hkind : s.token.kind = .string) :
    Text.slice e.context (s.token.shift e.shift).position.offset (s.token.shift e.shift).stop =
      Text.slice e.source s.token.position.offset s.token.stop := by
  rcases h with ⟨lx, mx, h⟩
  rcases h.next with ⟨lx', hnext⟩
  rcases Lexer.next_ok hnext with ⟨-, hposition, -, hleads, -⟩
  rw [Token.shift_position, hposition]
  change Text.slice e.context _ (s.token.stop + e.shift.bytes) = _
  rw [Lexer.next_stop hnext (by rw [hkind]; decide)]
  exact e.slice_eq h.within.tokenStart hleads

/-- Expecting a closing token takes it, or reports the opening one with its place. -/
theorem expectClosing_run (o : Token) (kind : Kind) (env : Env) (s : State) :
    expectClosing o kind env s = if s.token.kind = kind then .ok s.token s.advanced
      else .error (.unclosed o.kind o.position s.token.describe s.token.position) s.filled := by
  unfold expectClosing
  rw [bind_run, check_run, ← s.advanced_filled]
  by_cases h : s.token.kind = kind
  · simp only [h, decide_true, if_true]
    rw [consume_run, State.token_filled]
  · simp only [h, decide_false, if_false, Bool.false_eq_true]
    rw [bind_run, current_run, State.token_filled, State.filled_filled]
    rfl

/-- Taking a token that is no newline leaves the parses in step. -/
theorem Pursues.take {γ' : View} {κ : Nat → Kind} {Q : Token → View → Prop}
    (hs : (e.watch guard).inv γ s) (hstep : γ.Tracked → Abreast e s s') (hahead : γ.ahead = some κ)
    (htakes : γ.Takes (κ 0) γ') (hline : κ 0 ≠ .newline)
    (hQ : ∀ t : Token, t.kind = κ 0 → tidyPlace t.position → Q t (γ'.seeing fun i => κ (i + 1))) :
    Pursues e guard γ (Token.shift e.shift) Q (.ok s.token s.advanced)
      (.ok s'.token s'.advanced) := by
  intro a t hrun
  cases hrun
  have htoken : s.token.kind = κ 0 := by rw [((e.watch guard).sees hs).token, View.kind, hahead]
  have hcoded : γ'.coded = γ.coded := by cases htakes <;> rfl
  refine ⟨_, hQ s.token htoken ((e.watch guard).place hs (by rw [htoken]; exact htakes.ne_end)),
    (e.watch guard).take hs hahead htakes, fun htracked => ?_⟩
  have hγ : γ.Tracked := ⟨hcoded ▸ htracked.1, κ, hahead⟩
  rcases (hstep hγ).take (by rw [htoken]; exact ⟨hline, htakes.ne_end⟩) with ⟨htoken', hstep'⟩
  exact ⟨hγ, _, by rw [htoken'], hstep'⟩

namespace Chases

/-- A closing bracket that is there in the first parse is a token of the text, so the second
    parse has it, too. -/
theorem closing {o o' : Token} {kind : Kind} {k : Nat} {stage : Stage} {Q : Token → View → Prop}
    (hkind : kind.shape = .closer) (hopened : γ.opened = k + 1)
    (hstage : γ.stage = stage ∨ γ.stage = stage.entering .bitOpen)
    (hQ : ∀ t κ, Q t ({ γ with opened := k, stage } |>.seeing κ)) :
    Chases e guard γ (Token.shift e.shift) (expectClosing o kind) (expectClosing o' kind) Q := by
  intro s s' hs hstep a t hrun
  rw [expectClosing_run] at hrun
  split at hrun
  · rename_i hclosed
    cases hrun
    -- The bracket is there in the first parse, so it is a known token and the second parse has
    -- it, too.
    have hkind0 : γ.kind 0 = kind := by rw [← ((e.watch guard).sees hs).token, hclosed]
    have hproper : kind ≠ .newline ∧ kind ≠ .endOfInput :=
      Kind.ne_of_shape (by rw [hkind]; decide) (by rw [hkind]; decide)
    cases hahead : γ.ahead with
    | none =>
        rw [View.kind, hahead] at hkind0
        exact absurd hkind0.symm hproper.2
    | some κ =>
        have hκ : κ 0 = kind := by rw [View.kind, hahead] at hkind0; exact hkind0
        have htakes : γ.Takes (κ 0) { γ with opened := k, stage } :=
          .closer (by rw [hκ]; exact hkind) hopened hstage
        rcases Pursues.take hs hstep hahead htakes (by rw [hκ]; exact hproper.1)
          (fun t _ _ => hQ t _) s.token s.advanced rfl with ⟨γ', hQ', ht, hnext⟩
        refine ⟨γ', hQ', ht, fun htracked => ?_⟩
        rcases hnext htracked with ⟨hγ, t', htaken, hstep'⟩
        rw [EStateM.Result.ok.injEq] at htaken
        rcases htaken with ⟨-, rfl⟩
        have htoken := ((hstep hγ).take (by rw [hclosed]; exact hproper)).1
        refine ⟨hγ, _, ?_, hstep'⟩
        rw [expectClosing_run, if_pos (by rw [htoken, Token.shift_kind, hclosed]), htoken]
  · cases hrun

/-- A literal has the same value in the copy: its text is the same, and so is its slice of the
    source. -/
theorem literal {κ : Nat → Kind} {Q : Expr → View → Prop} (hlive : γ = γ.seeing κ)
    (hκ : (κ 0).isLiteral = true)
    (hQ : ∀ e : Expr, e.Within tidyPlace → Q e (γ.seeing fun i => κ (i + 1))) :
    Chases e guard γ (Expr.shift e.shift) literal literal Q := by
  intro s s' hs hstep a t hrun
  rw [literal_run] at hrun
  split at hrun
  · rename_i expr hliteral
    cases hrun
    -- A literal is a token that is no bracket; what it stands for is in its text and its slice.
    have hahead : γ.ahead = some κ := by rw [hlive]; rfl
    have hshape : (κ 0).shape = .mark ∨ (κ 0).shape = .piece ∧ γ.loose = false := by
      have hloose : γ.loose = false := by rw [hlive]; rfl
      rw [hloose]
      revert hκ
      cases κ 0 <;> decide
    have hline : κ 0 ≠ .newline := by rintro h; rw [h] at hκ; cases hκ
    rcases Pursues.take hs hstep hahead (.mark hshape) hline
      (Q := fun t γ' => tidyPlace t.position ∧ γ' = γ.seeing fun i => κ (i + 1))
      (fun t _ hP => ⟨hP, rfl⟩) s.token s.advanced rfl with ⟨_, ⟨hP, rfl⟩, ht, hnext⟩
    refine ⟨_, hQ a (within_literalOf hP hliteral), ht, fun htracked => ?_⟩
    rcases hnext htracked with ⟨hγ, t', htaken, hstep'⟩
    refine ⟨hγ, t', ?_, hstep'⟩
    rw [EStateM.Result.ok.injEq] at htaken
    rcases htaken with ⟨-, rfl⟩
    have htoken : s.token.kind = κ 0 := by rw [((e.watch guard).sees hs).token, View.kind, hahead]
    have hend : κ 0 ≠ .endOfInput := by rintro h; rw [h] at hκ; cases hκ
    refine literal_ok ?_
    rw [((hstep hγ).take (by rw [htoken]; exact ⟨hline, hend⟩)).1]
    exact literalOf_shift (fun hkind => (hstep hγ).slice hkind) hliteral
  · cases hrun

/-- A part of the grammar stays in step wherever it may stand. -/
theorem part {m : α → α} {p q : Parse α} {V : α → Prop} {Q : α → View → Prop}
    (hkeeps : (e.watch guard).KeepsPart p V) (hfollows : FollowsPart e guard m p q)
    (hlive : γ.Live) (hQ : ∀ a κ, V a → Q a (γ.seeing κ)) : Chases e guard γ m p q Q := by
  intro s s' hs hstep a t hrun
  have hyields := hkeeps γ s hlive hs
  rw [hrun] at hyields
  rcases hyields with ⟨_, ⟨hV, κ, rfl⟩, ht⟩
  refine ⟨_, hQ a κ hV, ht, fun htracked => ?_⟩
  have hγ := hlive.tracked htracked.1
  exact ⟨hγ, hfollows γ s s' a t hlive htracked.1 hs (hstep hγ) hrun⟩

/-- A part that may contain guest code. -/
theorem stated {p q : Parse Statement} {Q : Statement → View → Prop} (hlive : γ.Live)
    (hkeeps : ∀ s, (e.watch guard).inv γ s → (e.watch guard).Yields (Stated tidyPlace γ)
      (p (e.first (.ofList Language.defaults) guard) s))
    (hfollows : ∀ s s' a t, γ.coded = false → a.hasCode = false → (e.watch guard).inv γ s →
      Abreast e s s' → p (e.first (.ofList Language.defaults) guard) s = .ok a t →
      ∃ t', q (e.second (.ofList Language.defaults) guard) s' = .ok (a.shift e.shift) t' ∧
        Abreast e t t')
    (hQ : ∀ (s : Statement) κ, s.Within tidyPlace → Q s ((γ.coding s.hasCode).seeing κ)) :
    Chases e guard γ (Statement.shift e.shift) p q Q := by
  intro s s' hs hstep a t hrun
  have hyields := hkeeps s hs
  rw [hrun] at hyields
  rcases hyields with ⟨_, ⟨hV, κ, rfl⟩, ht⟩
  refine ⟨_, hQ a κ hV, ht, fun htracked => ?_⟩
  have hcoded : (γ.coded || a.hasCode) = false := htracked.1
  rw [Bool.or_eq_false_iff] at hcoded
  have hγ := hlive.tracked hcoded.1
  exact ⟨hγ, hfollows s s' a t hcoded.1 hcoded.2 hs (hstep hγ) hrun⟩

/-! ### The steps of a derivation -/

/-- At the end of the text the second parse may be left behind. -/
theorem givingUp {p q : Parse α} (hend : γ.kind 0 = .endOfInput)
    (hp : Chases e guard γ.spent m p q Q) : Chases e guard γ m p q Q := by
  intro s s' hs _ a t hrun
  rcases hp s s' ((e.watch guard).spend hs hend) (fun h => absurd h View.not_tracked_spent) a t
    hrun with ⟨γ', hQ, ht, hnext⟩
  exact ⟨γ', hQ, ht, fun htracked => absurd (hnext htracked).1 View.not_tracked_spent⟩

/-- A parser that fails at the end of the text leaves nothing to follow there. -/
theorem stopping {p q : Parse α} (hahead : γ.ahead = none) (hstops : StopsAtEnd p) :
    Chases e guard γ m p q Q := by
  intro s s' hs _ a t hrun
  have hend : s.token.kind = .endOfInput := by
    rw [((e.watch guard).sees hs).token, View.kind, hahead]
  rcases hstops s.token hend _ s rfl with ⟨_, _, _, _, hfail⟩
  cases hfail.symm.trans hrun

/-- Nor does a parser that takes the last token. It is known from another parse what it comes
    to, and behind it the text is over. -/
theorem exhausting {n : α → α} {p q r : Parse α} {R : α → View → Prop} {κ : Nat → Kind}
    (hlive : γ = γ.seeing κ) (h0 : κ 0 ≠ .endOfInput) (h1 : κ 1 = .endOfInput)
    (hexhausts : Exhausts p) (hp : Chases e guard γ n p r R) (hQ : ∀ a γ', R a γ' → Q a γ'.spent) :
    Chases e guard γ m p q Q := by
  intro s s' hs hstep a t hrun
  have hsees := (e.watch guard).sees hs
  rw [hlive] at hsees
  rcases hp s s' hs hstep a t hrun with ⟨γ', hR, ht, _⟩
  have hend := hexhausts _ s t a (by rw [hsees.token]; exact h0) (by rw [hsees 1]; exact h1) hrun
  refine ⟨_, hQ a γ' hR, (e.watch guard).spend ht ?_, fun h => absurd h View.not_tracked_spent⟩
  rw [← ((e.watch guard).sees ht).token, hend]

/-- Both parses see the same kind, unless the text ends there. Then the second one may see a
    newline instead, which must make no difference to it. -/
theorem peek {f f' : Kind → Parse α} (n : Nat)
    (hbefore : γ.ahead = none ∨ ∀ i < n, γ.kind i ≠ .newline ∧ γ.kind i ≠ .endOfInput)
    (hend : γ.kind n = .endOfInput → γ.ahead = none ∨ f' .newline = f' .endOfInput)
    (hp : Chases e guard γ m (f (γ.kind n)) (f' (γ.kind n)) Q) :
    Chases e guard γ m (peekKind n >>= f) (peekKind n >>= f') Q := by
  intro s s' hs hstep a t hrun
  have hsees := (e.watch guard).sees hs
  rw [bind_run, peekKind_run, hsees n] at hrun
  rcases hp _ { s' with buffer := s'.buffer.fill (s'.cursor + n) }
    ((e.watch guard).reads hs ⟨_, rfl⟩)
    (fun htracked => ((hstep htracked).reads ⟨_, rfl⟩).reads' ⟨_, rfl⟩) a t hrun with
    ⟨γ', hQ, ht, hnext⟩
  refine ⟨γ', hQ, ht, fun htracked => ?_⟩
  rcases hnext htracked with ⟨hγ, hsecond⟩
  refine ⟨hγ, ?_⟩
  rcases hγ.2 with ⟨κ, hκ⟩
  rw [bind_run, peekKind_run]
  simp only
  rw [(hstep hγ).kind_ahead hsees n (hbefore.resolve_left (by rw [hκ]; exact nofun))
    fun hover => (hend hover).resolve_left (by rw [hκ]; exact nofun)]
  exact hsecond

/-- The same of the current token, which is moved in the second parse. -/
theorem current {f f' : Token → Parse α}
    (hend : γ.kind 0 = .endOfInput → γ.ahead = none ∨
      ∀ t u : Token, t.kind = .endOfInput → u.kind = .newline → f' u = f' t)
    (hp : ∀ t : Token, t.kind = γ.kind 0 → (t.kind ≠ .endOfInput → tidyPlace t.position) →
      Chases e guard γ m (f t) (f' (t.shift e.shift)) Q) :
    Chases e guard γ m (Parse.current >>= f) (Parse.current >>= f') Q := by
  intro s s' hs hstep a t hrun
  have hsees := ((e.watch guard).sees hs).token
  rw [bind_run, current_run] at hrun
  rcases hp s.token hsees ((e.watch guard).place hs) s.filled s'.filled
    ((e.watch guard).reads hs s.reads_filled) (fun htracked => (hstep htracked).filled) a t
    hrun with ⟨γ', hQ, ht, hnext⟩
  refine ⟨γ', hQ, ht, fun htracked => ?_⟩
  rcases hnext htracked with ⟨hγ, hsecond⟩
  refine ⟨hγ, ?_⟩
  rw [bind_run, current_run]
  rcases hγ.2 with ⟨κ, hκ⟩
  have hsame : f' s'.token = f' (s.token.shift e.shift) := by
    rcases (hstep hγ).ahead ((e.watch guard).sees hs) 0
      (fun i hi => absurd hi (Nat.not_lt_zero i)) with htoken | ⟨hlast, hkind⟩
    · exact congrArg f' htoken
    · exact (hend hlast).resolve_left (by rw [hκ]; exact nofun) _ _
        (by rw [Token.shift_kind, hsees, hlast]) hkind
  simp only [hsame]
  exact hsecond

/-- Where the first parse raises an error there is nothing to follow. -/
theorem refusing {f : Token → Parse α} {q : Parse α} (hend : γ.kind 0 = .endOfInput)
    (hf : ∀ t : Token, t.kind = .endOfInput → ∃ err : ParseError, f t = throw err) :
    Chases e guard γ m (Parse.current >>= f) q Q := by
  intro s s' hs _ a t hrun
  rcases hf s.token (by rw [((e.watch guard).sees hs).token, hend]) with ⟨err, herr⟩
  rw [bind_run, current_run] at hrun
  simp only [herr] at hrun
  cases hrun

/-- What the states say of terminators and loops is the same in both parses. -/
theorem framed {f h : Bool → Nat → Parse α}
    (hp : ∀ isRelaxed loopDepth, Chases e guard γ m (f isRelaxed loopDepth)
      (h isRelaxed loopDepth) Q) :
    Chases e guard γ m (get >>= fun s => f s.isRelaxed s.loopDepth)
      (get >>= fun s => h s.isRelaxed s.loopDepth) Q := by
  intro s s' hs hstep a t hrun
  rcases hp s.isRelaxed s.loopDepth s s' hs hstep a t hrun with ⟨γ', hQ, ht, hnext⟩
  refine ⟨γ', hQ, ht, fun htracked => ?_⟩
  rcases hnext htracked with ⟨hγ, hsecond⟩
  refine ⟨hγ, ?_⟩
  rw [← (hstep hγ).frame.2.1, ← (hstep hγ).frame.2.2] at hsecond
  exact hsecond

/-- An unbounded look-ahead has the same answer in both parses, and both only read. -/
theorem scan {κ : Nat → Kind} {p : Parse Bool} {V : Bool → Prop} {Q : Bool → View → Prop}
    (hlive : γ = γ.seeing κ) (hsurvey : Survey γ.stage κ p V) (hQ : ∀ b, V b → Q b γ) :
    Chases e guard γ id p p Q := by
  intro s s' hs hstep b t hrun
  have hsees := (e.watch guard).sees hs
  rw [hlive] at hsees
  have hreads : s.Reads t := by
    rcases hsurvey.scans (e.first (.ofList Language.defaults) guard) s with
      ⟨_, u, hu, hok⟩ | ⟨u, _, herror⟩
    · cases (hok guard).symm.trans hrun
      exact hu
    · cases (herror guard).symm.trans hrun
  refine ⟨γ, hQ b (hsurvey.answer hsees hrun), (e.watch guard).reads hs hreads,
    fun htracked => ⟨htracked, ?_⟩⟩
  rcases watch_foreseen hs htracked.1 with ⟨lx, v, n, hforeseen⟩
  exact hsurvey.follows (hstep htracked) hsees (watch_sound hs) hforeseen hrun

/-- Guest code that is announced in the text is allowed in it. -/
theorem allowed {Q R : Bool → View → Prop} (hlive : γ.Live) (hstage : γ.stage = .free)
    (hp : Chases e guard γ id codeBlockAhead codeBlockAhead R)
    (hQ : ∀ b γ', R b γ' → (b = true → tidy.tongues) → Q b γ') :
    Chases e guard γ id codeBlockAhead codeBlockAhead Q := by
  intro s s' hs hstep b t hrun
  rcases hp s s' hs hstep b t hrun with ⟨γ', hR, hrest⟩
  refine ⟨γ', hQ b γ' hR fun hb => ?_, hrest⟩
  subst hb
  exact (e.watch guard).allowed hs hlive hstage hrun

/-- Taking a token that is no newline. -/
theorem consume {γ' : View} {κ : Nat → Kind} {Q : Token → View → Prop}
    (hahead : γ.ahead = some κ) (htakes : γ.Takes (κ 0) γ') (hline : κ 0 ≠ .newline)
    (hQ : ∀ t : Token, t.kind = κ 0 → tidyPlace t.position → Q t (γ'.seeing fun i => κ (i + 1))) :
    Chases e guard γ (Token.shift e.shift) Parse.consume Parse.consume Q :=
  fun _ _ hs hstep => Pursues.take hs hstep hahead htakes hline hQ

/-- Taking a newline. One that is the last token takes along what is between it and the next
    token, and in the copy that may lead out of the excerpt. -/
theorem newline {κ : Nat → Kind} {Q : Token → View → Prop} (hahead : γ.ahead = some κ)
    (hnewline : κ 0 = .newline)
    (hQ : ∀ t, Q t (if κ 1 = .endOfInput then γ.spent else γ.seeing fun i => κ (i + 1))) :
    Chases e guard γ (Token.shift e.shift) Parse.consume Parse.consume Q := by
  intro s s' hs hstep a t hrun
  have htoken : s.token.kind = .newline := by
    rw [((e.watch guard).sees hs).token, View.kind, hahead, ← hnewline]
  rw [consume_run] at hrun
  cases hrun
  have htaken : (e.watch guard).inv (γ.seeing fun i => κ (i + 1)) s.advanced :=
    (e.watch guard).take hs hahead (.newline hnewline)
  refine ⟨_, hQ s.token, ?_⟩
  by_cases hend : κ 1 = .endOfInput
  · have hspent := (e.watch guard).spend htaken hend
    rw [if_pos hend]
    exact ⟨hspent, fun h => absurd h View.not_tracked_spent⟩
  · rw [if_neg hend]
    refine ⟨htaken, fun htracked => ?_⟩
    have hγ : γ.Tracked := ⟨htracked.1, κ, hahead⟩
    rcases (hstep hγ).newline htoken with ⟨htoken', hmore, -⟩
    refine ⟨hγ, _, by rw [consume_run, htoken'], hmore (.inl ?_)⟩
    rw [((e.watch guard).sees htaken).token]
    exact hend

/-- Behind guest code nothing is tracked, so the second parse is not run. -/
theorem guest {language : String} {names : List String} {p : Position} {m : Option Statement →
    Option Statement} {q : Parse (Option Statement)} {Q : Option Statement → View → Prop}
    (hC : tidy.tongues) (hlive : γ.Live) (hstage : γ.stage = .free) (hp : tidyPlace p)
    (hQ : ∀ (s : Statement) (κ : Nat → Kind), s.Within tidyPlace → s.hasCode = true →
      Q (some s) ((γ.coding true).seeing κ)) :
    Chases e guard γ m (guestBody language names p) q Q := by
  intro s s' hs _ a t hrun
  have hyields : (e.watch guard).Yields (fun a γ' => Q a γ' ∧ γ'.coded = true)
      (guestBody language names p _ s) :=
    Discipline.yields_guest hs hC hlive hstage hp fun s κ hw hcode =>
      ⟨hQ s κ hw hcode, by simp [View.coding, View.seeing]⟩
  rw [hrun] at hyields
  rcases hyields with ⟨γ', ⟨hQ', hcoded⟩, ht⟩
  exact ⟨γ', hQ', ht, fun htracked => absurd htracked.1 (by rw [hcoded]; decide)⟩

end Chases

/-! ### Derived parsers -/

/-- Parsers that are put together in the same way stay in step, if the parts of the two
    grammars do. Only the first parse is known to succeed, and the second is run from the state
    in step with it as long as there is one. -/
theorem Follows.derived {g g' : Grammar} (hkeeps : (e.watch guard).Keeps g)
    (hg : Follows e guard g g') {m : α → α} {p q : Parse α} {Q : α → View → Prop}
    (h : Alike tidyPlace tidy.tongues e.shift g g' γ m p q Q) : Chases e guard γ m p q Q := by
  -- By induction on the derivation, one case for each rule.
  induction h with
  | weaken _ hQ ih =>
      intro s s' hs hstep a t hrun
      rcases ih s s' hs hstep a t hrun with ⟨γ', hR, hrest⟩
      exact ⟨γ', hQ a γ' hR, hrest⟩
  | pure hb hQ =>
      intro s s' hs hstep a t hrun
      cases hrun
      exact ⟨_, hQ, hs, fun htracked => ⟨htracked, s', by rw [hb]; rfl, hstep htracked⟩⟩
  | bind _ _ ihp ihf => exact ihp.bind ihf
  | throw he => exact fun _ _ _ _ _ _ => nofun
  | giveUp hend _ ih => exact ih.givingUp hend
  | stop hahead hstops _ _ => exact Chases.stopping hahead hstops
  | exhaust hlive h0 h1 hexhausts _ hQ ih => exact ih.exhausting hlive h0 h1 hexhausts hQ
  | peek n hbefore hend _ ih => exact ih.peek n hbefore hend
  | current hend _ ih => exact Chases.current hend ih
  | refuse hend hf =>
      exact Chases.refusing hend fun t ht => (hf t ht).imp fun _ herr => herr.1
  | languages _ _ ih =>
      intro s s' hs hstep
      exact ih (.ofList Language.defaults) s s' hs hstep
  | state _ ih => exact Chases.framed ih
  | scan hlive hsurvey hQ => exact Chases.scan hlive hsurvey hQ
  | allowed hlive hstage _ hQ ih => exact ih.allowed hlive hstage hQ
  | take hahead hshape hQ =>
      refine Chases.consume hahead (.mark hshape) ?_ hQ
      rcases hshape with hshape | ⟨hshape, _⟩ <;> rintro hline <;> rw [hline] at hshape <;>
        cases hshape
  | takeOpener hahead hshape hQ =>
      refine Chases.consume hahead (.opener hshape) ?_ hQ
      rintro hline
      rw [hline] at hshape
      cases hshape
  | takeNewline hahead hnewline hQ => exact Chases.newline hahead hnewline hQ
  | closing _ hkind _ hopened hstage hQ => exact Chases.closing hkind hopened hstage hQ
  | literal hlive hκ hQ => exact Chases.literal hlive hκ hQ
  | loop hb ha _ ih =>
      subst hb
      exact Chases.loop ha ih
  | nested _ _ ih => exact ih.nested
  | inLoop _ ih => exact ih.inLoop
  | terminators isRelaxed _ ih => exact ih.withTerminators isRelaxed
  | size hlive hstage _ hQ ih => exact Chases.inSizeMode hlive hstage ih hQ
  | expression hlive hQ => exact .part hkeeps.expression hg.expression hlive hQ
  | operand hlive hQ => exact .part hkeeps.operand hg.operand hlive hQ
  | pattern hlive hQ => exact .part hkeeps.pattern hg.pattern hlive hQ
  | statement hlive hstage hnewline hQ =>
      exact .stated hlive (fun s => hkeeps.statement _ s hlive hstage hnewline)
        (fun s s' a t => hg.statement _ s s' a t hlive hstage hnewline) hQ
  | conditional hlive hstage hQ =>
      exact .stated hlive (fun s => hkeeps.conditional _ s hlive hstage)
        (fun s s' a t => hg.conditional _ s s' a t hlive hstage) hQ
  | guest hC hlive hstage hp hQ => exact Chases.guest hC hlive hstage hp hQ

end Parse

end PolyScript
