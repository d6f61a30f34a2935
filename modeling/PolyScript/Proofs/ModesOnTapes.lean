import PolyScript.Proofs.PrintedPieces
import PolyScript.Proofs.Runs

/-!
# Modes on Tapes

What a successful parser does on a tape, together with the depth and the mode of the lexer
(`Parse.Comes`). In contrast to `Parse.Runs` nothing is said about failures, but the mode is
known at every point, and so is the depth. Where a level was entered, the guard admits it.

In size mode no name on the tape has a dash in it. That is all that the mode means to a
tape, and it is enough to know that the names on it can be written down in that mode again.

## Main definitions

* `Tape.Undashed`: No name has a dash in it if size mode is on.
* `Parse.State.IsOn`: A state on a tape, at a depth and in a mode.
* `Parse.Comes`: What a parser that succeeds comes to.

## Theorems

* `Tape.Undashed.suited`: Names on a tape can be read in its mode.
* `Parse.Comes.bind`, `Parse.Comes.nested`, `Parse.Comes.inSizeMode`, `Parse.Comes.loop`:
  Composed parsers.
-/

namespace PolyScript

open Parse (isMemberName)

namespace Lexer

/-- In size mode no word holds a dash. -/
theorem dash_not_mem_splitWord (cs : List Char) : '-' ∉ (splitWord true cs).1 := by
  induction cs with
  | nil => exact List.not_mem_nil
  | cons c cs ih =>
      by_cases hpart : isNamePart c = true
      · rw [splitWord_part hpart, List.mem_cons, not_or]
        refine ⟨?_, ih⟩
        rintro rfl
        have hdash : isNamePart '-' = false := by decide
        rw [hdash] at hpart
        cases hpart
      · rw [splitWord_stop (Bool.not_eq_true _ ▸ hpart) fun _ => .inl rfl]
        exact List.not_mem_nil

/-- In size mode no name with a dash is read. -/
theorem undashed_of_next {lx lx' : Lexer} {t : Token} (h : lx.next = (.ok t, lx'))
    (hmode : lx.sizeMode = true) (hname : isMemberName t.kind = true) : '-' ∉ t.text.toList := by
  have hscans := scansAs_of_next h
  rw [hmode] at hscans
  generalize lx.tokenStart.rest = cs, lx'.cursor = after at hscans
  cases hscans with
  | word => simpa using dash_not_mem_splitWord _
  | symbol hsymbol =>
      have hkinds : ∀ kind ∈ Kind.symbols.map Prod.snd, isMemberName kind = false := by decide
      have hkind := hkinds _ (List.mem_map_of_mem (mem_of_symbol? hsymbol).1)
      exact absurd (hname.symm.trans hkind) nofun
  | _ => cases hname

end Lexer

namespace TokenBuffer

/-- From an index on, a buffer in size mode has no names with dashes. -/
def UndashedFrom (b : TokenBuffer) (i : Nat) : Prop :=
  ∀ j t, i ≤ j → b.tokens[j]? = some t → isMemberName t.kind = true → '-' ∉ t.text.toList

variable {b : TokenBuffer} {i : Nat}

/-- Reading one token more in size mode adds no name with a dash. -/
theorem UndashedFrom.readOne (h : b.UndashedFrom i) (hmode : b.lexer.sizeMode = true) :
    b.readOne.UndashedFrom i := by
  intro j t hj ht hname
  have hpush : ∀ u : Token, (isMemberName u.kind = true → '-' ∉ u.text.toList) →
      (b.tokens.push u)[j]? = some t → '-' ∉ t.text.toList := by
    intro u hu hget
    rw [Array.getElem?_push] at hget
    split at hget
    · cases hget
      exact hu hname
    · exact h j t hj hget hname
  unfold TokenBuffer.readOne at ht
  split at ht
  · rename_i u lx hnext
    exact hpush u (Lexer.undashed_of_next hnext hmode) ht
  · exact hpush _ (fun hend => by cases hend) ht

theorem UndashedFrom.readMore (h : b.UndashedFrom i) (hmode : b.lexer.sizeMode = true) (n : Nat) :
    (b.readMore n).UndashedFrom i := by
  induction n generalizing b with
  | zero => exact h
  | succ n ih =>
      rw [TokenBuffer.readMore]
      split
      · exact h
      · exact ih (h.readOne hmode) (by rw [sizeMode_readOne, hmode])

end TokenBuffer

/-- A name has the spelling of one. -/
theorem Token.Form.word_of_memberName {source : String} {t : Token} (h : t.Form source)
    (hname : isMemberName t.kind = true) :
    t.kind = Kind.ofWord t.text ∧ Lexer.IsName t.text.toList := by
  cases h with
  | mark hmark =>
      have hmarks : ∀ kind ∈ .newline :: .endOfInput :: Kind.symbols.map Prod.snd,
          isMemberName kind = false := by decide
      exact absurd (hname.symm.trans (hmarks _ hmark)) nofun
  | number hnumber =>
      rw [hnumber] at hname
      cases hname
  | word hword hspelling => exact ⟨hword, hspelling⟩
  | string hstring =>
      rw [hstring] at hname
      cases hname

namespace Tape

variable {source : String} {τ : Tape source} {m : Bool} {n : Nat}

/-- If size mode is on, no name on the tape has a dash in it. -/
def Undashed (m : Bool) (τ : Tape source) : Prop :=
  m = true → ∀ n, isMemberName (τ.token n).kind = true → '-' ∉ (τ.token n).text.toList

theorem undashed_false (τ : Tape source) : τ.Undashed false := nofun

theorem Undashed.tail (h : τ.Undashed m) : τ.tail.Undashed m := fun hm n => h hm (1 + n)

theorem form (τ : Tape source) (n : Nat) : (τ.token n).Form source := (τ.isOf n).form

/-- A name on a tape can be read in its mode, and is by itself of the kind that it has there. -/
theorem Undashed.suited (h : τ.Undashed m) (hname : isMemberName (τ.token n).kind = true) :
    Lexer.Suited m (τ.token n).text ∧ Kind.ofWord (τ.token n).text = (τ.token n).kind := by
  rcases (τ.form n).word_of_memberName hname with ⟨hkind, hspelling⟩
  exact ⟨⟨hspelling, fun hm => h hm n hname⟩, hkind.symm⟩

theorem Undashed.suited_head (h : τ.Undashed m) (hname : isMemberName τ.head.kind = true) :
    Lexer.Suited m τ.head.text ∧ Kind.ofWord τ.head.text = τ.head.kind := h.suited (n := 0) hname

end Tape

namespace Parse

variable {α β : Type} {env : Env} {depth : Nat} {m m' : Bool} {τ υ : Tape env.source}
  {s t : State}

/-! ### States on tapes -/

/-- A state on a tape, at a depth and in a mode. -/
structure State.IsOn (env : Env) (depth : Nat) (m : Bool) (τ : Tape env.source) (s : State) :
    Prop where
  offers : s.Offers τ
  depth_eq : s.depth = depth
  mode_eq : s.buffer.lexer.sizeMode = m
  undashed : τ.Undashed m

namespace State.IsOn

theorem reads (h : s.IsOn env depth m τ) (hreads : s.Reads t) : t.IsOn env depth m τ := by
  refine ⟨h.offers.reads hreads, ?_, ?_, h.undashed⟩
  · rcases hreads with ⟨n, rfl⟩
    exact h.depth_eq
  · rcases hreads with ⟨n, rfl⟩
    exact (TokenBuffer.sizeMode_readMore n s.buffer).trans h.mode_eq

theorem filled (h : s.IsOn env depth m τ) : s.filled.IsOn env depth m τ := h.reads s.reads_filled

theorem advanced (h : s.IsOn env depth m τ) : s.advanced.IsOn env depth m τ.tail :=
  ⟨h.offers.advanced, h.depth_eq, h.filled.mode_eq, h.undashed.tail⟩

theorem withDepth (h : s.IsOn env depth m τ) (next : Nat) : (s.atDepth next).IsOn env next m τ :=
  ⟨h.offers.withFrame next s.loopDepth s.isRelaxed, rfl, h.mode_eq, h.undashed⟩

end State.IsOn

/-- All that is read in size mode is free of dashes. -/
theorem State.Offers.undashed (h : s.Offers τ) (hmode : s.buffer.lexer.sizeMode = true)
    (hundashed : s.buffer.UndashedFrom s.cursor) : τ.Undashed true := by
  intro _ n
  -- A token further on is the first one once those in front of it are consumed.
  induction n generalizing s τ with
  | zero =>
      intro hname
      have hget := h.1.getElem?_filled
      rw [h.token] at hget
      exact (hundashed.readMore hmode _) s.cursor τ.head (Nat.le_refl _) hget hname
  | succ n ih =>
      have hrest : s.advanced.buffer.UndashedFrom s.advanced.cursor := by
        intro j t hj
        refine (hundashed.readMore hmode _) j t (Nat.le_trans ?_ hj)
        simp only [State.advanced]
        split <;> omega
      have hadvanced : s.advanced.buffer.lexer.sizeMode = true :=
        (TokenBuffer.sizeMode_readMore _ s.buffer).trans hmode
      have hplace : τ.tail.token n = τ.token (n + 1) := congrArg τ.token (Nat.add_comm 1 n)
      rw [← hplace]
      exact ih h.advanced hadvanced hrest

/-- Switching the mode leads to another tape, unless the mode stays the same. -/
theorem State.IsOn.switched (h : s.IsOn env depth m τ) (enabled : Bool) :
    ∃ υ : Tape env.source, (switchSizeMode enabled s).IsOn env depth enabled υ := by
  rcases h.offers.switched enabled with ⟨υ, hυ, -⟩
  have hdepth : (switchSizeMode enabled s).depth = depth := h.depth_eq
  by_cases hsame : s.buffer.lexer.sizeMode = enabled
  · have hstill : switchSizeMode enabled s = s := by
      rw [switchSizeMode, TokenBuffer.setSizeMode, if_pos hsame]
    rw [hstill]
    have hm : m = enabled := h.mode_eq.symm.trans hsame
    exact ⟨τ, hm ▸ h⟩
  · have hbuffer : (switchSizeMode enabled s).buffer =
        { s.buffer.restart s.cursor s.resume with
          lexer := { s.buffer.lexer.resetTo s.resume with sizeMode := enabled } } := by
      rw [switchSizeMode, TokenBuffer.setSizeMode, if_neg hsame]
      rfl
    have hmode : (switchSizeMode enabled s).buffer.lexer.sizeMode = enabled := by rw [hbuffer]
    refine ⟨υ, hυ, hdepth, hmode, ?_⟩
    cases enabled with
    | false => exact υ.undashed_false
    | true =>
        -- Whatever was read in the other mode is dropped.
        refine hυ.undashed hmode fun j t hj ht => ?_
        rw [hbuffer] at ht
        have hsize : (s.buffer.tokens.take s.cursor).size ≤ s.cursor := by
          simp only [Array.take_eq_extract, Array.size_extract]
          omega
        have hnone := Array.getElem?_eq_none (Nat.le_trans hsize hj)
        cases ht.symm.trans hnone

/-! ### What successful parsers come to -/

/-- If parsers in a row succeed then each of them does. -/
theorem ok_of_bind {p : Parse β} {f : β → Parse α} {a : α} (h : (p >>= f) env s = .ok a t) :
    ∃ b u, p env s = .ok b u ∧ f b env u = .ok a t := by
  rw [bind_run] at h
  cases hfirst : p env s with
  | ok b u =>
      rw [hfirst] at h
      exact ⟨b, u, rfl, h⟩
  | error e u =>
      rw [hfirst] at h
      cases h

/-- From a state on a tape, at a depth and in a mode, a parser that succeeds comes to a value
    and to a state in some mode and on some tape, which satisfy a condition. -/
def Comes (env : Env) (depth : Nat) (m : Bool) (τ : Tape env.source) (p : Parse α)
    (Q : α → Bool → Tape env.source → Prop) : Prop :=
  ∀ s a t, s.IsOn env depth m τ → p env s = .ok a t →
    ∃ m' υ, t.IsOn env depth m' υ ∧ Q a m' υ

namespace Comes

variable {p : Parse α} {Q R : α → Bool → Tape env.source → Prop}

theorem pure {a : α} (h : Q a m τ) : Comes env depth m τ (pure a) Q := by
  intro s b t hs hrun
  cases hrun
  exact ⟨m, τ, hs, h⟩

theorem throw {e : ParseError} : Comes env depth m τ (throw e : Parse α) Q := by
  intro s a t _ hrun
  cases hrun

theorem bind {p : Parse β} {f : β → Parse α} {R : β → Bool → Tape env.source → Prop}
    (h : Comes env depth m τ p R) (hf : ∀ b m' υ, R b m' υ → Comes env depth m' υ (f b) Q) :
    Comes env depth m τ (p >>= f) Q := by
  intro s a t hs hrun
  rcases ok_of_bind hrun with ⟨b, u, hfirst, hrest⟩
  rcases h s b u hs hfirst with ⟨m', υ, hu, hb⟩
  exact hf b m' υ hb u a t hu hrest

theorem imp (h : Comes env depth m τ p R) (hQ : ∀ a m' υ, R a m' υ → Q a m' υ) :
    Comes env depth m τ p Q := by
  intro s a t hs hrun
  rcases h s a t hs hrun with ⟨m', υ, ht, ha⟩
  exact ⟨m', υ, ht, hQ a m' υ ha⟩

theorem ite {c : Prop} [Decidable c] {q : Parse α} (hp : c → Comes env depth m τ p Q)
    (hq : ¬c → Comes env depth m τ q Q) : Comes env depth m τ (if c then p else q) Q := by
  split
  · exact hp ‹_›
  · exact hq ‹_›

/-- Names on the tape can be read in the mode. -/
theorem undashed (h : τ.Undashed m → Comes env depth m τ p Q) : Comes env depth m τ p Q :=
  fun s a t hs hrun => h hs.undashed s a t hs hrun

theorem peekKind {f : Kind → Parse α} (n : Nat)
    (h : Comes env depth m τ (f (τ.token n).kind) Q) :
    Comes env depth m τ (peekKind n >>= f) Q := by
  intro s a t hs hrun
  rw [bind_run, peekKind_run, hs.offers.2 n] at hrun
  exact h _ a t (hs.reads ⟨_, rfl⟩) hrun

theorem current {f : Token → Parse α} (h : Comes env depth m τ (f τ.head) Q) :
    Comes env depth m τ (current >>= f) Q := by
  intro s a t hs hrun
  rw [bind_run, current_run, hs.offers.token] at hrun
  exact h _ a t hs.filled hrun

theorem check {f : Bool → Parse α} (kind : Kind)
    (h : Comes env depth m τ (f (decide (τ.head.kind = kind))) Q) :
    Comes env depth m τ (check kind >>= f) Q := by
  intro s a t hs hrun
  rw [bind_run, check_run, hs.offers.token] at hrun
  exact h _ a t hs.filled hrun

theorem ite_check {kind : Kind} {q : Parse α}
    (hp : τ.head.kind = kind → Comes env depth m τ p Q)
    (hq : τ.head.kind ≠ kind → Comes env depth m τ q Q) :
    Comes env depth m τ (Parse.check kind >>= fun c => if c = true then p else q) Q :=
  .check kind (.ite (fun h => hp (of_decide_eq_true h))
    fun h => hq (of_decide_eq_false (Bool.not_eq_true _ ▸ h)))

theorem consume {f : Token → Parse α} (h : Comes env depth m τ.tail (f τ.head) Q) :
    Comes env depth m τ (consume >>= f) Q := by
  intro s a t hs hrun
  rw [bind_run, consume_run, hs.offers.token] at hrun
  exact h _ a t hs.advanced hrun

theorem unexpected (expected : String) :
    Comes env depth m τ (unexpected expected : Parse α) Q := .current .throw

theorem expect {f : Token → Parse α} {kind : Kind}
    (h : τ.head.kind = kind → Comes env depth m τ.tail (f τ.head) Q) :
    Comes env depth m τ (expect kind >>= f) Q := by
  refine .bind (R := fun u m' υ => τ.head.kind = kind ∧ u = τ.head ∧ m' = m ∧ υ = τ.tail) ?_ ?_
  · refine .ite_check (fun hkind => ?_) fun _ => .unexpected _
    intro s u t hs hrun
    rw [consume_run, hs.offers.token] at hrun
    cases hrun
    exact ⟨m, τ.tail, hs.advanced, hkind, rfl, rfl, rfl⟩
  · rintro _ _ _ ⟨hkind, rfl, rfl, rfl⟩
    exact h hkind

theorem expectClosing {f : Token → Parse α} {opening : Token} {closer : Kind}
    (h : Comes env depth m τ.tail (f τ.head) Q) :
    Comes env depth m τ (expectClosing opening closer >>= f) Q := by
  intro s a t hs hrun
  rw [bind_run, expectClosing_run] at hrun
  split at hrun
  · rename_i hok
    split at hok
    · cases hok
      rw [hs.offers.token] at hrun
      exact h _ a t hs.advanced hrun
    · cases hok
  · cases hrun

theorem languages {f : LanguageTable → Parse α}
    (h : Comes env depth m τ (f env.languages) Q) :
    Comes env depth m τ (languages >>= f) Q := fun s a t hs hrun => h s a t hs hrun

/-- A member name is a token of a suitable kind, or there is no success. -/
theorem memberName {f : Token → Parse α}
    (h : isMemberName τ.head.kind = true → Comes env depth m τ.tail (f τ.head) Q) :
    Comes env depth m τ (memberName >>= f) Q := by
  refine .bind (R := fun u m' υ => isMemberName τ.head.kind = true ∧ u = τ.head ∧ m' = m ∧
    υ = τ.tail) ?_ ?_
  · refine .peekKind 0 (.ite (fun hname => ?_) fun _ => .unexpected _)
    intro s u t hs hrun
    rw [consume_run, hs.offers.token] at hrun
    cases hrun
    exact ⟨m, τ.tail, hs.advanced, hname, rfl, rfl, rfl⟩
  · rintro _ _ _ ⟨hname, rfl, rfl, rfl⟩
    exact h hname

theorem literal {Q : Expr → Bool → Tape env.source → Prop}
    (h : ∀ e, literalOf env.source τ.head = .ok e → Q e m τ.tail) :
    Comes env depth m τ literal Q := by
  intro s e t hs hrun
  rw [literal_run, hs.offers.token] at hrun
  cases hliteral : literalOf env.source τ.head with
  | ok e =>
      rw [hliteral] at hrun
      cases hrun
      exact ⟨m, τ.tail, hs.advanced, h e hliteral⟩
  | error e =>
      rw [hliteral] at hrun
      cases hrun

/-! ### Wrappers and loops -/

/-- One level deeper, where the guard admits that. -/
theorem nested (h : env.guard.Admits depth → Comes env (depth + 1) m τ p Q) :
    Comes env depth m τ (nested p) Q := by
  intro s a t hs hrun
  rcases ok_of_nested hrun with ⟨henter, u, hinner, rfl⟩
  rw [hs.depth_eq] at henter hinner
  rcases h (Guard.admits_of_enter henter) _ a u (hs.filled.withDepth (depth + 1)) hinner with
    ⟨m', υ, hu, ha⟩
  have hexit : Guard.exit u.depth = depth := by rw [hu.depth_eq]; rfl
  rw [hexit]
  exact ⟨m', υ, hu.withDepth depth, ha⟩

/-- Size mode is on for a parser, and off behind it. The tapes are other ones. -/
theorem inSizeMode (h : ∀ υ, Comes env depth true υ p fun a _ _ => ∀ υ, Q a false υ) :
    Comes env depth m τ (inSizeMode p) Q := by
  intro s a t hs hrun
  rcases hs.switched true with ⟨υ, hυ⟩
  unfold Parse.inSizeMode around at hrun
  cases hinner : p env (switchSizeMode true s) with
  | error e u =>
      rw [hinner] at hrun
      cases hrun
  | ok b u =>
      rw [hinner] at hrun
      cases hrun
      rcases h υ _ a u hυ hinner with ⟨m', χ, hu, ha⟩
      -- Nothing is known of the last tape but that it is read with size mode off.
      rcases hu.switched false with ⟨ω, hω⟩
      exact ⟨false, ω, hω, ha ω⟩

/-- A look ahead leaves the tape, whatever it finds. -/
theorem lookahead (hscans : Scans (lookahead p)) (h : ∀ a, Q a m τ) :
    Comes env depth m τ (Parse.lookahead p) Q := by
  intro s a t hs hrun
  rcases hscans env s with ⟨b, u, hreads, hscan⟩ | ⟨u, -, hfail⟩
  · have hsame := (hscan env.guard).symm.trans hrun
    cases hsame
    exact ⟨m, τ, hs.reads hreads, h a⟩
  · exact absurd ((hfail env.guard).symm.trans hrun) nofun

/-- A loop with an invariant on the value, the mode and the tape comes to what its last round
    yields. The bound on rounds does not matter to a loop that succeeds. -/
theorem loop {step : β → Parse (β ⊕ α)} {I : β → Bool → Tape env.source → Prop} {start : β}
    (hstart : I start m τ)
    (h : ∀ b m' υ, I b m' υ → Comes env depth m' υ (step b)
      fun r m'' χ => r.elim (fun b => I b m'' χ) fun a => Q a m'' χ) :
    Comes env depth m τ (loop start step) Q := by
  have hiterate : ∀ n b m' υ, I b m' υ → Comes env depth m' υ (iterate step n b) Q := by
    intro n
    -- A loop that has no rounds left fails, so there is nothing to show then.
    induction n with
    | zero =>
        intro b m' υ _ s a t _ hrun
        cases hrun
    | succ n ih =>
        intro b m' υ hb
        refine (h b m' υ hb).bind fun r m'' χ hr => ?_
        cases r with
        | inl next => exact ih next m'' χ hr
        | inr a => exact .pure hr
  exact fun s a t hs hrun => hiterate _ start m τ hstart s a t hs hrun

theorem skipNewlines {f : Nat → Parse α} (h : ∀ k υ, Comes env depth m υ (f k) Q) :
    Comes env depth m τ (skipNewlines >>= f) Q := by
  refine .bind (R := fun _ m' _ => m' = m) ?_ ?_
  · refine .loop (I := fun _ m' _ => m' = m) rfl ?_
    rintro k _ υ rfl
    exact .ite_check (fun _ => .consume (.pure rfl)) fun _ => .pure rfl
  · rintro k _ υ rfl
    exact h k υ

/-- The items of a list are folded, each of them in turn. -/
theorem commaList {closer : Kind} {item : α → Parse α} {I : α → Bool → Prop} {start : α}
    (hstart : I start m)
    (h : ∀ a m' υ, I a m' → Comes env depth m' υ (item a) fun b m'' _ => I b m'') :
    Comes env depth m τ (commaList closer start item) fun a m' _ => I a m' := by
  refine .skipNewlines fun _ υ => .loop (I := fun a m' _ => I a m') hstart fun a m' υ ha => ?_
  refine .ite_check (fun _ => .pure ha) fun _ => (h a m' υ ha).bind fun b m'' χ hb => ?_
  refine .skipNewlines fun _ _ => .ite_check (fun _ => ?_) fun _ => .pure hb
  exact .consume (.skipNewlines fun _ _ => .pure hb)

end Comes

end Parse

end PolyScript
