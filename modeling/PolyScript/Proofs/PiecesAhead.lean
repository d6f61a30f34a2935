import PolyScript.Proofs.ParsedPatterns
import PolyScript.Proofs.Pieces
import PolyScript.Proofs.Tape

/-!
# Parsing Pieces

What a parser does where the pieces ahead are known, and the mode that the lexer is in. A
parser that takes some of the pieces may leave the lexer in another mode, since size mode
is off behind every size, whatever it was before. So it is described by the pieces and the
mode before and after it, and by what holds of its result (`Parse.Consumes`).

Only pieces that suit the mode can be taken or looked at. Switching the mode leaves the
pieces as they are: a text that is legible in the right modes has no lexical error in the
other mode either, at the point where it is switched.

## Main definitions

* `Parse.State.Meets`: The pieces ahead of a state, and its mode.
* `Parse.Consumes`: What a parser yields, and which pieces and which mode it leaves.
* `Parse.Launches`: The same of a parser and the first rounds of a loop behind it.

## Theorems

* `Parse.Consumes.bind`, `Parse.Consumes.nested`, `Parse.Consumes.inSizeMode`,
  `Parse.Consumes.loop`: Composed parsers.
* `Parse.Launches.round`, `Parse.Launches.finish`: One more round, and the last one.
* `Parse.run_of_consumes`: A parse of a whole text.
-/

namespace PolyScript

namespace Lexer

variable {cs : List Char} {ps : List Piece}

/-- A legible text begins with no lexical error, in either mode. -/
theorem Legible.next_ne_error (h : Legible cs ps) (sizeMode : Bool) (source : String)
    (before : List Char) (e : LexError) (lx : Lexer) :
    (reading sizeMode source before cs).next ≠ (.error e, lx) := by
  induction h generalizing before with
  | finish =>
      intro hnext
      cases hnext
  | blank hblank hline _ ih =>
      rw [(same_blank hblank hline source before _).next]
      exact ih _
  | @piece p cs ps hread _ _ =>
      intro hnext
      rcases p.exists_suits with ⟨mode, hsuits⟩
      have herror := next_error_mode hnext mode
      have hok := hread.next mode hsuits source before
      change (reading mode source before (p.word.spelling ++ cs)).next.1 = _ at herror
      rw [hok] at herror
      cases herror

/-- Only the end of a text is read as such. -/
theorem Legible.eq_finish {p : Piece} (h : Legible cs (p :: ps)) (hp : p.kind = .endOfInput) :
    p = .finish ∧ ps = [] := by
  generalize hpieces : p :: ps = all at h
  induction h with
  | finish =>
      cases hpieces
      exact ⟨rfl, rfl⟩
  | blank _ _ _ ih => exact ih hpieces
  | piece hread =>
      cases hpieces
      exact absurd hp hread.proper

theorem within_reading {source : String} {before rest : List Char}
    (h : source.toList = before ++ rest) (sizeMode : Bool) :
    (reading sizeMode source before rest).Within source :=
  ⟨rfl, before, h, rfl⟩

end Lexer

namespace Parse

open Lexer (Legible reading)

/-- At a depth and in a mode, the pieces lie ahead. -/
structure State.Meets (env : Env) (depth : Nat) (sizeMode : Bool) (ps : List Piece)
    (s : State) : Prop where
  sound : s.Sound env.source
  depth_eq : s.depth = depth
  ahead : ∃ before cs, env.source.toList = before ++ cs ∧
    s.At (reading sizeMode env.source before cs) ∧ Legible cs ps

variable {α β : Type} {env : Env} {depth : Nat} {m m' m'' : Bool} {ps us vs : List Piece}
  {p q : Piece} {s t : State} {kind : Kind}

namespace State.Meets

/-- White space before the first piece is passed over. -/
theorem first (h : s.Meets env depth m (p :: ps)) (hp : p.kind ≠ .endOfInput) :
    ∃ before cs, env.source.toList = before ++ p.word.spelling ++ cs ∧
      s.At (reading m env.source before (p.word.spelling ++ cs)) ∧ p.IsRead cs ∧ Legible cs ps := by
  rcases h.ahead with ⟨before, cs, hsource, hat, hlegible⟩
  generalize hpieces : p :: ps = all at hlegible
  induction hlegible generalizing before with
  | finish =>
      cases hpieces
      exact absurd rfl hp
  | @blank c cs _ hblank hline _ ih =>
      have hbehind : env.source.toList = before ++ [c] ++ cs := by
        rw [hsource, List.append_assoc, List.singleton_append]
      exact ih _ hbehind (hat.of_same (Lexer.same_blank hblank hline env.source before cs)) hpieces
  | @piece _ cs _ hread hrest _ =>
      cases hpieces
      exact ⟨before, cs, by rw [hsource, List.append_assoc], hat, hread, hrest⟩

/-- At the end of a text nothing is left but white space. -/
theorem last (h : s.Meets env depth m [.finish]) :
    ∃ before, env.source.toList = before ∧ s.At (reading m env.source before []) := by
  rcases h.ahead with ⟨before, cs, hsource, hat, hlegible⟩
  generalize hpieces : [Piece.finish] = all at hlegible
  induction hlegible generalizing before with
  | finish => exact ⟨before, by rw [hsource, List.append_nil], hat⟩
  | @blank c cs _ hblank hline _ ih =>
      have hbehind : env.source.toList = before ++ [c] ++ cs := by
        rw [hsource, List.append_assoc, List.singleton_append]
      exact ih _ hbehind (hat.of_same (Lexer.same_blank hblank hline env.source before cs)) hpieces
  | piece hread =>
      cases hpieces
      exact absurd rfl hread.proper

theorem short (h : s.Meets env depth m ps) : ps.length ≤ env.source.utf8ByteSize + 1 := by
  rcases h.ahead with ⟨before, cs, hsource, -, hlegible⟩
  have hlength := hlegible.length_le
  have hbytes := Position.length_le_byteCount env.source.toList
  rw [← byteSize_eq, hsource, List.length_append] at hbytes
  omega

/-- The current token is the first piece, if that can be read in the mode. -/
theorem token (h : s.Meets env depth m (p :: ps)) (hp : p.Suits m) :
    p.word.Names env.source s.token := by
  by_cases hend : p.kind = .endOfInput
  · obtain ⟨rfl, rfl⟩ : p = .finish ∧ ps = [] := by
      rcases h.ahead with ⟨_, _, _, _, hlegible⟩
      exact hlegible.eq_finish hend
    rcases h.last with ⟨before, hsource, hat⟩
    have hnext : (reading m env.source before []).next =
        (.ok (Word.finish.token before), reading m env.source before []) := by
      simp [Lexer.next, reading, Lexer.skipBlank, Lexer.scanToken, Token.endAt, Word.finish,
        Word.token]
    have hwhole : env.source.toList = before ++ Word.finish.spelling ++ [] := by
      simp [hsource, Word.finish]
    rw [hat.token_ok h.sound hnext]
    exact Word.finish.names_token hwhole
  · rcases h.first hend with ⟨before, cs, hsource, hat, hread, -⟩
    rw [hat.token_ok h.sound (hread.next m hp _ _)]
    exact p.word.names_token hsource

theorem reads (h : s.Meets env depth m ps) (hreads : s.Reads t) : t.Meets env depth m ps := by
  rcases h.ahead with ⟨before, cs, hsource, hat, hlegible⟩
  refine ⟨h.sound.reads hreads, ?_, before, cs, hsource, hat.reads h.sound hreads, hlegible⟩
  rcases hreads with ⟨n, rfl⟩
  exact h.depth_eq

theorem filled (h : s.Meets env depth m ps) : s.filled.Meets env depth m ps :=
  h.reads s.reads_filled

theorem advanced (h : s.Meets env depth m (p :: ps)) (hp : p.Suits m)
    (hkind : p.kind ≠ .endOfInput) : s.advanced.Meets env depth m ps := by
  rcases h.first hkind with ⟨before, cs, hsource, hat, hread, hlegible⟩
  have hnext := hread.next m hp env.source before
  have hend : (p.word.token before).isEnd = false := decide_eq_false hkind
  exact ⟨h.sound.advanced, h.depth_eq, before ++ p.word.spelling, cs, hsource,
    hat.advanced h.sound hnext hend, hlegible⟩

/-- The piece behind the first one is the next token. -/
theorem second (h : s.Meets env depth m (p :: q :: ps)) (hp : p.Suits m)
    (hkind : p.kind ≠ .endOfInput) (hq : q.Suits m) :
    q.word.Names env.source (s.buffer.tokenAt (s.cursor + 1)) := by
  have hend : s.token.isEnd = false := by
    rw [Token.isEnd, (h.token hp).kind]
    exact decide_eq_false hkind
  have hnames := (h.advanced hp hkind).token hq
  rwa [State.token, tokenAt_advanced, State.cursor_advanced hend] at hnames

theorem withDepth (h : s.Meets env depth m ps) (next : Nat) :
    (s.atDepth next).Meets env next m ps :=
  ⟨⟨h.sound.1, h.sound.2, h.sound.3⟩, rfl, h.ahead⟩

/-- Switching the mode leaves the pieces as they are. -/
theorem switched (h : s.Meets env depth m ps) (sizeMode : Bool) :
    (switchSizeMode sizeMode s).Meets env depth sizeMode ps := by
  rcases h.ahead with ⟨before, cs, hsource, hat, hlegible⟩
  rcases hat.switched h.sound (Lexer.within_reading hsource m) sizeMode with
    hswitched | ⟨_, _, _, _, _, herror, _⟩
  · refine ⟨h.sound.switchSizeMode sizeMode, ?_, before, cs, hsource, hswitched, hlegible⟩
    exact h.depth_eq
  · exact absurd herror (hlegible.next_ne_error m _ _ _ _)

/-- Where nothing is left there was no lexical error. -/
theorem lexError? (h : s.Meets env depth m [.finish]) : s.buffer.lexError? = none := by
  rcases h.last with ⟨before, -, hat⟩
  rw [State.At] at hat
  generalize s.buffer.tokens.toList.drop s.cursor = ts at hat
  have hnone : s.buffer.failure = none := by
    cases hat with
    | rest _ hfailure => exact hfailure
    | token hnext hend =>
        cases hnext
        cases hend
    | done _ _ _ hfailure => exact hfailure
    | fail hnext => cases hnext
  rw [TokenBuffer.lexError?, hnone]
  rfl

end State.Meets

theorem State.meets_initial {ps : List Piece} (h : Legible env.source.toList ps) :
    (State.initial env.source).Meets env 0 false ps :=
  ⟨State.sound_initial env.source, rfl, [], env.source.toList, rfl, State.at_initial env.source, h⟩

/-! ### What parsers consume -/

/-- At a depth and in a mode, with some pieces ahead, a parser yields something and leaves other
    pieces, and maybe another mode. -/
def Consumes (env : Env) (depth : Nat) (m : Bool) (ps : List Piece) (m' : Bool) (us : List Piece)
    (p : Parse α) (V : α → Prop) : Prop :=
  ∀ s : State, s.Meets env depth m ps →
    ∃ a t, p env s = .ok a t ∧ V a ∧ t.Meets env depth m' us

theorem consumes_pure {V : α → Prop} {a : α} (ha : V a) :
    Consumes env depth m ps m ps (pure a) V := fun s hs => ⟨a, s, rfl, ha, hs⟩

theorem Consumes.bind {p : Parse α} {f : α → Parse β} {V : α → Prop} {W : β → Prop}
    (h : Consumes env depth m ps m' us p V)
    (hf : ∀ a, V a → Consumes env depth m' us m'' vs (f a) W) :
    Consumes env depth m ps m'' vs (p >>= f) W := by
  intro s hs
  rcases h s hs with ⟨a, t, hrun, ha, ht⟩
  rw [bind_run, hrun]
  exact hf a ha t ht

theorem Consumes.mono {p : Parse α} {V W : α → Prop} (h : Consumes env depth m ps m' us p V)
    (hW : ∀ a, V a → W a) : Consumes env depth m ps m' us p W := by
  intro s hs
  rcases h s hs with ⟨a, t, hrun, ha, ht⟩
  exact ⟨a, t, hrun, hW a ha, ht⟩

theorem consumes_current (hp : p.Suits m) :
    Consumes env depth m (p :: ps) m (p :: ps) current (p.word.Names env.source) :=
  fun s hs => ⟨s.token, s.filled, rfl, hs.token hp, hs.filled⟩

theorem consumes_peekKind (hp : p.Suits m) :
    Consumes env depth m (p :: ps) m (p :: ps) (peekKind 0) (· = p.kind) :=
  fun s hs => ⟨_, _, peekKind_run 0 env s, (hs.token hp).kind, hs.reads ⟨_, rfl⟩⟩

theorem consumes_peekNext (hp : p.Suits m) (hkind : p.kind ≠ .endOfInput) (hq : q.Suits m) :
    Consumes env depth m (p :: q :: ps) m (p :: q :: ps) (peekKind 1) (· = q.kind) :=
  fun s hs => ⟨_, _, peekKind_run 1 env s, (hs.second hp hkind hq).kind, hs.reads ⟨_, rfl⟩⟩

theorem consumes_check (kind : Kind) (hp : p.Suits m) :
    Consumes env depth m (p :: ps) m (p :: ps) (check kind) (· = decide (p.kind = kind)) :=
  fun s hs => ⟨_, _, check_run kind env s, by rw [(hs.token hp).kind]; rfl, hs.filled⟩

theorem consumes_consume (hp : p.Suits m) (hkind : p.kind ≠ .endOfInput) :
    Consumes env depth m (p :: ps) m ps consume (p.word.Names env.source) :=
  fun s hs => ⟨s.token, s.advanced, rfl, hs.token hp, hs.advanced hp hkind⟩

theorem consumes_languages : Consumes env depth m ps m ps languages (· = env.languages) :=
  fun s hs => ⟨_, s, rfl, rfl, hs⟩

/-- A test whose answer is known. -/
theorem Consumes.ite_check {f g : Parse α} {V : α → Prop} (kind : Kind) (hp : p.Suits m)
    (hf : p.kind = kind → Consumes env depth m (p :: ps) m' us f V)
    (hg : p.kind ≠ kind → Consumes env depth m (p :: ps) m' us g V) :
    Consumes env depth m (p :: ps) m' us (check kind >>= fun b => if b then f else g) V := by
  refine (consumes_check kind hp).bind ?_
  rintro _ rfl
  by_cases hkind : p.kind = kind
  · rw [decide_eq_true hkind]
    exact hf hkind
  · rw [decide_eq_false hkind]
    exact hg hkind

theorem consumes_expect (hp : p.Suits m) (hkind : p.kind = kind) (hend : kind ≠ .endOfInput) :
    Consumes env depth m (p :: ps) m ps (expect kind) (p.word.Names env.source) :=
  .ite_check kind hp (fun _ => consumes_consume hp (hkind ▸ hend)) fun hne => absurd hkind hne

theorem consumes_expectClosing (opening : Token) (hp : p.Suits m) (hkind : p.kind = kind)
    (hend : kind ≠ .endOfInput) :
    Consumes env depth m (p :: ps) m ps (expectClosing opening kind) (p.word.Names env.source) :=
  .ite_check kind hp (fun _ => consumes_consume hp (hkind ▸ hend)) fun hne => absurd hkind hne

/-- One level deeper, where the guard admits that. -/
theorem Consumes.nested {p : Parse α} {V : α → Prop} (hguard : env.guard.Admits depth)
    (h : Consumes env (depth + 1) m ps m' us p V) :
    Consumes env depth m ps m' us (nested p) V := by
  intro s hs
  rcases h _ (hs.filled.withDepth (depth + 1)) with ⟨a, t, hrun, ha, ht⟩
  refine ⟨a, t.atDepth (Guard.exit t.depth), ?_, ha, ?_⟩
  · rw [nested_run, hs.depth_eq, hguard]
    simp only [hrun]
  · have hexit : Guard.exit t.depth = depth := by rw [ht.depth_eq]; rfl
    rw [hexit]
    exact ht.withDepth depth

/-- Size mode is on for a parser, and off behind it. -/
theorem Consumes.inSizeMode {p : Parse α} {V : α → Prop}
    (h : Consumes env depth true ps m' us p V) :
    Consumes env depth m ps false us (inSizeMode p) V := by
  intro s hs
  rcases h _ (hs.switched true) with ⟨a, t, hrun, ha, ht⟩
  refine ⟨a, switchSizeMode false t, ?_, ha, ht.switched false⟩
  unfold Parse.inSizeMode around
  rw [hrun]

/-- A look ahead leaves all pieces. -/
theorem Consumes.lookahead {p : Parse α} {V : α → Prop} (hscans : Scans (lookahead p))
    (h : Consumes env depth m ps m' us p V) : Consumes env depth m ps m ps (lookahead p) V := by
  intro s hs
  rcases h s hs with ⟨a, t, hrun, ha, ht⟩
  have hlookahead : Parse.lookahead p env s = .ok a { t with cursor := s.cursor } := by
    have hdef : Parse.lookahead p env s =
        (p >>= fun result => setCursor s.cursor >>= fun _ => pure result) env s := rfl
    rw [hdef, bind_run, hrun]
    rfl
  rcases hscans env s with ⟨b, u, hreads, hscan⟩ | ⟨u, -, hfail⟩
  · have hsame := (hscan env.guard).symm.trans hlookahead
    cases hsame
    exact ⟨_, _, hlookahead, ha, hs.reads hreads⟩
  · exact absurd ((hfail env.guard).symm.trans hlookahead) nofun

/-! ### Loops -/

section

variable {step : α → Parse (α ⊕ β)} {V : α → Prop} {W : β → Prop} {a : α} {n : Nat}

theorem Consumes.iterate_next
    (h : Consumes env depth m ps m' us (step a) fun r => ∃ next, r = .inl next ∧ V next)
    (hrest : ∀ next, V next → Consumes env depth m' us m'' vs (iterate step n next) W) :
    Consumes env depth m ps m'' vs (iterate step (n + 1) a) W := by
  intro s hs
  rcases h s hs with ⟨_, t, hrun, ⟨next, rfl, hnext⟩, ht⟩
  rw [iterate_succ_run, hrun]
  exact hrest next hnext t ht

theorem Consumes.iterate_done
    (h : Consumes env depth m ps m' us (step a) fun r => ∃ b, r = .inr b ∧ W b) :
    Consumes env depth m ps m' us (iterate step (n + 1) a) W := by
  intro s hs
  rcases h s hs with ⟨_, t, hrun, ⟨b, rfl, hb⟩, ht⟩
  exact ⟨b, t, by rw [iterate_succ_run, hrun], hb, ht⟩

/-- A loop has rounds to spare: one for each piece at least, and one more. -/
theorem Consumes.loop
    (h : ∀ n, ps.length < n → Consumes env depth m ps m' us (iterate step n a) W) :
    Consumes env depth m ps m' us (loop a step) W := by
  intro s hs
  have hshort := hs.short
  exact h _ (by omega) s hs

/-- A loop that ends at once. -/
theorem Consumes.loop_done
    (h : Consumes env depth m ps m' us (step a) fun r => ∃ b, r = .inr b ∧ W b) :
    Consumes env depth m ps m' us (Parse.loop a step) W := by
  refine .loop fun n hn => ?_
  obtain ⟨n, rfl⟩ : ∃ k, n = k + 1 := ⟨n - 1, by omega⟩
  exact .iterate_done h

end

theorem consumes_skipNewlines (hp : p.Suits m) (hkind : p.kind ≠ .newline) :
    Consumes env depth m (p :: ps) m (p :: ps) skipNewlines fun _ => True :=
  .loop_done (.ite_check .newline hp (fun hline => absurd hline hkind)
    fun _ => consumes_pure ⟨0, rfl, trivial⟩)

theorem consumes_skipSeparators (hp : p.Suits m) (hkind : isSeparator p.kind = false) :
    Consumes env depth m (p :: ps) m (p :: ps) skipSeparators fun _ => True := by
  refine .loop_done ((consumes_peekKind hp).bind ?_)
  rintro _ rfl
  rw [hkind]
  exact consumes_pure ⟨(), rfl, trivial⟩

/-! ### Loops in the middle -/

/-- With some pieces ahead, a parser and the first `k` rounds of a loop behind it come to a
    value from which the loop goes on, with other pieces ahead. -/
def Launches (env : Env) (depth : Nat) (m : Bool) (ps : List Piece) (m' : Bool) (us : List Piece)
    (p : Parse α) (step : α → Parse (α ⊕ β)) (k : Nat) (V : α → Prop) : Prop :=
  ∀ s : State, s.Meets env depth m ps → ∃ a t, V a ∧ t.Meets env depth m' us ∧
    ∀ n, (p >>= iterate step (n + k)) env s = iterate step n a env t

section

variable {p : Parse α} {step : α → Parse (α ⊕ β)} {V W : α → Prop} {U : β → Prop} {k : Nat}

theorem Consumes.launches (h : Consumes env depth m ps m' us p V) :
    Launches env depth m ps m' us p step 0 V := by
  intro s hs
  rcases h s hs with ⟨a, t, hrun, ha, ht⟩
  exact ⟨a, t, ha, ht, fun n => by rw [bind_run, hrun, Nat.add_zero]⟩

/-- One more round. -/
theorem Launches.round (h : Launches env depth m ps m' us p step k V)
    (hstep : ∀ a, V a →
      Consumes env depth m' us m'' vs (step a) fun r => ∃ b, r = .inl b ∧ W b) :
    Launches env depth m ps m'' vs p step (k + 1) W := by
  intro s hs
  rcases h s hs with ⟨a, t, ha, ht, hrun⟩
  rcases hstep a ha t ht with ⟨_, u, hround, ⟨b, rfl, hb⟩, hu⟩
  refine ⟨b, u, hb, hu, fun n => ?_⟩
  rw [← Nat.add_assoc, Nat.add_right_comm, hrun, iterate_succ_run, hround]

/-- The last round. -/
theorem Launches.finish (h : Launches env depth m ps m' us p step k V) (hk : k ≤ ps.length)
    (hstep : ∀ a, V a →
      Consumes env depth m' us m'' vs (step a) fun r => ∃ b, r = .inr b ∧ U b) :
    Consumes env depth m ps m'' vs (p >>= fun a => loop a step) U := by
  intro s hs
  rcases h s hs with ⟨a, t, ha, ht, hrun⟩
  have hshort := hs.short
  obtain ⟨n, hn⟩ : ∃ n, env.source.utf8ByteSize + 2 = n + 1 + k :=
    ⟨env.source.utf8ByteSize + 1 - k, by omega⟩
  rw [bind_loop_run, hn, hrun]
  exact Consumes.iterate_done (hstep a ha) t ht

end

/-! ### Whole texts -/

/-- A text that is legible is parsed by what consumes its pieces. -/
theorem run_of_consumes {f : Parse α} {V : α → Prop}
    (hlegible : Legible env.source.toList (p :: ps)) (hp : p.Suits false)
    (hkind : isSeparator p.kind = false)
    (h : Consumes env 0 false (p :: ps) m [.finish] f V) :
    ∃ a, run (wholeText f) env = .ok a ∧ V a := by
  have hwhole : Consumes env 0 false (p :: ps) m [.finish] (wholeText f) V := by
    refine (consumes_skipSeparators hp hkind).bind fun _ _ => ?_
    refine h.bind fun a ha => ?_
    refine (consumes_skipSeparators (Piece.suits_fixed _ _) rfl).bind fun _ _ => ?_
    exact .ite_check .endOfInput (Piece.suits_fixed _ _) (fun _ => consumes_pure ha)
      fun hne => absurd rfl hne
  rcases hwhole _ (State.meets_initial hlegible) with ⟨a, t, hrun, ha, ht⟩
  refine ⟨a, ?_, ha⟩
  rw [run_of_ok hrun, ht.lexError?]
  rfl

end Parse

end PolyScript
