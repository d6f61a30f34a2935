import PolyScript.Proofs.Spelling

/-!
# Parsing Words

Where the words ahead of a state are known, it is known what a parser does. A parser that
takes some of them is described by the words that lie ahead before and after it, and by
what holds of its result (`Parse.Takes`). Such facts are composed as the parsers are.

A rule that extends what it has by one piece after another cannot be described by its
result alone, because a construct that is read as part of a longer one ends in the middle
of such a loop. `Parse.Opens` says that a parser and the loop behind it come to a certain
point: whatever the loop does from there on, it does with what was read so far.

## Main definitions

* `Parse.State.Faces`: The words ahead of a state.
* `Parse.Takes`: What a parser yields, and which words it leaves.
* `Parse.Opens`: The same of a parser and the first rounds of a loop behind it.

## Theorems

* `Parse.Takes.bind`, `Parse.Takes.nested`, `Parse.Takes.loop`: Composed parsers.
* `Parse.Opens.round`, `Parse.Opens.finish`: One more round, and the last one.
* `Parse.takes_nextItem`, `Parse.takes_lastItem`: One round over a list.
* `Parse.takes_commaList`: Items with commas between them.
* `Parse.run_of_takes`: A parse of a whole text.
-/

namespace PolyScript

namespace Parse

/-- At a depth, the words lie ahead. -/
structure State.Faces (env : Env) (depth : Nat) (ws : List Word) (s : State) : Prop where
  read : ∃ n, s.buffer.HasRead (Lexer.ofSource env.source) n
  depth_eq : s.depth = depth
  ahead : ∀ i (w : Word), ws[i]? = some w →
    w.Names env.source (TokenList.get (Lexer.ofSource env.source).eager.1 (s.cursor + i))
  short : ws.length ≤ env.source.utf8ByteSize + 1

variable {α β : Type} {env : Env} {depth : Nat} {ws us vs : List Word} {w v : Word}
  {s : State} {kind : Kind}

namespace State.Faces

theorem tokenAt (h : s.Faces env depth ws) {i : Nat} (hi : ws[i]? = some w) :
    w.Names env.source (s.buffer.tokenAt (s.cursor + i)) := by
  rcases h.read with ⟨n, hread⟩
  rw [hread.tokenAt]
  exact h.ahead i w hi

theorem token (h : s.Faces env depth (w :: ws)) : w.Names env.source s.token :=
  h.tokenAt (i := 0) rfl

/-- Looking ahead changes nothing. -/
theorem fill (h : s.Faces env depth ws) (i : Nat) :
    ({ s with buffer := s.buffer.fill i } : State).Faces env depth ws := by
  rcases h.read with ⟨n, hread⟩
  rcases hread.fill i with ⟨m, hfill, -⟩
  exact ⟨⟨m, hfill⟩, h.depth_eq, h.ahead, h.short⟩

theorem filled (h : s.Faces env depth ws) : s.filled.Faces env depth ws := h.fill s.cursor

theorem advanced (h : s.Faces env depth (w :: ws)) (hw : w.kind ≠ .endOfInput) :
    s.advanced.Faces env depth ws := by
  have hend : s.token.isEnd = false := by
    rw [Token.isEnd, h.token.kind, decide_eq_false hw]
  refine ⟨(h.fill s.cursor).read, h.depth_eq, fun i v hi => ?_, Nat.le_of_succ_le h.short⟩
  rw [State.cursor_advanced hend, Nat.add_assoc, Nat.add_comm 1]
  exact h.ahead (i + 1) v hi

end State.Faces

/-! ### What parsers take -/

/-- At a depth, with some words ahead, a parser yields something and leaves other words. -/
def Takes (env : Env) (depth : Nat) (ws us : List Word) (p : Parse α) (V : α → Prop) : Prop :=
  ∀ s : State, s.Faces env depth ws → ∃ a t, p env s = .ok a t ∧ V a ∧ t.Faces env depth us

theorem takes_pure {V : α → Prop} {a : α} (ha : V a) : Takes env depth ws ws (pure a) V :=
  fun s hs => ⟨a, s, rfl, ha, hs⟩

theorem Takes.bind {p : Parse α} {f : α → Parse β} {V : α → Prop} {W : β → Prop}
    (h : Takes env depth ws us p V) (hf : ∀ a, V a → Takes env depth us vs (f a) W) :
    Takes env depth ws vs (p >>= f) W := by
  intro s hs
  rcases h s hs with ⟨a, t, hrun, ha, ht⟩
  rw [bind_run, hrun]
  exact hf a ha t ht

theorem takes_current : Takes env depth (w :: ws) (w :: ws) current (w.Names env.source) :=
  fun s hs => ⟨s.token, s.filled, rfl, hs.token, hs.filled⟩

theorem takes_peekKind {n : Nat} (hw : ws[n]? = some w) :
    Takes env depth ws ws (peekKind n) (· = w.kind) :=
  fun s hs => ⟨_, _, peekKind_run n env s, (hs.tokenAt hw).kind, hs.fill _⟩

theorem takes_check (kind : Kind) :
    Takes env depth (w :: ws) (w :: ws) (check kind) (· = decide (w.kind = kind)) :=
  fun s hs => ⟨_, _, check_run kind env s, by rw [hs.token.kind], hs.filled⟩

theorem takes_consume (hw : w.kind ≠ .endOfInput) :
    Takes env depth (w :: ws) ws consume (w.Names env.source) :=
  fun s hs => ⟨s.token, s.advanced, rfl, hs.token, hs.advanced hw⟩

theorem takes_languages : Takes env depth ws ws languages (· = env.languages) :=
  fun s hs => ⟨_, s, rfl, rfl, hs⟩

/-- A test whose answer is known. -/
theorem Takes.ite_check {p q : Parse α} {V : α → Prop} (kind : Kind)
    (hp : w.kind = kind → Takes env depth (w :: ws) us p V)
    (hq : w.kind ≠ kind → Takes env depth (w :: ws) us q V) :
    Takes env depth (w :: ws) us (check kind >>= fun b => if b then p else q) V := by
  refine (takes_check kind).bind ?_
  rintro _ rfl
  by_cases hkind : w.kind = kind
  · rw [decide_eq_true hkind]
    exact hp hkind
  · rw [decide_eq_false hkind]
    exact hq hkind

theorem takes_expect (hw : w.kind = kind) (hkind : kind ≠ .endOfInput) :
    Takes env depth (w :: ws) ws (expect kind) (w.Names env.source) :=
  .ite_check kind (fun _ => takes_consume (hw ▸ hkind)) fun hne => absurd hw hne

theorem takes_expectClosing (opening : Token) (hw : w.kind = kind) (hkind : kind ≠ .endOfInput) :
    Takes env depth (w :: ws) ws (expectClosing opening kind) (w.Names env.source) :=
  .ite_check kind (fun _ => takes_consume (hw ▸ hkind)) fun hne => absurd hw hne

/-- One level deeper, if the guard admits that. -/
theorem Takes.nested {p : Parse α} {V : α → Prop}
    (henter : ∀ position, env.guard.enter depth position = .ok (depth + 1))
    (h : Takes env (depth + 1) ws us p V) : Takes env depth ws us (nested p) V := by
  intro s hs
  have hdeeper : (s.filled.atDepth (depth + 1)).Faces env (depth + 1) ws :=
    ⟨hs.filled.read, rfl, hs.filled.ahead, hs.short⟩
  rcases h _ hdeeper with ⟨a, t, hrun, ha, ht⟩
  refine ⟨a, t.atDepth (Guard.exit t.depth), ?_, ha, ht.read, ?_, ht.ahead, ht.short⟩
  · rw [nested_run, hs.depth_eq, henter]
    simp only [hrun]
  · rw [State.atDepth, ht.depth_eq]
    rfl

/-- A look ahead leaves all words. -/
theorem Takes.lookahead {p : Parse α} {V : α → Prop} (h : Takes env depth ws us p V) :
    Takes env depth ws ws (lookahead p) V := by
  intro s hs
  rcases h s hs with ⟨a, t, hrun, ha, ht⟩
  refine ⟨a, { t with cursor := s.cursor }, ?_, ha, ht.read, ht.depth_eq, hs.ahead, hs.short⟩
  have hlookahead : Parse.lookahead p env s =
      (p >>= fun result => setCursor s.cursor >>= fun _ => pure result) env s := rfl
  rw [hlookahead, bind_run, hrun]
  rfl

/-! ### Loops -/

section

variable {step : α → Parse (α ⊕ β)} {V : α → Prop} {W : β → Prop} {a : α} {n : Nat}

theorem Takes.iterate_next
    (h : Takes env depth ws us (step a) fun r => ∃ next, r = .inl next ∧ V next)
    (hrest : ∀ next, V next → Takes env depth us vs (iterate step n next) W) :
    Takes env depth ws vs (iterate step (n + 1) a) W := by
  intro s hs
  rcases h s hs with ⟨_, t, hrun, ⟨next, rfl, hnext⟩, ht⟩
  rw [iterate_succ_run, hrun]
  exact hrest next hnext t ht

theorem Takes.iterate_done
    (h : Takes env depth ws us (step a) fun r => ∃ b, r = .inr b ∧ W b) :
    Takes env depth ws us (iterate step (n + 1) a) W := by
  intro s hs
  rcases h s hs with ⟨_, t, hrun, ⟨b, rfl, hb⟩, ht⟩
  exact ⟨b, t, by rw [iterate_succ_run, hrun], hb, ht⟩

/-- A loop has rounds to spare: one for each word at least, and one more. -/
theorem Takes.loop (h : ∀ n, ws.length < n → Takes env depth ws us (iterate step n a) W) :
    Takes env depth ws us (loop a step) W := by
  intro s hs
  have hshort := hs.short
  exact h _ (by omega) s hs

/-- A loop that ends at once. -/
theorem Takes.loop_done (h : Takes env depth ws us (step a) fun r => ∃ b, r = .inr b ∧ W b) :
    Takes env depth ws us (Parse.loop a step) W := by
  refine .loop fun n hn => ?_
  obtain ⟨n, rfl⟩ : ∃ k, n = k + 1 := ⟨n - 1, by omega⟩
  exact .iterate_done h

end

theorem takes_skipNewlines (hw : w.kind ≠ .newline) :
    Takes env depth (w :: ws) (w :: ws) skipNewlines fun _ => True :=
  .loop_done (.ite_check .newline (fun hline => absurd hline hw)
    fun _ => takes_pure ⟨0, rfl, trivial⟩)

theorem takes_skipSeparators (hw : isSeparator w.kind = false) :
    Takes env depth (w :: ws) (w :: ws) skipSeparators fun _ => True := by
  refine .loop_done ((takes_peekKind (w := w) rfl).bind ?_)
  rintro _ rfl
  rw [hw]
  exact takes_pure ⟨(), rfl, trivial⟩

/-! ### Loops in the middle -/

/-- With some words ahead, a parser and the first `k` rounds of a loop behind it come to a
    value from which the loop goes on, with other words ahead. -/
def Opens (env : Env) (depth : Nat) (ws us : List Word) (p : Parse α)
    (step : α → Parse (α ⊕ β)) (k : Nat) (V : α → Prop) : Prop :=
  ∀ s : State, s.Faces env depth ws → ∃ a t, V a ∧ t.Faces env depth us ∧
    ∀ n, (p >>= iterate step (n + k)) env s = iterate step n a env t

section

variable {p : Parse α} {step : α → Parse (α ⊕ β)} {V W : α → Prop} {U : β → Prop} {k : Nat}

theorem Takes.opens (h : Takes env depth ws us p V) : Opens env depth ws us p step 0 V := by
  intro s hs
  rcases h s hs with ⟨a, t, hrun, ha, ht⟩
  exact ⟨a, t, ha, ht, fun n => by rw [bind_run, hrun, Nat.add_zero]⟩

/-- One more round. -/
theorem Opens.round (h : Opens env depth ws us p step k V)
    (hstep : ∀ a, V a → Takes env depth us vs (step a) fun r => ∃ b, r = .inl b ∧ W b) :
    Opens env depth ws vs p step (k + 1) W := by
  intro s hs
  rcases h s hs with ⟨a, t, ha, ht, hrun⟩
  rcases hstep a ha t ht with ⟨_, u, hround, ⟨b, rfl, hb⟩, hu⟩
  refine ⟨b, u, hb, hu, fun n => ?_⟩
  rw [← Nat.add_assoc, Nat.add_right_comm, hrun, iterate_succ_run, hround]

/-- The last round. -/
theorem Opens.finish (h : Opens env depth ws us p step k V) (hk : k ≤ ws.length)
    (hstep : ∀ a, V a → Takes env depth us vs (step a) fun r => ∃ b, r = .inr b ∧ U b) :
    Takes env depth ws vs (p >>= fun a => loop a step) U := by
  intro s hs
  rcases h s hs with ⟨a, t, ha, ht, hrun⟩
  have hshort := hs.short
  obtain ⟨n, hn⟩ : ∃ n, env.source.utf8ByteSize + 2 = n + 1 + k :=
    ⟨env.source.utf8ByteSize + 1 - k, by omega⟩
  rw [bind_loop_run, hn, hrun]
  exact Takes.iterate_done (hstep a ha) t ht

end

/-! ### Lists -/

/-- Words at which an item of a list is over. -/
def EndsItem (closer : Kind) (ws : List Word) : Prop :=
  ∃ w us, ws = w :: us ∧ (w.kind = .comma ∨ w.kind = closer)

/-- Words that begin an item of a list. -/
def BeginsItem (closer : Kind) (ws : List Word) : Prop :=
  ∃ w us, ws = w :: us ∧ w.kind ≠ closer ∧ w.kind ≠ .newline

section

variable {ξ : Type} {closer : Kind} {item : α → Parse α} {words : ξ → List Word}
  {R : List ξ → α → Prop} {xs : List ξ} {last : Word}

/-- One round of reading a list. -/
def itemRound (closer : Kind) (item : α → Parse α) (acc : α) : Parse (α ⊕ α) := do
  if ← check closer then return .inr acc
  else
    let acc ← item acc
    let _ ← skipNewlines
    if ← check .comma then
      let _ ← consume
      let _ ← skipNewlines
      return .inl acc
    else return .inr acc

theorem length_le_join {wss : List (List Word)} (h : ∀ ws ∈ wss, BeginsItem closer ws) :
    wss.length ≤ (Word.join wss).length := by
  induction wss with
  | nil => exact Nat.le_refl _
  | cons first wss ih =>
      rcases h first List.mem_cons_self with ⟨w, us, rfl, -⟩
      have hrest := ih fun ws hws => h ws (List.mem_cons_of_mem _ hws)
      cases wss with
      | nil => simp [Word.join]
      | cons second wss =>
          simp only [Word.join, List.length_append, List.length_cons] at hrest ⊢
          omega

/-- No newline comes first if items or their closer are ahead. -/
theorem join_ahead {wss : List (List Word)} (h : ∀ ws ∈ wss, BeginsItem closer ws)
    (hlast : last.kind ≠ .newline) (rest : List Word) :
    ∃ w us, Word.join wss ++ last :: rest = w :: us ∧ w.kind ≠ .newline := by
  cases wss with
  | nil => exact ⟨last, rest, rfl, hlast⟩
  | cons first wss =>
      rcases h first List.mem_cons_self with ⟨w, us, rfl, -, hline⟩
      cases wss <;> exact ⟨w, _, rfl, hline⟩

/-- A round in front of an item reads it, and then what stands behind it. -/
theorem takes_itemRound {ws us : List Word} {acc : α} {V : α ⊕ α → Prop}
    (hbegins : BeginsItem closer ws)
    (h : Takes env depth (ws ++ us) vs (item acc >>= fun acc => do
      let _ ← skipNewlines
      if ← check .comma then
        let _ ← consume
        let _ ← skipNewlines
        return .inl acc
      else return .inr acc) V) :
    Takes env depth (ws ++ us) vs (itemRound closer item acc) V := by
  rcases hbegins with ⟨w, ws, rfl, hopen, -⟩
  exact .ite_check closer (fun heq => absurd heq hopen) fun _ => h

/-- The round over the last item stops in front of the closer. -/
theorem takes_lastItem (hlast : last.kind = closer) (hcloser : closer ≠ .comma ∧ closer ≠ .newline)
    (hbegins : BeginsItem closer us) {acc : α} {V : α → Prop}
    (h : Takes env depth (us ++ last :: ws) (last :: ws) (item acc) V) :
    Takes env depth (us ++ last :: ws) (last :: ws) (itemRound closer item acc)
      fun r => ∃ acc, r = .inr acc ∧ V acc := by
  refine takes_itemRound hbegins (h.bind fun acc hacc => ?_)
  refine (takes_skipNewlines (hlast ▸ hcloser.2)).bind fun _ _ => ?_
  exact .ite_check .comma (fun heq => absurd (hlast ▸ heq) hcloser.1) fun _ =>
    takes_pure ⟨acc, rfl, hacc⟩

/-- The round over an item with a comma behind it takes both. -/
theorem takes_nextItem (hbegins : BeginsItem closer us) (hline : w.kind ≠ .newline) {acc : α}
    {V : α → Prop}
    (h : Takes env depth (us ++ .verbatim .comma "," :: w :: ws) (.verbatim .comma "," :: w :: ws)
      (item acc) V) :
    Takes env depth (us ++ .verbatim .comma "," :: w :: ws) (w :: ws) (itemRound closer item acc)
      fun r => ∃ acc, r = .inl acc ∧ V acc := by
  refine takes_itemRound hbegins (h.bind fun acc hacc => ?_)
  refine (takes_skipNewlines (by decide)).bind fun _ _ => ?_
  refine .ite_check .comma (fun _ => ?_) fun hne => absurd rfl hne
  refine (takes_consume (by decide)).bind fun _ _ => ?_
  exact (takes_skipNewlines hline).bind fun _ _ => takes_pure ⟨acc, rfl, hacc⟩

/-- Rounds over items with commas between them fold all that are left, up to the closer, which
    stays ahead. The relation `R` is the invariant: it holds of the items so far and of what has
    been folded from them, and each item extends it. A bound on rounds that is greater than the
    number of items is not reached. -/
theorem takes_items (hlast : last.kind = closer) (hcloser : closer ≠ .comma ∧ closer ≠ .newline)
    (hbegins : ∀ x ∈ xs, BeginsItem closer (words x)) {all : List ξ}
    (hitem : ∀ done x acc rest, done ++ [x] <+: all → R done acc → EndsItem closer rest →
      Takes env depth (words x ++ rest) rest (item acc) (R (done ++ [x])))
    (done : List ξ) (hall : done ++ xs = all) {acc : α} (hacc : R done acc) {n : Nat}
    (hn : xs.length < n) :
    Takes env depth (Word.join (xs.map words) ++ last :: ws) (last :: ws)
      (iterate (itemRound closer item) n acc) (R all) := by
  have hnewline : last.kind ≠ .newline := hlast ▸ hcloser.2
  -- By induction on the items that are left. What was read before is an initial part of all, so
  -- an item may depend on those before it.
  induction xs generalizing done acc n with
  | nil =>
      obtain ⟨n, rfl⟩ : ∃ k, n = k + 1 := ⟨n - 1, by omega⟩
      rw [List.append_nil] at hall
      rw [hall] at hacc
      exact .iterate_done (.ite_check closer (fun _ => takes_pure ⟨acc, rfl, hacc⟩) fun hne =>
        absurd hlast hne)
  | cons x xs ih =>
      obtain ⟨n, rfl⟩ : ∃ k, n = k + 1 := ⟨n - 1, by omega⟩
      rw [← List.singleton_append, ← List.append_assoc] at hall
      have hinitial : done ++ [x] <+: all := ⟨xs, hall⟩
      have hfirst := hbegins x List.mem_cons_self
      cases xs with
      | nil =>
          rw [List.append_nil] at hall
          rw [← hall]
          exact .iterate_done (takes_lastItem hlast hcloser hfirst
            (hitem done x acc (last :: ws) hinitial hacc ⟨last, ws, rfl, .inr hlast⟩))
      | cons y xs =>
          have hothers : ∀ us ∈ (y :: xs).map words, BeginsItem closer us :=
            List.forall_mem_map.2 fun z hz => hbegins z (List.mem_cons_of_mem _ hz)
          rcases join_ahead hothers hnewline ws with ⟨v, vs, hnext, hline⟩
          have hrest := fun (acc : α) (hacc : R (done ++ [x]) acc) =>
            ih (fun z hz => hbegins z (List.mem_cons_of_mem _ hz)) _ hall hacc
              (Nat.lt_of_succ_lt_succ hn)
          rw [hnext] at hrest
          have hjoined : Word.join ((x :: y :: xs).map words) ++ last :: ws =
              words x ++ .verbatim .comma "," :: v :: vs := by
            rw [← hnext]
            simp only [List.map_cons, Word.join, List.append_assoc, List.cons_append]
          rw [hjoined]
          exact .iterate_next (takes_nextItem hfirst hline
            (hitem done x acc _ hinitial hacc ⟨_, _, rfl, .inl rfl⟩)) hrest

/-- Items with commas between them are folded, each of them in turn. -/
theorem takes_commaList (hlast : last.kind = closer)
    (hcloser : closer ≠ .comma ∧ closer ≠ .newline)
    (hbegins : ∀ x ∈ xs, BeginsItem closer (words x))
    (hitem : ∀ done x acc rest, done ++ [x] <+: xs → R done acc → EndsItem closer rest →
      Takes env depth (words x ++ rest) rest (item acc) (R (done ++ [x])))
    {start : α} (hstart : R [] start) :
    Takes env depth (Word.join (xs.map words) ++ last :: ws) (last :: ws)
      (commaList closer start item) (R xs) := by
  have hitems : ∀ us ∈ xs.map words, BeginsItem closer us := List.forall_mem_map.2 hbegins
  -- What is ahead is an item or the end of the list, and no newline.
  rcases join_ahead hitems (hlast ▸ hcloser.2) ws with ⟨w, us, hfirst, hline⟩
  have hlist :
      Takes env depth (w :: us) (last :: ws) (loop start (itemRound closer item)) (R xs) := by
    refine .loop fun n hn => ?_
    have hlength := length_le_join hitems
    rw [List.length_map] at hlength
    rw [← hfirst, List.length_append] at hn
    rw [← hfirst]
    exact takes_items hlast hcloser hbegins hitem [] rfl hstart (by omega)
  rw [hfirst]
  exact (takes_skipNewlines hline).bind fun _ _ => hlist

end

/-! ### Whole texts -/

theorem takes_wholeText {p : Parse α} {V : α → Prop} (hw : isSeparator w.kind = false)
    (h : Takes env depth (w :: ws) [.finish] p V) :
    Takes env depth (w :: ws) [.finish] (wholeText p) V := by
  refine (takes_skipSeparators hw).bind fun _ _ => ?_
  refine h.bind fun a ha => ?_
  refine (takes_skipSeparators (by decide)).bind fun _ _ => ?_
  exact .ite_check .endOfInput (fun _ => takes_pure ha) fun hne => absurd rfl hne

/-- A text that is a row of words is parsed by what takes these words. -/
theorem run_of_takes {p : Parse α} {V : α → Prop} (hrow : Lexer.Row env.source.toList ws [])
    (h : Takes env 0 (ws ++ [.finish]) [.finish] p V) : ∃ a, run p env = .ok a ∧ V a := by
  have hsource : env.source.toList = [] ++ env.source.toList := rfl
  rcases hrow.eager hsource (Nat.lt_succ_self _) with ⟨ts, htokens, hnames⟩
  have heager : (Lexer.ofSource env.source).eager = (ts, none) := htokens
  have hfaces : (State.initial env.source).Faces env 0 (ws ++ [.finish]) := by
    -- The tokens that the lexer reads bear the names of the words, in the same order.
    have hlength := hnames.length_eq
    refine ⟨⟨0, rfl⟩, rfl, fun i w hi => ?_, ?_⟩
    · rcases List.getElem?_eq_some_iff.1 hi with ⟨hlt, rfl⟩
      rw [heager]
      have hget : TokenList.get ts i = ts[i] := by
        rw [TokenList.get, List.getElem?_eq_getElem (hlength ▸ hlt)]
        rfl
      rw [State.initial, Nat.zero_add, hget]
      exact List.Forall₂.get hnames hlt (hlength ▸ hlt)
    · have hle := Nat.le_trans hrow.length_le (Position.length_le_byteCount env.source.toList)
      rw [← byteSize_eq] at hle
      rw [List.length_append]
      exact Nat.succ_le_succ hle
  rcases h _ hfaces with ⟨a, t, hrun, ha, ht⟩
  rcases ht.read with ⟨n, hread⟩
  refine ⟨a, ?_, ha⟩
  rw [run_of_ok hrun, hread.lexError?, heager]
  simp [settle]

end Parse

end PolyScript
