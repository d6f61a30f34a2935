import PolyScript.Proofs.Pace

/-!
# Looking Ahead in Step

The look-aheads of unbounded length give the same answers to two parses that are in
step. Most of them stop at a line end, and what they stop at is no matter. Two of them
go on.

Looking for an assignment passes over line ends inside brackets. Where a text is over,
though, no bracket is open, if it parses at all: its brackets are balanced, and the
look-ahead counts them. So the end of the text is met outside brackets, where a newline
would do as well.

Looking for a pipe operator or an `else` at the beginning of a line goes on to the line
behind the copy, which begins with neither.

## Main definitions

* `Excerpt.first`, `Excerpt.second`: The environments of the two parses.
* `Parse.Paces`: A parser that keeps two parses in step.

## Theorems

* `Parse.Paces.lookahead`: Look-aheads in step.
* `Parse.Survey.follows`: The look-aheads of unbounded length.
-/

namespace PolyScript

namespace Excerpt

/-- The environment of a parse of the text. -/
def first (e : Excerpt) (languages : LanguageTable) (guard : Guard) : Parse.Env :=
  ⟨e.source, languages, guard⟩

/-- The environment of a parse of the longer text. -/
def second (e : Excerpt) (languages : LanguageTable) (guard : Guard) : Parse.Env :=
  ⟨e.context, languages, guard⟩

theorem byteSize_le (e : Excerpt) :
    e.source.utf8ByteSize + Position.byteCount e.tail ≤ e.context.utf8ByteSize := by
  rw [byteSize_eq, byteSize_eq, e.context_eq]
  simp only [Position.byteCount, List.map_append, List.sum_append]
  omega

end Excerpt

namespace Parse

variable {e : Excerpt} {languages : LanguageTable} {guard : Guard} {α β : Type}

theorem lookahead_run (p : Parse α) (env : Env) (s : State) :
    lookahead p env s = match p env s with
      | .ok a t => .ok a { t with cursor := s.cursor }
      | .error e t => .error e t := by
  change (p >>= fun result => setCursor s.cursor >>= fun _ => pure result) env s = _
  rw [bind_run]
  rfl

/-- Scanning leaves two parses in step. -/
theorem Abreast.scans {p : Parse α} (hscans : Scans p) {env env' : Env} {s s' t t' : State} {a : α}
    (h : Abreast e s s') (hrun : p env s = .ok a t) (hrun' : p env' s' = .ok a t') :
    Abreast e t t' := by
  have hreads : ∀ {env : Env} {s t : State} {a : α}, p env s = .ok a t → s.Reads t := by
    intro env s t a hrun
    rcases hscans env s with ⟨b, u, hu, hok⟩ | ⟨u, _, herror⟩
    · cases (hok env.guard).symm.trans hrun
      exact hu
    · cases (herror env.guard).symm.trans hrun
  exact (h.reads (hreads hrun)).reads' (hreads hrun')

/-- From states in step that see certain kinds, two parses come to the same value and
    to states in step that see others. -/
def Paces (e : Excerpt) (languages : LanguageTable) (guard : Guard) (κ : Nat → Kind) (p : Parse α)
    (Q : α → (Nat → Kind) → Prop) : Prop :=
  ∀ s s' t a, Abreast e s s' → s.Sees κ → p (e.first languages guard) s = .ok a t →
    ∃ κ' t', t.Sees κ' ∧ Q a κ' ∧ p (e.second languages guard) s' = .ok a t' ∧ Abreast e t t'

namespace Paces

variable {κ : Nat → Kind} {Q : α → (Nat → Kind) → Prop}

theorem pure {a : α} (h : Q a κ) : Paces e languages guard κ (Pure.pure a) Q := by
  intro s s' t b hstep hs hrun
  cases hrun
  exact ⟨κ, s', hs, h, rfl, hstep⟩

/-- Two parsers in a row keep pace if both do. -/
theorem bind {p : Parse α} {f : α → Parse β} {R : α → (Nat → Kind) → Prop}
    {Q : β → (Nat → Kind) → Prop} (hp : Paces e languages guard κ p R)
    (hf : ∀ a κ', R a κ' → Paces e languages guard κ' (f a) Q) :
    Paces e languages guard κ (p >>= f) Q := by
  intro s s' t b hstep hs hrun
  rw [bind_run] at hrun
  cases hmid : p (e.first languages guard) s with
  | ok a u =>
      rw [hmid] at hrun
      rcases hp s s' u a hstep hs hmid with ⟨κ', u', hu, hR, hmid', hstep'⟩
      rcases hf a κ' hR u u' t b hstep' hu hrun with ⟨κ'', t', ht, hQ, hrun', hstep''⟩
      refine ⟨κ'', t', ht, hQ, ?_, hstep''⟩
      rw [bind_run, hmid']
      exact hrun'
  | error err u =>
      rw [hmid] at hrun
      cases hrun

theorem peek {f : Kind → Parse α} (n : Nat)
    (hbefore : ∀ i < n, κ i ≠ .newline ∧ κ i ≠ .endOfInput)
    (hend : κ n = .endOfInput → f .newline = f .endOfInput)
    (h : Paces e languages guard κ (f (κ n)) Q) :
    Paces e languages guard κ (peekKind n >>= f) Q := by
  intro s s' t b hstep hs hrun
  rw [bind_run, peekKind_run, hs n] at hrun
  rcases h _ _ t b ((hstep.reads ⟨_, rfl⟩).reads' ⟨_, rfl⟩) (hs.reads ⟨_, rfl⟩) hrun with
    ⟨κ', t', ht, hQ, hrun', hstep'⟩
  refine ⟨κ', t', ht, hQ, ?_, hstep'⟩
  rw [bind_run, peekKind_run]
  simp only
  rw [hstep.kind_ahead hs n hbefore hend]
  exact hrun'

theorem peekKind {f : Kind → Parse α} (hend : κ 0 = .endOfInput → f .newline = f .endOfInput)
    (h : Paces e languages guard κ (f (κ 0)) Q) :
    Paces e languages guard κ (Parse.peekKind 0 >>= f) Q :=
  peek 0 (fun _ hi => absurd hi (Nat.not_lt_zero _)) hend h

theorem check {kind : Kind} {Q : Bool → (Nat → Kind) → Prop}
    (hkind : kind ≠ .newline ∧ kind ≠ .endOfInput) (hQ : Q (decide (κ 0 = kind)) κ) :
    Paces e languages guard κ (Parse.check kind) Q := by
  refine peekKind (fun _ => ?_) (pure hQ)
  rw [decide_eq_false (Ne.symm hkind.1), decide_eq_false (Ne.symm hkind.2)]

theorem ite_check {kind : Kind} {p q : Parse α} (hkind : kind ≠ .newline ∧ kind ≠ .endOfInput)
    (ht : κ 0 = kind → Paces e languages guard κ p Q)
    (he : κ 0 ≠ kind → Paces e languages guard κ q Q) :
    Paces e languages guard κ (Parse.check kind >>= fun b => if b = true then p else q) Q := by
  refine bind (check (Q := fun b κ' => b = decide (κ 0 = kind) ∧ κ' = κ) hkind ⟨rfl, rfl⟩) ?_
  rintro _ κ' ⟨rfl, hκ'⟩
  subst hκ'
  by_cases h : κ' 0 = kind
  · simpa only [h, decide_true, if_true] using ht h
  · simpa only [h, decide_false, Bool.false_eq_true, if_false] using he h

theorem taking {p : Parse α} (hκ : κ 0 ≠ .newline ∧ κ 0 ≠ .endOfInput)
    (h : Paces e languages guard (fun i => κ (i + 1)) p Q) :
    Paces e languages guard κ (consume >>= fun _ => p) Q := by
  intro s s' t b hstep hs hrun
  rw [bind_run, consume_run] at hrun
  rcases hstep.take (by rw [hs.token]; exact hκ) with ⟨_, hstep'⟩
  rcases h _ _ t b hstep' (hs.advanced hκ.2) hrun with ⟨κ', t', ht, hQ, hrun', hstep''⟩
  refine ⟨κ', t', ht, hQ, ?_, hstep''⟩
  rw [bind_run, consume_run]
  exact hrun'

/-- A loop with an invariant keeps pace. The second text is the longer one, so its loop has
    rounds enough for as long as the first one goes on. -/
theorem loop {a : α} {f : α → Parse (α ⊕ β)} {I : α → (Nat → Kind) → Prop}
    {Q : β → (Nat → Kind) → Prop} (ha : I a κ)
    (hf : ∀ a κ, I a κ → Paces e languages guard κ (f a) fun r κ' =>
      Sum.elim (fun a => I a κ') (fun b => Q b κ') r) :
    Paces e languages guard κ (loop a f) Q := by
  -- By induction on the rounds of the first loop. The second has no fewer, its text being longer.
  have hrounds : ∀ n n' a κ s s' t b, n ≤ n' → I a κ → Abreast e s s' → s.Sees κ →
      iterate f n a (e.first languages guard) s = .ok b t →
      ∃ κ' t', t.Sees κ' ∧ Q b κ' ∧ iterate f n' a (e.second languages guard) s' = .ok b t' ∧
        Abreast e t t' := by
    intro n
    induction n with
    | zero => intro n' a κ s s' t b _ _ _ _ hrun; cases hrun
    | succ n ih =>
        intro n' a κ s s' t b hle ha hstep hs hrun
        cases n' with
        | zero => omega
        | succ n' =>
            rw [iterate_succ_run] at hrun ⊢
            cases hmid : f a (e.first languages guard) s with
            | error err u => rw [hmid] at hrun; cases hrun
            | ok r u =>
                rw [hmid] at hrun
                rcases hf a κ ha s s' u r hstep hs hmid with ⟨κ', u', hu, hr, hmid', hstep'⟩
                rw [hmid']
                cases r with
                | inl c => exact ih n' c κ' u u' t b (by omega) hr hstep' hu hrun
                | inr b =>
                    cases hrun
                    exact ⟨κ', u', hu, hr, rfl, hstep'⟩
  intro s s' t b hstep hs hrun
  have hle := e.byteSize_le
  refine hrounds _ _ a κ s s' t b ?_ ha hstep hs hrun
  change e.source.utf8ByteSize + 2 ≤ e.context.utf8ByteSize + 2
  omega

/-- A look-ahead that gives the first parse an answer gives it to the second one too. -/
theorem lookahead {p : Parse α} (h : Paces e languages guard κ p Q) {s s' t : State} {a : α}
    (hstep : Abreast e s s') (hs : s.Sees κ)
    (hrun : Parse.lookahead p (e.first languages guard) s = .ok a t) :
    ∃ t', Parse.lookahead p (e.second languages guard) s' = .ok a t' := by
  rw [lookahead_run] at hrun
  split at hrun
  · rename_i b u hmid
    cases hrun
    rcases h s s' u a hstep hs hmid with ⟨_, u', _, _, hmid', _⟩
    exact ⟨_, by rw [lookahead_run, hmid']⟩
  · cases hrun

end Paces

/-! ### Look-aheads that stop at a line end -/

variable {κ : Nat → Kind} {s s' t : State} {b : Bool}

/-- The look-ahead for a call at the end of a dotted chain keeps pace. -/
theorem paces_chainEndsInCall (hκ : (κ 0).shape = .piece) :
    Paces e languages guard κ (consume >>= fun _ => loop () fun _ => do
      if ← memberAhead then
        let _ ← consume
        let _ ← consume
        return .inl ()
      else return .inr (← check .leftParen)) fun _ _ => True := by
  refine .taking (Kind.ne_of_piece hκ) (.loop (I := fun _ _ => True) trivial fun _ κ₁ _ => ?_)
  -- Looking two tokens ahead consumes neither.
  have hmember : Paces e languages guard κ₁ memberAhead fun b κ' => κ' = κ₁ ∧
      (b = true → κ₁ 0 = .dot ∧ isMemberName (κ₁ 1) = true) := by
    refine .ite_check (by decide) (fun hdot => ?_) fun _ => .pure ⟨rfl, fun h => by cases h⟩
    refine .peek 1 (fun i hi => ?_) (fun _ => rfl) (.pure ⟨rfl, fun h => ⟨hdot, h⟩⟩)
    rw [Nat.lt_one_iff.1 hi, hdot]
    decide
  refine hmember.bind ?_
  rintro member _ ⟨rfl, hmember⟩
  cases member with
  | true =>
      rcases hmember rfl with ⟨hdot, hname⟩
      have hpiece := shape_of_memberName hname
      exact .taking (by rw [hdot]; decide) (.taking (Kind.ne_of_piece hpiece) (.pure trivial))
  | false =>
      refine .bind (.check (Q := fun _ _ => True) (by decide) trivial) fun _ _ _ => .pure trivial

/-- The look-ahead for `in` behind names and commas keeps pace. -/
theorem paces_forInAhead (hκ : κ 0 = .kwFor) :
    Paces e languages guard κ (consume >>= fun _ => loop () fun _ => do
      let kind ← peekKind 0
      if kind = .identifier || kind = .underscore then
        let _ ← consume
        match ← peekKind 0 with
        | .comma =>
          let _ ← consume
          return .inl ()
        | .kwIn => return .inr true
        | _ => return .inr false
      else return .inr false) fun (_ : Bool) _ => True := by
  refine .taking (by rw [hκ]; decide) (.loop (I := fun _ _ => True) trivial fun _ κ₁ _ => ?_)
  refine .peekKind (fun _ => rfl) ?_
  -- A name is taken and what stands behind it decides; anything else ends the search.
  by_cases hname : (decide (κ₁ 0 = .identifier) || decide (κ₁ 0 = .underscore)) = true
  · have hname' : κ₁ 0 = .identifier ∨ κ₁ 0 = .underscore := by simpa using hname
    simp only [hname, if_true]
    refine .taking (by rcases hname' with h | h <;> rw [h] <;> decide)
      (.peekKind (fun _ => rfl) ?_)
    split
    · rename_i hcomma
      exact .taking (by rw [hcomma]; decide) (.pure trivial)
    · exact .pure trivial
    · exact .pure trivial
  · simp only [hname]
    exact .pure trivial

/-- The look-ahead for a brace behind captures keeps pace. -/
theorem paces_capturesThenBrace (hκ : (κ 0).shape = .piece) :
    Paces e languages guard κ (consume >>= fun _ => do
      if ← check .leftParen then
        let _ ← consume
        loop () fun _ => do
          let kind ← peekKind 0
          if kind = .identifier || kind = .comma then
            let _ ← consume
            return .inl ()
          else return .inr ()
        if ← check .rightParen then
          let _ ← consume
          check .leftBrace
        else return false
      else check .leftBrace) fun _ _ => True := by
  refine .taking (Kind.ne_of_piece hκ) (.ite_check (by decide) (fun hparen => ?_) fun _ =>
    .check (by decide) trivial)
  refine .taking (by rw [hparen]; decide) (.bind (R := fun _ _ => True) ?_ fun _ κ₁ _ => ?_)
  -- Names and commas are passed over, however many there are.
  · refine .loop (I := fun _ _ => True) trivial fun _ κ₁ _ => .peekKind (fun _ => rfl) ?_
    by_cases hname : (decide (κ₁ 0 = .identifier) || decide (κ₁ 0 = .comma)) = true
    · have hname' : κ₁ 0 = .identifier ∨ κ₁ 0 = .comma := by simpa using hname
      simp only [hname, if_true]
      exact .taking (by rcases hname' with h | h <;> rw [h] <;> decide) (.pure trivial)
    · simp only [hname]
      exact .pure trivial
  · exact .ite_check (by decide)
      (fun hparen => .taking (by rw [hparen]; decide) (.check (by decide) trivial))
      fun _ => .pure trivial

/-! ### Looking for an assignment -/

/-- A look at a token counts the brackets that are open. -/
theorem depth_glance {isRelaxed : Bool} {depth next : Nat} {kind : Kind}
    (h : glance isRelaxed depth kind = .deeper next) : (next : Int) = depth + kind.weight := by
  cases kind <;> simp only [glance] at h <;> try split at h
  all_goals cases h
  all_goals simp only [Kind.weight, Kind.shape]
  all_goals omega

/-- One step of the search for an assignment sign looks at one token, and takes it only to go
    on. -/
theorem seekAssignment_run (isRelaxed : Bool) (depth : Nat) (env : Env) (s : State) :
    seekAssignment isRelaxed depth env s =
      match glance isRelaxed depth s.token.kind with
      | .found => .ok (.inr true) s.filled
      | .absent => .ok (.inr false) s.filled
      | .deeper next => .ok (.inl next) s.advanced := by
  unfold seekAssignment
  rw [bind_run, peekKind_run]
  change (match glance isRelaxed depth s.token.kind with
    | .found => pure (.inr true)
    | .absent => pure (.inr false)
    | .deeper next => consume >>= fun _ => pure (.inl next) : Parse (Nat ⊕ Bool)) env s.filled = _
  rw [← s.advanced_filled]
  generalize glance isRelaxed depth s.token.kind = look
  cases look <;> rfl

/-- The brackets that are open, and those that a look-ahead has passed, are closed by
    what is foretold. So a text that is over is over outside brackets. -/
theorem iterate_seekAssignment {w v : Lexer.Forecast} {lx : Lexer} {k : Int} (n n' : Nat)
    {depth : Nat} (hle : n ≤ n') (hstep : Abreast e s s') (hs : s.Sound e.source)
    (hfacing : s.Facing w e.source lx v k) (hopen : depth + k ≤ 0) {isRelaxed : Bool}
    (hrun : iterate (seekAssignment isRelaxed) n depth (e.first languages guard) s = .ok b t) :
    ∃ t', iterate (seekAssignment isRelaxed) n' depth (e.second languages guard) s' = .ok b t' := by
  -- By induction on the budget of the first search.
  induction n generalizing n' depth s s' lx k with
  | zero => cases hrun
  | succ n ih =>
      obtain ⟨n', rfl⟩ : ∃ m, n' = m + 1 := ⟨n' - 1, by omega⟩
      rw [iterate_succ_run, seekAssignment_run] at hrun ⊢
      by_cases hend : s.token.kind = .endOfInput
      · have hdepth : depth = 0 := by have := (hfacing.atEnd hs hend).1; omega
        subst hdepth
        rw [hend] at hrun
        cases hrun
        have hkind : s'.token.kind = .endOfInput ∨ s'.token.kind = .newline := by
          rcases hstep.atEnd hend with ⟨-, htoken⟩ | ⟨hkind, -⟩
          · exact .inl (by rw [htoken, Token.shift_kind, hend])
          · exact .inr hkind
        rcases hkind with hkind | hkind <;> rw [hkind] <;> exact ⟨_, rfl⟩
      · have htoken : s'.token.kind = s.token.kind := by
          by_cases hline : s.token.kind = .newline
          · rw [(hstep.newline hline).1, Token.shift_kind]
          · rw [(hstep.take ⟨hline, hend⟩).1, Token.shift_kind]
        rw [htoken]
        cases hglance : glance isRelaxed depth s.token.kind with
        | found =>
            rw [hglance] at hrun
            cases hrun
            exact ⟨_, rfl⟩
        | absent =>
            rw [hglance] at hrun
            cases hrun
            exact ⟨_, rfl⟩
        | deeper next =>
            rw [hglance] at hrun
            have hdepth := depth_glance hglance
            rcases hfacing.advanced hs hend with ⟨lx', -, hfacing'⟩
            have hstep' : Abreast e s.advanced s'.advanced := by
              by_cases hline : s.token.kind = .newline
              · refine (hstep.newline hline).2.1 (.inl fun hover => ?_)
                have hk := (hfacing'.atEnd hs.advanced hover).1
                rw [hline] at hglance hdepth hk
                have hweight : Kind.weight .newline = 0 := rfl
                have hzero : depth = 0 := by omega
                rw [hzero] at hglance
                cases hglance
              · exact (hstep.take ⟨hline, hend⟩).2
            exact ih n' (by omega) hstep' hs.advanced hfacing' (by omega) hrun

/-! ### Looking at the next line -/

/-- Newlines do not follow each other, so at most one is passed over. -/
theorem nextAfterNewlinesIs_run (kind : Kind) (env : Env) (hs : s.Sees κ)
    (honce : κ 0 = .newline → κ 1 ≠ .newline) :
    ∃ t, nextAfterNewlinesIs kind env s =
      .ok (decide ((if κ 0 = .newline then κ 1 else κ 0) = kind)) t := by
  -- A round looks at one token, and says whether it was a newline.
  have hround : ∀ n u, u.Sees κ → (peekKind n >>= fun next =>
      if next = .newline then pure (.inl (n + 1)) else pure (.inr (decide (next = kind))) :
        Parse (Nat ⊕ Bool)) env u =
      .ok (if κ n = .newline then .inl (n + 1) else .inr (decide (κ n = kind)))
        { u with buffer := u.buffer.fill (u.cursor + n) } := by
    intro n u hu
    rw [bind_run, peekKind_run, hu n]
    simp only
    split <;> rfl
  unfold nextAfterNewlinesIs
  rw [loop_run, iterate_succ_run, hround 0 s hs]
  by_cases hline : κ 0 = .newline
  · simp only [hline, if_true]
    have hfilled : State.Sees { s with buffer := s.buffer.fill (s.cursor + 0) } κ :=
      hs.reads ⟨_, rfl⟩
    rw [iterate_succ_run, hround (0 + 1) _ hfilled]
    simp only [Nat.zero_add, if_neg (honce hline)]
    exact ⟨_, rfl⟩
  · simp only [hline, if_false]
    exact ⟨_, rfl⟩

/-- What comes next once newlines are passed over, if it continues a statement, is found
    by both parses or by none. -/
theorem nextAfterNewlinesIs_second {kind : Kind} (hkind : kind = .pipe ∨ kind = .kwElse)
    (hstep : Abreast e s s') (hs : s.Sees κ) (hmode : s.buffer.lexer.sizeMode = false)
    (hrun : nextAfterNewlinesIs kind (e.first languages guard) s = .ok b t) :
    ∃ t', nextAfterNewlinesIs kind (e.second languages guard) s' = .ok b t' := by
  rcases hstep with ⟨lx, mx, hpaired⟩
  have hstep : Abreast e s s' := ⟨lx, mx, hpaired⟩
  have honce : κ 0 = .newline → κ 1 ≠ .newline := fun hline hnext => by
    refine hpaired.first.newline_once hpaired.sound (by rw [hs.token, hline]) ?_
    rw [(hs.advanced (by rw [hline]; decide)).token, hnext]
  have hs' := s'.sees
  generalize (fun n => (s'.buffer.tokenAt (s'.cursor + n)).kind) = κ' at hs'
  have honce' : κ' 0 = .newline → κ' 1 ≠ .newline := fun hline hnext => by
    refine hpaired.second.newline_once hpaired.sound' (by rw [hs'.token, hline]) ?_
    rw [(hs'.advanced (by rw [hline]; decide)).token, hnext]
  rcases nextAfterNewlinesIs_run kind (e.first languages guard) hs honce with ⟨u, hu⟩
  cases hu.symm.trans hrun
  rcases nextAfterNewlinesIs_run kind (e.second languages guard) hs' honce' with ⟨u', hu'⟩
  refine ⟨u', ?_⟩
  rw [hu']
  congr 1
  -- The second parse may find a newline where the first text is over, and the line behind.
  have hbeyond : κ' 0 = .newline → Beyond e s'.advanced →
      (if κ' 0 = .newline then κ' 1 else κ' 0) ≠ kind := by
    intro hline hbeyond
    rw [if_pos hline]
    have htoken := hbeyond.token (by
      change (s'.buffer.readMore _).lexer.sizeMode = false
      rw [TokenBuffer.sizeMode_readMore, hstep.mode, hmode])
    rw [(hs'.advanced (by rw [hline]; decide)).token] at htoken
    rcases hkind with rfl | rfl
    · exact htoken.2.1
    · exact htoken.2.2
  have hkind_end : Kind.endOfInput ≠ kind := by rcases hkind with rfl | rfl <;> decide
  by_cases hend : κ 0 = .endOfInput
  · have hnot : Kind.endOfInput ≠ .newline := by decide
    rw [hend, if_neg hnot, decide_eq_false hkind_end]
    rcases hstep.atEnd (by rw [hs.token, hend]) with ⟨-, htoken⟩ | ⟨hline, hbehind⟩
    · have hend' : κ' 0 = .endOfInput := by
        rw [← hs'.token, htoken, Token.shift_kind, hs.token, hend]
      rw [hend', if_neg hnot, decide_eq_false hkind_end]
    · exact decide_eq_false (hbeyond (by rw [← hs'.token, hline]) hbehind)
  · by_cases hline : κ 0 = .newline
    · rcases hstep.newline (by rw [hs.token, hline]) with ⟨htoken, hmore, hlast⟩
      have hline' : κ' 0 = .newline := by
        rw [← hs'.token, htoken, Token.shift_kind, hs.token, hline]
      have hnext := (hs.advanced (by rw [hline]; decide)).token
      have hnext' := (hs'.advanced (by rw [hline']; decide)).token
      by_cases hover : κ 1 = .endOfInput ∧ e.tail ≠ []
      · rw [if_pos hline, hover.1, decide_eq_false hkind_end]
        exact decide_eq_false (hbeyond hline' (hlast (by rw [hnext, hover.1]) hover.2))
      · rw [if_pos hline, if_pos hline']
        have hstep' := hmore (by
          rw [hnext]
          by_cases h : κ 1 = .endOfInput
          · exact .inr (by_contra fun htail => hover ⟨h, htail⟩)
          · exact .inl h)
        have hsecond : κ' 1 = κ 1 := by
          by_cases h : κ 1 = .endOfInput
          · rcases hstep'.atEnd (by rw [hnext, h]) with ⟨-, htoken'⟩ | ⟨hline'', -⟩
            · rw [← hnext', htoken', Token.shift_kind, hnext]
            · exact absurd (hnext'.symm.trans hline'') (honce' hline')
          · rw [← hnext', (hstep'.take (by rw [hnext]; exact ⟨honce hline, h⟩)).1,
              Token.shift_kind, hnext]
        rw [hsecond]
    · have htoken := (hstep.take (by rw [hs.token]; exact ⟨hline, hend⟩)).1
      have hsame : κ' 0 = κ 0 := by rw [← hs'.token, htoken, Token.shift_kind, hs.token]
      rw [hsame, if_neg hline, if_neg hline]

/-! ### All of them -/

/-- The look-aheads of unbounded length give the same answer to both parses. -/
theorem Survey.follows {γ : View} {p : Parse Bool} {V : Bool → Prop} {w v : Lexer.Forecast}
    {lx : Lexer} {n : Int} (h : Survey γ.stage κ p V) (hstep : Abreast e s s') (hs : s.Sees κ)
    (hsound : s.Sound e.source) (hforeseen : Foreseen w e.source 0 γ s lx v n)
    (hrun : p (e.first languages guard) s = .ok b t) :
    ∃ t', p (e.second languages guard) s' = .ok b t' ∧ Abreast e t t' := by
  -- A look-ahead changes nothing but the tokens read, so only its answer is in question.
  suffices hanswer : ∃ t', p (e.second languages guard) s' = .ok b t' by
    rcases hanswer with ⟨t', hrun'⟩
    exact ⟨t', hrun', hstep.scans h.scans hrun hrun'⟩
  cases h with
  | call hκ => exact (paces_chainEndsInCall hκ).lookahead hstep hs hrun
  | captures hκ => exact (paces_capturesThenBrace hκ).lookahead hstep hs hrun
  | forIn hκ => exact (paces_forInAhead hκ).lookahead hstep hs hrun
  -- This search stops at the end of the text, so it needs to know that it stays within the
  -- brackets.
  | assignment =>
      rw [assignmentAhead_run, lookahead_run] at hrun ⊢
      have hrelaxed : s'.isRelaxed = s.isRelaxed := by
        rcases hstep with ⟨_, _, hpaired⟩
        exact hpaired.relaxed
      rw [hrelaxed]
      split at hrun
      · rename_i answer u hloop
        cases hrun
        have hle := e.byteSize_le
        have hbalance := hforeseen.balance
        rcases iterate_seekAssignment (e.source.utf8ByteSize + 2) (e.context.utf8ByteSize + 2)
          (by omega) hstep hsound hforeseen.toFacing (by omega) hloop with ⟨u', hloop'⟩
        exact ⟨_, by
          rw [loop_run, show (e.second languages guard).source = e.context from rfl, hloop']⟩
      · cases hrun
  -- Newlines are passed over, which is where the longer text might differ.
  | newlines hstage hkind =>
      refine nextAfterNewlinesIs_second hkind hstep hs ?_ hrun
      rw [hforeseen.stands.mode, hforeseen.plain (by rw [hstage]; decide)]

end Parse

end PolyScript
