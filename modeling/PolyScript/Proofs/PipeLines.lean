import PolyScript.Proofs.ElseBlocks
import PolyScript.Proofs.SingleLineConditionals

/-!
# Pipes on a Line

A line may be made of expressions with pipe operators between them. Each of them is parsed in
the line as it is parsed alone, since no expression goes on at a pipe operator. So the rule
for pipes makes of the line the pipe that is made of what the texts are by themselves.

The look-ahead for an assignment goes through all of the line. No expression has an
assignment sign outside of brackets, so it does not find one. To see this there is no need to
look into the texts: a parser that has gone through an expression has taken the look-ahead
along, and from behind the expression it sees what it has seen from before.

## Main definitions

* `pipeLine`: Texts with pipe operators between them.
* `Parse.State.Fronts`: A state, and a lexer, in front of what is left of a line.

## Theorems

* `Parse.over_of_expression`: A text is over where the expression is.
* `Parse.State.Fronts.expression`: An expression on a line.
* `Parse.State.Fronts.pipeExpression`: A line of expressions.
-/

namespace PolyScript

/-- Texts with pipe operators between them, on one line. -/
def pipeLine (first : String) : List String → String
  | [] => first
  | second :: rest => first ++ " |> " ++ pipeLine second rest

/-- What stands behind the first text of such a line. -/
def pipeTail : List String → List Char
  | [] => []
  | text :: rest => ' ' :: '|' :: '>' :: ' ' :: (text.toList ++ pipeTail rest)

theorem toList_pipeLine (first : String) (rest : List String) :
    (pipeLine first rest).toList = first.toList ++ pipeTail rest := by
  induction rest generalizing first with
  | nil => simp [pipeLine, pipeTail]
  | cons second rest ih =>
      have hsign : " |> ".toList = [' ', '|', '>', ' '] := rfl
      simp only [pipeLine, pipeTail, String.toList_append, ih, hsign, List.append_assoc,
        List.cons_append, List.nil_append]

theorem byteSize_pipeLine (first : String) (rest : List String) :
    (pipeLine first rest).utf8ByteSize =
      first.utf8ByteSize + (rest.map fun text => 4 + text.utf8ByteSize).sum := by
  induction rest generalizing first with
  | nil => simp [pipeLine]
  | cons second rest ih =>
      have hsign : " |> ".utf8ByteSize = 4 := by decide
      simp only [pipeLine, String.utf8ByteSize_append, ih, hsign, List.map_cons, List.sum_cons]
      omega

namespace Parse

open Lexer

variable {s t : State} {lx mx : Lexer} {line : String} {rest rest' : List Char}

/-! ### In front of a part of a line -/

/-- A state stands where a lexer does, in front of what is left of a line. It is outside of
    loops, and terminators are enforced. -/
structure State.Fronts (line : String) (rest : List Char) (s : State) (lx : Lexer) : Prop where
  stands : s.At lx
  within : lx.Within line
  mode : lx.sizeMode = false
  rest : Text.dropBlank lx.cursor.rest = Text.dropBlank rest
  sound : s.Sound line
  loopDepth : s.loopDepth = 0
  isRelaxed : s.isRelaxed = false

namespace State.Fronts

theorem initial (line : String) :
    (State.initial line).Fronts line line.toList (Lexer.ofSource line) where
  stands := State.at_initial line
  within := ⟨rfl, [], rfl, rfl⟩
  mode := rfl
  rest := rfl
  sound := State.sound_initial line
  loopDepth := rfl
  isRelaxed := rfl

theorem reads (h : s.Fronts line rest lx) (hs : s.Reads t) : t.Fronts line rest lx := by
  refine { h with stands := h.stands.reads h.sound hs, sound := h.sound.reads hs,
                  loopDepth := ?_, isRelaxed := ?_ }
  · rcases hs with ⟨_, rfl⟩
    exact h.loopDepth
  · rcases hs with ⟨_, rfl⟩
    exact h.isRelaxed

theorem filled (h : s.Fronts line rest lx) : s.filled.Fronts line rest lx := h.reads s.reads_filled

theorem atDepth (h : s.Fronts line rest lx) (depth : Nat) : (s.atDepth depth).Fronts line rest lx :=
  { h with stands := h.stands.withFrame depth s.loopDepth s.isRelaxed
           sound := ⟨h.sound.buffer, h.sound.cursor_le, h.sound.cursor_lt⟩ }

theorem behind_space (h : s.Fronts line (' ' :: rest) lx) : s.Fronts line rest lx :=
  { h with rest := h.rest.trans (dropBlank_space rest) }

/-- Taking what the line goes on with. -/
theorem next {kind : Kind} (h : s.Fronts line rest lx) (hleads : Leads rest kind rest')
    (hkind : kind ≠ .endOfInput) :
    s.token.kind = kind ∧ ∃ lx', s.advanced.Fronts line rest' lx' ∧
      ∀ b, glance false 0 kind = .deeper 0 → lx'.Sights false 0 b → lx.Sights false 0 b := by
  rcases hleads.next h.mode ((tokenStart_rest lx).trans h.rest) with
    ⟨t, lx', hnext, ht, hmode', hafter⟩
  have hend : t.isEnd = false := by
    rw [Token.isEnd, ht]
    exact decide_eq_false hkind
  refine ⟨h.stands.token_ok h.sound hnext ▸ ht, lx', ?_, fun b hglance hsees => ?_⟩
  · exact {
      stands := h.stands.advanced h.sound hnext hend
      within := h.within.next_ok hnext
      mode := hmode'
      rest := congrArg Text.dropBlank hafter
      sound := h.sound.advanced
      loopDepth := h.loopDepth
      isRelaxed := h.isRelaxed }
  · exact .behind hnext hend (by rw [ht]; exact hglance) hsees

/-- At the end of the line nothing is left, and nothing was wrong. -/
theorem closed (h : s.Fronts line [] lx) : s.token.kind = .endOfInput ∧
    s.filled.buffer.lexError? = none ∧ lx.Sights false 0 false := by
  rcases leads_end.next h.mode ((tokenStart_rest lx).trans h.rest) with ⟨t, lx', hnext, ht, -, -⟩
  have hend : t.isEnd = true := decide_eq_true ht
  have hplain : lx.plain.next = (.ok t, lx') := by
    rw [Lexer.plain, ← h.mode]
    exact hnext
  exact ⟨h.stands.token_ok h.sound hnext ▸ ht, h.stands.clean_end h.sound hnext hend,
    [], none, .done hplain hend, rfl⟩

end State.Fronts

/-! ### Expressions -/

section

variable {registry : Registry} (hbuiltin : registry.IsBuiltin) {guard : Guard}
  (hguard : guard.enabled = false) {text : String} {n n' : Nat} {e : Expr}

include hbuiltin hguard

/-- A text on one line that is an expression is over where the expression is. -/
theorem over_of_expression (hline : Text.IsLine text)
    (hrun : run (wholeText (Grammar.level registry n).expression) (defaultEnv guard text) =
      .ok e) :
    ∃ v, (Grammar.level registry n).expression (defaultEnv guard text)
        (State.initial text).filled = .ok e v ∧
      v.token.kind = .endOfInput ∧ v.filled.buffer.lexError? = none := by
  -- A colon behind the text shows that there are no separators in it.
  let P : Passage := passageOn hguard text (text ++ ":") (parts_cons (by decide) : Parts [':'])
    (leads_colon []) rfl (by rw [String.utf8ByteSize_append]; exact Nat.le_add_right _ _)
  have htail : P.tail ≠ [] := List.cons_ne_nil _ _
  have hbefore : (State.initial (text ++ ":")).Before P.whole.source
      (P.alone.source.toList ++ P.tail) := by
    have hinitial := State.Before.initial (text ++ ":")
    rwa [String.toList_append] at hinitial
  rcases hbefore.alongside hline.online
    (fun _ => ⟨hline.unbroken, tidy_of_expression hbuiltin rfl hrun⟩) nofun with ⟨mx, halong⟩
  have hpair : Tandem P (.blank true) 0 (State.initial text) (State.initial (text ++ ":")) :=
    ⟨_, _, halong⟩
  rcases ok_of_run hrun with ⟨t, hwhole, hclean⟩
  rcases wholeText_ok hwhole with ⟨u, v, w, hskip, hexpression, hskip', hend, rfl⟩
  rw [(skips_of_skipSeparators hskip).eq_filled (hpair.not_separator htail)] at hexpression
  rcases (Grammar.echoesExpressions_level hbuiltin (Nat.le_refl n)).expression (.blank true) _ 0 _ _
    e v (hpair.reads (State.reads_filled _) (State.Reads.refl _)) (State.sees _) hexpression with
    ⟨hfalse, -⟩ | ⟨_, t', _, -, hfinish, -, -⟩
  · exact hfalse.elim
  have hw := (skips_of_skipSeparators hskip').eq_filled (hfinish.not_separator htail)
  subst hw
  rw [State.token_filled] at hend
  rw [State.filled_filled] at hclean
  exact ⟨v, hexpression, hend, hclean⟩

omit hbuiltin in
/-- A text by itself, and the line that it stands on. What the look-ahead sees from in front of
    the text is taken along. -/
theorem State.Fronts.alongside {tail behind : List Char} {stop : Kind}
    (h : s.Fronts line (text.toList ++ tail) mx) (hline : Text.IsLine text) (htidy : Tidy text)
    (hparts : Parts tail) (hleads : Leads tail stop behind) (hstop : stop.isStop = true)
    (helse : stop ≠ .kwElse) (hle : text.utf8ByteSize ≤ line.utf8ByteSize) :
    Alongside (passageOn hguard text line hparts hleads hstop hle)
      ⟨fun isRelaxed => mx.Sights isRelaxed 0, true⟩ 0 (State.initial text).filled s
      (Lexer.ofSource text) mx where
  first := (State.at_initial text).reads (State.sound_initial text) (State.reads_filled _)
  second := h.stands
  sound := (State.sound_initial text).filled
  sound' := h.sound
  within := ⟨rfl, [], rfl, rfl⟩
  within' := h.within
  copies := copies_of_cursor hparts h.mode hline.online (fun _ => hline.unbroken) h.rest
  tidy := fun _ => ⟨0, .clear htidy⟩
  loopDepth := h.loopDepth
  relaxed := ⟨nofun, fun hkind => absurd hkind helse⟩
  sees := fun _ _ hb => hb
  plain := fun _ => rfl

/-- An expression on a line, with a pipe operator or nothing behind it. From its end the same
    is seen as from its beginning. -/
theorem State.Fronts.expression {tail behind : List Char} {stop : Kind}
    (h : s.Fronts line (text.toList ++ tail) mx) (hline : Text.IsLine text)
    (hparts : Parts tail) (hleads : Leads tail stop behind)
    (hstop : stop = .pipe ∨ stop = .endOfInput)
    (hle : text.utf8ByteSize ≤ line.utf8ByteSize) (hlevels : n ≤ n')
    (hrun : run (wholeText (Grammar.level registry n).expression) (defaultEnv guard text) =
      .ok e) :
    s.token.kind ≠ .newline ∧ ∃ e' t ox,
      (Grammar.level registry n').expression (defaultEnv guard line) s = .ok e' t ∧
      e'.skeleton true = e.skeleton true ∧ t.Fronts line tail ox ∧
        ∀ b, ox.Sights false 0 b → mx.Sights false 0 b := by
  have hisStop : stop.isStop = true := by rcases hstop with rfl | rfl <;> rfl
  have helse : stop ≠ .kwElse := by rcases hstop with rfl | rfl <;> decide
  rcases over_of_expression hbuiltin hguard hline hrun with ⟨v, hexpression, hend, hclean⟩
  -- The outlook is chosen so that what is seen from the end is seen from the beginning, too.
  let ν : Outlook := ⟨fun isRelaxed => mx.Sights isRelaxed 0, true⟩
  have halong := h.alongside hguard hline (tidy_of_expression hbuiltin rfl hrun) hparts hleads
    hisStop helse hle
  rcases (Grammar.echoesExpressions_level hbuiltin hlevels).expression ν _ 0 _ s e v
    ⟨_, _, halong⟩ (State.sees _) hexpression with
    ⟨hfalse, -⟩ | ⟨e', t, _, hexpression', ⟨nx, ox, hfinish⟩, -, htwin⟩
  · exact hfalse.elim
  have hkept : s.Kept t := (Grammar.made_level hbuiltin n').expression.kept_ok hexpression'
  -- Alone the text is over where the expression ends, so on the line `tail` is what is left.
  refine ⟨(Tandem.ne_newline ⟨_, _, halong⟩).2, e', t, ox, hexpression', htwin, ?_,
    fun b => hfinish.sees false b⟩
  exact {
    stands := hfinish.second
    within := hfinish.within'
    mode := by rw [hfinish.copies.mode, hfinish.plain rfl]
    rest := by
      rcases hfinish.next with
        ⟨_, _, _, -, -, -, hne, -⟩ | ⟨-, -, ⟨u, _, _, _, hnext, -⟩ | ⟨_, _, hfail⟩⟩
      · exact absurd hend hne
      · rw [← tokenStart_rest]
        exact hfinish.copies.next_end hnext (hfinish.first.token_ok hfinish.sound hnext ▸ hend)
      · rcases (hfinish.first.token_error hfinish.sound hfail).2 with ⟨i, hfailure⟩
        rw [TokenBuffer.lexError?, hfailure] at hclean
        cases hclean
    sound := hfinish.sound'
    loopDepth := hkept.loopDepth.trans h.loopDepth
    isRelaxed := hkept.isRelaxed.trans h.isRelaxed }

end

/-! ### Pipes -/

/-- One round of the rule for pipes: an operator and the stage behind it. -/
def pipeRound (g : Grammar) (acc : List Expr × List Token) :
    Parse (List Expr × List Token ⊕ List Expr × List Token) := do
  if ← nextAfterNewlinesIs .pipe then
    let _ ← skipNewlines
    let operator ← consume
    let _ ← skipNewlines
    let stage ← g.expression
    return .inl (acc.1 ++ [stage], acc.2 ++ [operator])
  else return .inr acc

theorem pipeExpression_eq (g : Grammar) : pipeExpression g = (do
    let first ← g.expression
    let found ← loop ([first], []) (pipeRound g)
    if found.2.isEmpty then return first else return .pipe found.1 found.2 first.position) := rfl

section

variable {g : Grammar} {env : Env} {acc : List Expr × List Token} {e : Expr}

theorem pipeRound_run_stop (hline : s.token.kind ≠ .newline) (hpipe : s.token.kind ≠ .pipe) :
    pipeRound g acc env s = .ok (.inr acc) s.filled := by
  unfold pipeRound
  rw [bind_run, nextAfterNewlinesIs_online _ _ _ hline]
  simp only [hpipe, decide_false, Bool.false_eq_true, if_false]
  rfl

/-- A round at a pipe in front of an expression appends this expression and the token of the
    pipe. -/
theorem pipeRound_run_next (hpipe : s.token.kind = .pipe) (hline : s.advanced.token.kind ≠ .newline)
    (hrun : g.expression env s.advanced.filled = .ok e t) :
    pipeRound g acc env s = .ok (.inl (acc.1 ++ [e], acc.2 ++ [s.token])) t := by
  have hsign : s.token.kind ≠ .newline := by rw [hpipe]; decide
  unfold pipeRound
  rw [bind_run, nextAfterNewlinesIs_online _ _ _ hsign]
  simp only [hpipe, decide_true, if_true]
  rw [bind_run, skipNewlines_run _ _ (by rwa [State.token_filled])]
  simp only [State.filled_filled]
  rw [bind_run, consume_run, State.advanced_filled, State.token_filled]
  simp only
  rw [bind_run, skipNewlines_run _ _ hline]
  simp only
  rw [bind_run, hrun]
  rfl

end

/-- The sign of a pipe, without its place. -/
def pipeSign : Token := ⟨.pipe, "|>", .start, 0⟩

theorem skeleton_pipe (hs : s.Sound line) (hkind : s.token.kind = .pipe) :
    s.token.skeleton = pipeSign := by
  have htext : s.token.text.toList = "|>".toList := hs.token.text_eq hkind (by decide)
  rw [Token.skeleton, hkind, String.toList_inj.1 htext]
  rfl

section

variable {registry : Registry} (hbuiltin : registry.IsBuiltin) {guard : Guard}
  (hguard : guard.enabled = false)

/-- A text on one line that is an expression by itself, and is shorter than the line. -/
structure IsStage (registry : Registry) (guard : Guard) (line text : String) (e : Expr) : Prop where
  online : Text.IsLine text
  shorter : text.utf8ByteSize < line.utf8ByteSize
  parses : run (wholeText (Grammar.level registry (4 * text.utf8ByteSize + 8)).expression)
    (defaultEnv guard text) = .ok e

theorem pipeTail_leads (texts : List String) :
    Parts (pipeTail texts) ∧ ∃ stop behind, (stop = .pipe ∨ stop = .endOfInput) ∧
      Leads (pipeTail texts) stop behind := by
  cases texts with
  | nil => exact ⟨nofun, .endOfInput, [], .inr rfl, leads_end⟩
  | cons text rest => exact ⟨parts_cons (by decide), .pipe, _, .inl rfl, (leads_pipe _).space⟩

include hbuiltin hguard

/-- A stage on a line. -/
theorem State.Fronts.stage {text : String} {e : Expr} {texts : List String}
    (h : s.Fronts line (text.toList ++ pipeTail texts) lx)
    (hstage : IsStage registry guard line text e) :
    s.token.kind ≠ .newline ∧ ∃ e' t ox,
      (Grammar.level registry (4 * line.utf8ByteSize + 7)).expression (defaultEnv guard line) s =
        .ok e' t ∧
      e'.skeleton true = e.skeleton true ∧ t.Fronts line (pipeTail texts) ox ∧
        ∀ b, ox.Sights false 0 b → lx.Sights false 0 b := by
  rcases pipeTail_leads texts with ⟨hparts, stop, behind, hstop, hleads⟩
  have hshorter := hstage.shorter
  exact h.expression hbuiltin hguard hstage.online hparts hleads hstop (Nat.le_of_lt hshorter)
    (by omega) hstage.parses

/-- The rounds of the rule for pipes. Each one takes a pipe and the text behind it, and appends
    the expression that this text is by itself. -/
theorem State.Fronts.stages {texts : List String} {exprs : List Expr}
    (hstages : List.Forall₂ (IsStage registry guard line) texts exprs)
    (h : s.Fronts line (pipeTail texts) lx) {fuel : Nat} (hfuel : texts.length < fuel)
    (acc : List Expr × List Token) :
    ∃ found t ox,
      iterate (pipeRound (Grammar.level registry (4 * line.utf8ByteSize + 7))) fuel acc
        (defaultEnv guard line) s = .ok found t ∧
      skeletonExprs true found.1 = skeletonExprs true (acc.1 ++ exprs) ∧
      found.2.map Token.skeleton =
        acc.2.map Token.skeleton ++ List.replicate texts.length pipeSign ∧
      t.Fronts line [] ox ∧ lx.Sights false 0 false := by
  -- By induction on the texts. Each round takes the pipe and the text behind it.
  induction hstages generalizing s lx fuel acc with
  | nil =>
      obtain ⟨fuel, rfl⟩ : ∃ m, fuel = m + 1 := ⟨fuel - 1, by omega⟩
      rcases h.closed with ⟨hend, -, hsees⟩
      rw [iterate_succ_run, pipeRound_run_stop (by rw [hend]; decide) (by rw [hend]; decide)]
      exact ⟨acc, s.filled, lx, rfl, by rw [List.append_nil], by simp, h.filled, hsees⟩
  | @cons text e texts exprs hstage _ ih =>
      obtain ⟨fuel, rfl⟩ : ∃ m, fuel = m + 1 := ⟨fuel - 1, by omega⟩
      rcases h.next (leads_pipe _).space (by decide) with ⟨hpipe, mx, hbehind, hsees⟩
      rcases hbehind.filled.behind_space.stage hbuiltin hguard hstage with
        ⟨hline, e', t, ox, hrun, he', ht, hsees'⟩
      rw [State.token_filled] at hline
      have hfuel' : texts.length < fuel := by
        rw [List.length_cons] at hfuel
        omega
      rcases ih ht hfuel' (acc.1 ++ [e'], acc.2 ++ [s.token]) with
        ⟨found, u, nx, hrounds, hexprs, hsigns, hu, hahead⟩
      refine ⟨found, u, nx, ?_, ?_, ?_, hu, hsees _ rfl (hsees' _ hahead)⟩
      · rw [iterate_succ_run, pipeRound_run_next hpipe hline hrun]
        exact hrounds
      · rw [hexprs]
        simp only [skeletonExprs_eq, List.map_append, List.map_cons, he', List.append_assoc,
          List.cons_append, List.nil_append]
      · rw [hsigns]
        simp only [List.map_append, List.map_cons, List.map_nil, skeleton_pipe h.sound hpipe,
          List.length_cons, List.replicate_succ, List.append_assoc, List.cons_append,
          List.nil_append]

/-- A line of expressions is a pipe, and no assignment is seen in it. -/
theorem State.Fronts.pipeExpression {first : String} {e : Expr} {texts : List String}
    {exprs : List Expr} (h : s.Fronts line (first.toList ++ pipeTail texts) lx)
    (hfirst : IsStage registry guard line first e)
    (hstages : List.Forall₂ (IsStage registry guard line) texts exprs) (hne : texts ≠ [])
    (hlength : texts.length ≤ line.utf8ByteSize) :
    lx.Sights false 0 false ∧ ∃ (e' : Expr) (es : List Expr) (ops : List Token) (t : State)
      (ox : Lexer),
      pipeExpression (Grammar.level registry (4 * line.utf8ByteSize + 7)) (defaultEnv guard line)
        s = .ok (.pipe es ops e'.position) t ∧
      skeletonExprs true es = skeletonExprs true (e :: exprs) ∧
      ops.map Token.skeleton = List.replicate texts.length pipeSign ∧ t.Fronts line [] ox := by
  rcases h.stage hbuiltin hguard hfirst with ⟨-, e', t, ox, hrun, he', ht, hsees⟩
  have hfuel : texts.length < (defaultEnv guard line).source.utf8ByteSize + 2 :=
    Nat.lt_succ_of_le (Nat.le_succ_of_le hlength)
  rcases ht.stages hbuiltin hguard hstages hfuel ([e'], []) with
    ⟨⟨es, ops⟩, u, nx, hrounds, hexprs, hsigns, hu, hahead⟩
  -- There is a text behind the first one, so the result is a pipe.
  have hsome : ops.isEmpty = false := by
    have hcount := congrArg List.length hsigns
    simp only [List.length_map, List.map_nil, List.nil_append, List.length_replicate] at hcount
    cases ops with
    | nil => exact absurd (List.length_eq_zero_iff.1 hcount.symm) hne
    | cons => rfl
  refine ⟨hsees _ hahead, e', es, ops, u, nx, ?_, ?_, hsigns, hu⟩
  · rw [pipeExpression_eq, bind_run, hrun]
    simp only
    rw [bind_run, loop_run, hrounds]
    simp only [hsome, Bool.false_eq_true, if_false]
    rfl
  · rw [hexprs]
    simp only [skeletonExprs_eq, List.map_cons, he', List.cons_append, List.nil_append]

end

end Parse

end PolyScript
