import PolyScript.Parser
import PolyScript.Proofs.PrintedExpressions
import PolyScript.Proofs.WordsAhead

/-!
# Printed Expressions Are Read Back

The words of an expression are parsed into the same expression again, at other places.

The parser climbs through the precedences of the operators, and it extends what it has by
suffixes, so where an expression is read depends on how tightly it binds. There are four
places: where any expression may stand, where a chain of operators begins, where an
operand stands, and where suffixes may follow. In the second and the last of them the
parser goes on in a loop, so all that can be said of the expression is that it is the
first part of what is read (`Parse.ReadsChain`, `Parse.ReadsSuffixed`). What is read in
a later place is read in the earlier ones too, provided that the words behind it stop
them. One case for each construct then carries the induction on the shape.

Guest languages come in at one point only. A plain name is never taken for a language, and
a dotted chain behind it is searched for a call before it counts as field access.

## Main definitions

* `SameSkeleton`: The same tree, apart from positions.
* `Parse.Stops`, `Parse.NoCall`: Words at which an expression is over.
* `Parse.ReadsBack`: An expression is read wherever its shape allows it to stand.

## Theorems

* `Parse.readsBack`: Every expression in shape is.
* `printed_expressions_read_back`: Both printed texts are parsed into the expression.
-/

namespace PolyScript

/-- The same tree, apart from positions. -/
def SameSkeleton (e : Expr) (a : Expr) : Prop := a.skeleton true = e.skeleton true

namespace Parse

variable {env : Env} {depth : Nat} {ws us rest : List Word} {w v : Word} {g : Grammar}
  {r : Nat} {e : Expr}

/-! ### Literals -/

/-- A literal and the word that it is read from. -/
inductive LiteralWord : Expr → Word → Prop
  | number {value : Number} {raw : String} {p : Position} : Number.ofText? raw = some value →
    LiteralWord (.number value raw p) (.verbatim .number raw)
  | string {value raw : String} {p : Position} :
    LiteralWord (.string value raw p) ⟨.string, value, raw.toList⟩
  | true {p : Position} : LiteralWord (.boolean true p) (.verbatim .kwTrue "true")
  | false {p : Position} : LiteralWord (.boolean false p) (.verbatim .kwFalse "false")
  | nil {p : Position} : LiteralWord (.nil p) (.verbatim .kwNil "nil")

theorem LiteralWord.proper (h : LiteralWord e w) : w.kind ≠ .endOfInput := by
  cases h
  all_goals exact of_decide_eq_true rfl

/-- A literal is made of its token and, for a string, of the slice that the token covers. -/
theorem LiteralWord.exists_literal (h : LiteralWord e w) {source : String} {t : Token}
    (ht : w.Names source t) : ∃ a, literalOf source t = .ok a ∧ SameSkeleton e a := by
  unfold literalOf
  rw [ht.kind]
  cases h with
  | @number value raw _ hvalue =>
      have htext : t.text = raw := ht.text
      exact ⟨.number value raw t.position, by simp only [Word.verbatim, htext, hvalue], rfl⟩
  | @string value raw _ =>
      have htext : t.text = value := ht.text
      have hslice := ht.slice
      rw [String.ofList_toList] at hslice
      exact ⟨_, rfl, by rw [SameSkeleton, Expr.skeleton, Expr.skeleton, htext, hslice]⟩
  | _ => exact ⟨_, rfl, rfl⟩

theorem takes_literal (h : LiteralWord e w) :
    Takes env depth (w :: ws) ws literal (SameSkeleton e) := by
  intro s hs
  rcases h.exists_literal hs.token with ⟨a, hok, ha⟩
  exact ⟨a, s.advanced, literal_ok hok, ha, hs.advanced h.proper⟩

theorem takes_primary_literal (h : LiteralWord e w) :
    Takes env depth (w :: ws) ws (primary g) (SameSkeleton e) := by
  refine takes_current.bind fun t ht => ?_
  rw [ht.kind]
  cases h
  case number hvalue => exact takes_literal (.number hvalue)
  case string => exact takes_literal .string
  case true => exact takes_literal .true
  case false => exact takes_literal .false
  case nil => exact takes_literal .nil

/-! ### What may follow -/

/-- Whether a token goes on with an expression that binds as tightly as a number says. -/
def continues (r : Nat) (kind : Kind) : Bool :=
  kind = .dot || kind = .leftBracket || kind = .leftParen || (r = 0 && kind = .question) ||
    (BinaryOp.ofKind? kind).any fun op => r ≤ op.precedence

/-- Words at which an expression is over. -/
def Stops (r : Nat) (ws : List Word) : Prop := ∃ w us, ws = w :: us ∧ continues r w.kind = false

/-- What ends an operation of some precedence also ends those that bind more strongly. -/
theorem Stops.mono {r' : Nat} (h : Stops r ws) (hr : r ≤ r') : Stops r' ws := by
  rcases h with ⟨w, us, rfl, hstop⟩
  refine ⟨w, us, rfl, ?_⟩
  simp only [continues, Bool.or_eq_false_iff, Bool.and_eq_false_iff, decide_eq_false_iff_not] at *
  refine ⟨⟨hstop.1.1, ?_⟩, ?_⟩
  · rcases hstop.1.2 with hne | hne
    · exact .inl (by omega)
    · exact .inr hne
  · cases hop : BinaryOp.ofKind? w.kind with
    | none => rfl
    | some op =>
        have hlow := hstop.2
        rw [hop] at hlow
        simp only [Option.any_some, decide_eq_false_iff_not] at hlow ⊢
        omega

/-- Words that do not make a dotted chain a call. -/
inductive NoCall : List Word → Prop
  | stop {w : Word} {ws : List Word} : w.kind ≠ .dot → w.kind ≠ .leftParen → NoCall (w :: ws)
  | member {w v : Word} {ws : List Word} :
    w.kind = .dot → isMemberName v.kind = true → NoCall ws → NoCall (w :: v :: ws)

theorem Stops.noCall (h : Stops r ws) : NoCall ws := by
  rcases h with ⟨w, us, rfl, hstop⟩
  simp only [continues, Bool.or_eq_false_iff, decide_eq_false_iff_not] at hstop
  exact .stop hstop.1.1.1.1 hstop.1.1.2

theorem NoCall.head (h : NoCall ws) : ∃ w us, ws = w :: us ∧ w.kind ≠ .leftParen := by
  cases h with
  | stop _ hcall => exact ⟨_, _, rfl, hcall⟩
  | member hdot => exact ⟨_, _, rfl, by rw [hdot]; decide⟩

/-! ### Names -/

/-- One round along a dotted chain. -/
def chainRound (_ : Unit) : Parse (Unit ⊕ Bool) := do
  if ← memberAhead then
    let _ ← consume
    let _ ← consume
    return .inl ()
  else return .inr (← check .leftParen)

/-- The look along a chain that does not end in a call: it passes over as many names and dots as
    there are and then answers no. -/
theorem takes_chainRounds (h : NoCall ws) :
    ∃ us, ∀ n, ws.length < n → Takes env depth ws us (iterate chainRound n ()) (· = false) := by
  -- A dot and a word after it are one round, so there are fewer rounds than words.
  induction h with
  | @stop w ws hdot hcall =>
      refine ⟨w :: ws, fun n hn => ?_⟩
      obtain ⟨n, rfl⟩ : ∃ k, n = k + 1 := ⟨n - 1, by omega⟩
      refine .iterate_done ?_
      have hahead : Takes env depth (w :: ws) (w :: ws) memberAhead (· = false) :=
        .ite_check .dot (fun heq => absurd heq hdot) fun _ => takes_pure rfl
      refine hahead.bind ?_
      rintro _ rfl
      refine (takes_check .leftParen).bind ?_
      rintro _ rfl
      exact takes_pure ⟨false, by rw [decide_eq_false hcall], rfl⟩
  | @member w v ws hdot hmember _ ih =>
      rcases ih with ⟨us, hrest⟩
      refine ⟨us, fun n hn => ?_⟩
      obtain ⟨n, rfl⟩ : ∃ k, n = k + 1 := ⟨n - 1, by omega⟩
      simp only [List.length_cons] at hn
      -- The word behind the dot decides that the row goes on, and both are taken.
      refine .iterate_next (V := fun _ => True) ?_ fun _ _ => hrest n (by omega)
      have hahead : Takes env depth (w :: v :: ws) (w :: v :: ws) memberAhead (· = true) := by
        refine .ite_check .dot (fun _ => ?_) fun hne => absurd hdot hne
        refine (takes_peekKind (n := 1) rfl).bind ?_
        rintro _ rfl
        exact takes_pure hmember
      refine hahead.bind ?_
      rintro _ rfl
      have hname : v.kind ≠ .endOfInput := by
        rintro heq
        rw [heq] at hmember
        cases hmember
      refine (takes_consume (by rw [hdot]; decide)).bind fun _ _ => ?_
      exact (takes_consume hname).bind fun _ _ => takes_pure ⟨(), rfl, trivial⟩

theorem takes_chainEndsInCall (h : NoCall ws) (hw : w.kind ≠ .endOfInput) :
    Takes env depth (w :: ws) (w :: ws) chainEndsInCall (· = false) := by
  rcases takes_chainRounds h with ⟨us, hrounds⟩
  exact .lookahead ((takes_consume hw).bind fun _ _ => .loop hrounds)

theorem takes_identifier {name : String} {p : Position} :
    Takes env depth (.verbatim .identifier name :: rest) rest identifier
      (SameSkeleton (.identifier name p)) := by
  refine (takes_consume (by simp)).bind fun t ht => takes_pure ?_
  have htext : t.text = name := ht.text
  rw [SameSkeleton, htext]
  rfl

/-- A name is an expression of its own if no call follows. -/
theorem takes_primary_name {name : String} {p : Position}
    (hforeign : env.languages.isLanguage name = false) (h : NoCall rest) :
    Takes env depth (.verbatim .identifier name :: rest) rest (primary g)
      (SameSkeleton (.identifier name p)) := by
  refine takes_current.bind fun t ht => ?_
  rw [ht.kind]
  refine takes_current.bind fun head hhead => ?_
  have hkind : head.kind = .identifier := hhead.kind
  have htext : head.text = name := hhead.text
  refine takes_languages.bind ?_
  rintro _ rfl
  rw [hkind, htext, hforeign]
  -- Behind the name a call is looked for, at once or at the end of a row of members. `NoCall`
  -- excludes both.
  cases h with
  | @stop v ws hdot hcall =>
      refine (takes_peekKind (n := 1) rfl).bind ?_
      rintro _ rfl
      split
      · rename_i heq
        exact absurd heq hdot
      · simp only [hcall, decide_false, Bool.false_and, Bool.false_eq_true, if_false]
        exact takes_identifier
  | @member v u ws hdot hmember hrest =>
      refine (takes_peekKind (n := 1) rfl).bind ?_
      rintro _ rfl
      rw [hdot]
      refine (takes_chainEndsInCall (.member hdot hmember hrest) (by simp)).bind ?_
      rintro _ rfl
      exact takes_identifier

/-! ### How an expression begins -/

/-- The kinds of the words that expressions begin with. -/
def opensOperand : Kind → Bool
  | .number | .identifier | .kwTrue | .kwFalse | .kwNil | .leftParen | .leftBracket | .plus
  | .minus | .bang | .tilde | .atSign => true
  | _ => false

/-- Whether a token of this kind may follow an argument. -/
def endsArgument (kind : Kind) : Bool :=
  kind = .comma || kind = .rightParen || kind = .newline

/-- An expression of one word: a name or a literal. -/
def IsAtom (e : Expr) (w : Word) : Prop :=
  (∃ name p, e = .identifier name p ∧ w = .verbatim .identifier name) ∨ LiteralWord e w

/-- Words that are no name or literal alone: they begin with something else, or they go on
    where an argument would be over. -/
def IsJoined (ws : List Word) : Prop :=
  ∃ w us, ws = w :: us ∧ opensOperand w.kind = true ∧
    (w.kind ≠ .identifier ∧ w.kind.isLiteral = false ∨
      ∃ v vs, us = v :: vs ∧ endsArgument v.kind = false)

theorem IsAtom.opensOperand (h : IsAtom e w) (hstring : w.kind ≠ .string) :
    Parse.opensOperand w.kind = true := by
  rcases h with ⟨_, _, _, rfl⟩ | h
  · rfl
  · cases h
    case string => exact absurd rfl hstring
    all_goals rfl

/-- An expression is an atom, or it goes on behind its first word. -/
theorem words_cases (h : Expr.Shaped r e) :
    (∃ w, e.words = [w] ∧ w.kind ≠ .string ∧ IsAtom e w) ∨ IsJoined e.words := by
  -- What stands behind the first word of `host ++ x :: xs` is `x` if the host is an atom, and
  -- else a word of the host.
  have hinitial : ∀ {host : Expr} (x : Word) (xs : List Word), endsArgument x.kind = false →
      ((∃ w, host.words = [w] ∧ w.kind ≠ .string ∧ IsAtom host w) ∨ IsJoined host.words) →
      IsJoined (host.words ++ x :: xs) := by
    rintro host x xs hx (⟨w, hw, hstring, hatom⟩ | ⟨w, us, hw, hopens, hjoined⟩)
    · exact ⟨w, x :: xs, by rw [hw]; rfl, hatom.opensOperand hstring, .inr ⟨x, xs, rfl, hx⟩⟩
    · refine ⟨w, us ++ x :: xs, by rw [hw]; rfl, hopens, ?_⟩
      rcases hjoined with hkind | ⟨v, vs, rfl, hv⟩
      · exact .inl hkind
      · exact .inr ⟨v, _, rfl, hv⟩
  induction h with
  | identifier => exact .inl ⟨_, rfl, by simp, .inl ⟨_, _, rfl, rfl⟩⟩
  | number _ hvalue => exact .inl ⟨_, rfl, by simp, .inr (.number hvalue)⟩
  | @boolean _ value =>
      cases value with
      | true => exact .inl ⟨_, rfl, by simp, .inr .true⟩
      | false => exact .inl ⟨_, rfl, by simp, .inr .false⟩
  | nil => exact .inl ⟨_, rfl, by simp, .inr .nil⟩
  | array => exact .inr ⟨_, _, rfl, rfl, .inl ⟨by simp, rfl⟩⟩
  | grouped => exact .inr ⟨_, _, rfl, rfl, .inl ⟨by simp, rfl⟩⟩
  | builtinCall => exact .inr ⟨_, _, rfl, rfl, .inr ⟨_, _, rfl, rfl⟩⟩
  | index _ _ ih => exact .inr (hinitial _ _ rfl ih)
  | fieldAccess _ _ _ ih => exact .inr (hinitial _ _ rfl ih)
  | @unary _ op _ _ _ _ _ =>
      cases op <;> exact .inr ⟨_, _, rfl, rfl, .inl ⟨by decide, rfl⟩⟩
  | @binary _ _ _ op _ _ _ _ ih => exact .inr (hinitial _ _ (by cases op <;> rfl) ih)
  | ternary _ _ _ ih => exact .inr (hinitial _ _ rfl ih)
  | elvis _ _ ih => exact .inr (hinitial _ _ rfl ih)

/-- The first word of an expression. -/
theorem words_begin (h : Expr.Shaped r e) :
    ∃ w us, e.words = w :: us ∧ opensOperand w.kind = true := by
  rcases words_cases h with ⟨w, hw, hstring, hatom⟩ | ⟨w, us, hw, hopens, -⟩
  · exact ⟨w, [], hw, hatom.opensOperand hstring⟩
  · exact ⟨w, us, hw, hopens⟩

/-- An operand with suffixes does not begin with a prefix operator. -/
theorem words_begin_suffixed (h : Expr.Shaped r e) (hr : 9 ≤ r) :
    ∃ w us, e.words = w :: us ∧ UnaryOp.ofKind? w.kind = none := by
  have hinitial : ∀ {vs : List Word} (xs : List Word),
      (∃ w us, vs = w :: us ∧ UnaryOp.ofKind? w.kind = none) →
      ∃ w us, vs ++ xs = w :: us ∧ UnaryOp.ofKind? w.kind = none := by
    rintro _ xs ⟨w, us, rfl, hw⟩
    exact ⟨w, us ++ xs, rfl, hw⟩
  induction h with
  | index _ _ ih => exact hinitial _ (ih (Nat.le_refl 9))
  | fieldAccess _ _ _ ih => exact hinitial _ (ih (Nat.le_refl 9))
  | unary hle => omega
  | @binary _ _ _ op _ hle _ _ _ _ =>
      have hprecedence := op.precedence_le
      omega
  | ternary => omega
  | elvis => omega
  | @boolean _ value => cases value <;> exact ⟨_, _, rfl, rfl⟩
  | _ => exact ⟨_, _, rfl, rfl⟩

theorem takes_skipNewlines_words (h : Expr.Shaped r e) :
    Takes env depth (e.words ++ ws) (e.words ++ ws) skipNewlines fun _ => True := by
  rcases words_begin h with ⟨w, us, hw, hopens⟩
  rw [hw]
  refine takes_skipNewlines fun hline => ?_
  rw [hline] at hopens
  cases hopens

/-! ### Brackets and calls -/

/-- Expressions with commas between them. -/
theorem takes_expressions {closer : Kind} {item : Parse Expr} {es : List Expr}
    (hcloser : closer = .rightBracket ∨ closer = .rightParen) (hw : w.kind = closer)
    (hshaped : ∀ e ∈ es, Expr.Shaped 0 e)
    (hitem : ∀ e ∈ es, ∀ rest, EndsItem closer rest →
      Takes env depth (e.words ++ rest) rest item (SameSkeleton e)) :
    Takes env depth (Word.join (Expr.wordLists es) ++ w :: ws) (w :: ws)
      (commaList closer [] fun acc => return acc ++ [← item])
      fun acc => skeletonExprs true acc = skeletonExprs true es := by
  rw [Expr.wordLists_eq]
  refine takes_commaList (R := fun done acc => skeletonExprs true acc = skeletonExprs true done)
    hw ?_ (fun e he => ?_) (fun done e acc rest hinitial hacc hrest => ?_) rfl
  · rcases hcloser with rfl | rfl <;> decide
  -- No expression begins as a list ends, or with a newline.
  · rcases words_begin (hshaped e he) with ⟨v, us, hv, hopens⟩
    refine ⟨v, us, hv, ?_, ?_⟩
    · rintro heq
      rw [heq] at hopens
      rcases hcloser with rfl | rfl <;> cases hopens
    · rintro heq
      rw [heq] at hopens
      cases hopens
  · have he : e ∈ es := hinitial.subset (List.mem_append_right _ (List.mem_singleton_self e))
    refine (hitem e he rest hrest).bind fun a ha => takes_pure ?_
    simp only [skeletonExprs_eq] at hacc ⊢
    rw [List.map_append, List.map_append, hacc, List.map_singleton, List.map_singleton, ha]

theorem EndsItem.stops {closer : Kind} (h : EndsItem closer ws)
    (hcloser : closer = .rightBracket ∨ closer = .rightParen) : Stops 0 ws := by
  rcases h with ⟨w, us, rfl, hw⟩
  refine ⟨w, us, rfl, ?_⟩
  rcases hw with hw | hw
  · rw [hw]
    rfl
  · rw [hw]
    rcases hcloser with rfl | rfl <;> rfl

/-- An argument of a call is read as an expression, also if it is taken directly. -/
theorem takes_argument (h : Expr.Shaped r e) (hrest : EndsItem .rightParen rest)
    (hread : Takes env depth (e.words ++ rest) rest g.expression (SameSkeleton e)) :
    Takes env depth (e.words ++ rest) rest (argument g) (SameSkeleton e) := by
  rcases hrest with ⟨x, xs, rfl, hx⟩
  rcases words_cases h with ⟨w, hw, hstring, hatom⟩ | ⟨w, us, hw, hopens, hjoined⟩
  -- A word by itself: what follows it ends an argument, so it is taken without asking the level.
  · rw [hw]
    refine (takes_peekKind (n := 1) rfl).bind ?_
    rintro _ rfl
    refine (takes_peekKind (n := 0) rfl).bind ?_
    rintro _ rfl
    have halone : (decide (x.kind = .comma) || decide (x.kind = .rightParen) ||
        decide (x.kind = .newline)) = true := by
      rcases hx with hx | hx <;> simp [hx]
    rw [halone]
    rcases hatom with ⟨name, p, rfl, rfl⟩ | hliteral
    · exact takes_identifier
    · have hkind : w.kind.isLiteral = true := by cases hliteral <;> rfl
      rw [hkind]
      exact takes_literal hliteral
  -- Of several words the second one ends no argument, or the first one is neither name nor
  -- literal. Either way the level is asked.
  · rw [hw] at hread ⊢
    obtain ⟨y, ys, hy⟩ : ∃ y ys, us ++ x :: xs = y :: ys := by
      cases us <;> exact ⟨_, _, rfl⟩
    rw [List.cons_append, hy] at hread ⊢
    refine (takes_peekKind (n := 1) rfl).bind ?_
    rintro _ rfl
    refine (takes_peekKind (n := 0) rfl).bind ?_
    rintro _ rfl
    rcases hjoined with ⟨hname, hliteral⟩ | ⟨v, vs, rfl, hv⟩
    · simpa [hname, hliteral] using hread
    · cases hy
      change (decide (y.kind = .comma) || decide (y.kind = .rightParen) ||
        decide (y.kind = .newline)) = false at hv
      rw [hv]
      exact hread

/-! ### What is read -/

/-- One round of reading binary operators. -/
def binaryRound (g : Grammar) (levels least : Nat) (left : Expr) : Parse (Expr ⊕ Expr) := do
  match BinaryOp.ofKind? (← peekKind 0) with
  | some op =>
    if op.precedence < least then return .inr left
    else
      let _ ← consume
      let _ ← skipNewlines
      let right ← binary g levels (op.precedence + 1)
      return .inl (.binary left op right left.position)
  | none => return .inr left

theorem binary_succ (g : Grammar) (levels least : Nat) :
    binary g (levels + 1) least =
      operand g >>= fun first => loop first (binaryRound g levels least) :=
  rfl

/-- One round of reading suffixes. -/
def suffixRound (g : Grammar) (expr : Expr) : Parse (Expr ⊕ Expr) := do
  match ← peekKind 0 with
  | .leftBracket =>
    let opening ← consume
    let _ ← skipNewlines
    let index ← g.expression
    let _ ← skipNewlines
    let _ ← expectClosing opening .rightBracket
    return .inl (.index expr index expr.position)
  | .dot =>
    let _ ← consume
    let field ← memberName
    if ← check .leftParen then
      throw (.unsupported "method call"
        "only guest-language functions can be called through '.'" field.position)
    else return .inl (.fieldAccess expr field.text expr.position)
  | _ => return .inr expr

section

variable {registry : Registry} {n levels least : Nat}

/-- The expression is read where an expression is expected. -/
def ReadsWhole (registry : Registry) (env : Env) (e : Expr) : Prop :=
  ∀ n depth rest, e.words.length < n → Stops 0 rest →
    Takes env depth (e.words ++ rest) rest (Grammar.level registry n).expression (SameSkeleton e)

/-- The expression is the first part of what is read where a chain of operators is
    expected. -/
def ReadsChain (registry : Registry) (env : Env) (r : Nat) (e : Expr) : Prop :=
  ∀ n depth rest levels least, e.words.length ≤ n → Stops (r + 1) rest → least ≤ r →
    8 ≤ levels + 1 + least → ∃ k ≤ e.words.length,
      Opens env depth (e.words ++ rest) rest (operand (Grammar.level registry n))
        (binaryRound (Grammar.level registry n) levels least) k (SameSkeleton e)

/-- The expression is read where an operand is expected. -/
def ReadsOperand (registry : Registry) (env : Env) (e : Expr) : Prop :=
  ∀ n depth rest, e.words.length ≤ n → Stops 8 rest →
    Takes env depth (e.words ++ rest) rest (operand (Grammar.level registry n)) (SameSkeleton e)

/-- The expression is the first part of what is read where suffixes may follow. -/
def ReadsSuffixed (registry : Registry) (env : Env) (e : Expr) : Prop :=
  ∀ n depth rest, e.words.length ≤ n → NoCall rest → ∃ k ≤ e.words.length,
    Opens env depth (e.words ++ rest) rest (primary (Grammar.level registry n))
      (suffixRound (Grammar.level registry n)) k (SameSkeleton e)

/-- An expression is read wherever its shape allows it to stand. -/
structure ReadsBack (registry : Registry) (env : Env) (r : Nat) (e : Expr) : Prop where
  whole : ReadsWhole registry env e
  chain : 1 ≤ r → ReadsChain registry env r e
  operand : 8 ≤ r → ReadsOperand registry env e
  suffixed : 9 ≤ r → ReadsSuffixed registry env e

theorem Stops.operand (h : Stops r ws) : Stops 8 ws := by
  rcases h with ⟨w, us, rfl, hstop⟩
  refine ⟨w, us, rfl, ?_⟩
  simp only [continues, Bool.or_eq_false_iff, Bool.and_eq_false_iff, decide_eq_false_iff_not] at *
  refine ⟨⟨hstop.1.1, .inl (by omega)⟩, ?_⟩
  cases hop : BinaryOp.ofKind? w.kind with
  | none => rfl
  | some op =>
      have hprecedence := op.precedence_le
      simp only [Option.any_some, decide_eq_false_iff_not]
      omega

/-- An operand with suffixes is read as an operand, with its sign in front if it is a number. -/
theorem ReadsSuffixed.operand (hshaped : Expr.Shaped 9 e) (h : ReadsSuffixed registry env e) :
    ReadsOperand registry env e := by
  intro n depth rest hn hrest
  rcases h n depth rest hn hrest.noCall with ⟨k, hk, hopens⟩
  rcases words_begin_suffixed hshaped (Nat.le_refl 9) with ⟨w, us, hw, hinitial⟩
  -- What follows the operand begins no suffix, so the loop is over when the operand is.
  have hover : ∀ a, SameSkeleton e a → Takes env depth rest rest
      (suffixRound (Grammar.level registry n) a) fun r => ∃ b, r = .inr b ∧ SameSkeleton e b := by
    intro a ha
    rcases hrest with ⟨v, vs, rfl, hstop⟩
    simp only [continues, Bool.or_eq_false_iff, decide_eq_false_iff_not] at hstop
    refine (takes_peekKind (n := 0) rfl).bind ?_
    rintro _ rfl
    split
    · rename_i heq
      exact absurd heq hstop.1.1.1.2
    · rename_i heq
      exact absurd heq hstop.1.1.1.1
    · exact takes_pure ⟨a, rfl, ha⟩
  -- The rounds that were used are counted by words, of which there are enough.
  have hlong : k ≤ (e.words ++ rest).length := by
    rw [List.length_append]
    omega
  have hsuffixes := hopens.finish hlong hover
  rw [hw] at hsuffixes ⊢
  refine (takes_peekKind (n := 0) rfl).bind ?_
  rintro _ rfl
  rw [hinitial]
  exact hsuffixes

theorem ReadsOperand.chain (h : ReadsOperand registry env e) : ReadsChain registry env r e := by
  intro n depth rest levels least hn hrest _ _
  exact ⟨0, Nat.zero_le _, (h n depth rest hn hrest.operand).opens⟩

/-- A chain of operators is taken as a whole by the rule for operators that bind no more
    strongly, if what follows is no operator that it would take along. -/
theorem ReadsChain.takes_binary (h : ReadsChain registry env r e) (hn : e.words.length ≤ n)
    (hrest : Stops least rest) (hleast : least ≤ r) (hlevels : 8 ≤ levels + 1 + least) :
    Takes env depth (e.words ++ rest) rest (binary (Grammar.level registry n) (levels + 1) least)
      (SameSkeleton e) := by
  rcases h n depth rest levels least hn (hrest.mono (by omega)) hleast hlevels with
    ⟨k, hk, hopens⟩
  rw [binary_succ]
  refine hopens.finish (by rw [List.length_append]; omega) fun a ha => ?_
  rcases hrest with ⟨w, us, rfl, hstop⟩
  refine (takes_peekKind (n := 0) rfl).bind ?_
  rintro _ rfl
  -- The chain was read; what follows is no operator, or one that binds less than is asked for.
  simp only [continues, Bool.or_eq_false_iff] at hstop
  cases hop : BinaryOp.ofKind? w.kind with
  | none => exact takes_pure ⟨a, rfl, ha⟩
  | some op =>
      have hlow := hstop.2
      rw [hop] at hlow
      simp only [Option.any_some, decide_eq_false_iff_not, Nat.not_le] at hlow
      simp only [hlow, if_true]
      exact takes_pure ⟨a, rfl, ha⟩

/-- No level is too deep. -/
def Unlimited (env : Env) : Prop :=
  ∀ depth position, env.guard.enter depth position = .ok (depth + 1)

/-- What is read back in the loosest chain is read back wherever an expression may stand, as no
    ternary follows it. -/
theorem ReadsChain.whole (henter : Unlimited env) (hr : 1 ≤ r) (h : ReadsChain registry env r e) :
    ReadsWhole registry env e := by
  intro n depth rest hn hrest
  obtain ⟨n, rfl⟩ : ∃ k, n = k + 1 := ⟨n - 1, by omega⟩
  refine .nested (henter depth) ?_
  refine (h.takes_binary (Nat.le_of_lt_succ hn) (hrest.mono (Nat.zero_le 1)) hr
    (Nat.le_refl 8)).bind fun a ha => ?_
  rcases hrest with ⟨w, us, rfl, hstop⟩
  simp only [continues, Bool.or_eq_false_iff, Bool.and_eq_false_iff,
    decide_eq_false_iff_not] at hstop
  have hquestion : w.kind ≠ .question := by simpa using hstop.1.2
  exact .ite_check .question (fun heq => absurd heq hquestion) fun _ => takes_pure ha

/-- What is read at one place is read where less is asked. -/
theorem ReadsBack.mono {r' : Nat} (h : ReadsBack registry env r' e) (hr : r ≤ r') :
    ReadsBack registry env r e where
  whole := h.whole
  chain hpos n depth rest levels least hn hrest hleast hlevels :=
    h.chain (Nat.le_trans hpos hr) n depth rest levels least hn
      (hrest.mono (Nat.succ_le_succ hr)) (Nat.le_trans hleast hr) hlevels
  operand hoperand := h.operand (Nat.le_trans hoperand hr)
  suffixed hsuffixed := h.suffixed (Nat.le_trans hsuffixed hr)

theorem ReadsBack.of_operand (henter : Unlimited env) (h : ReadsOperand registry env e)
    (hr : r ≤ 8) : ReadsBack registry env r e :=
  have htight : ReadsBack registry env 8 e :=
    ⟨h.chain.whole henter (by decide : 1 ≤ 1), fun _ => h.chain, fun _ => h,
      fun hle => absurd hle (by decide)⟩
  htight.mono hr

theorem ReadsBack.of_suffixed (henter : Unlimited env) (hshaped : ∀ r, Expr.Shaped r e)
    (h : ReadsSuffixed registry env e) : ReadsBack registry env r e :=
  have hoperand := h.operand (hshaped 9)
  ⟨hoperand.chain.whole henter (by decide : 1 ≤ 1), fun _ => hoperand.chain, fun _ => hoperand,
    fun _ => h⟩

theorem ReadsBack.of_chain (henter : Unlimited env) (hpos : 1 ≤ r) (hle : r ≤ 7)
    (h : ReadsChain registry env r e) : ReadsBack registry env r e :=
  ⟨h.whole henter hpos, fun _ => h, fun hoperand => by omega, fun hsuffixed => by omega⟩

/-! ### One case for each construct -/

theorem readsSuffixed_of_primary
    (h : ∀ n depth rest, e.words.length ≤ n → NoCall rest →
      Takes env depth (e.words ++ rest) rest (primary (Grammar.level registry n))
        (SameSkeleton e)) : ReadsSuffixed registry env e :=
  fun n depth rest hn hrest => ⟨0, Nat.zero_le _, (h n depth rest hn hrest).opens⟩

/-- An array is read back if its elements are. -/
theorem readsSuffixed_array {elements : List Expr} {p : Position}
    (hshaped : ∀ e ∈ elements, Expr.Shaped 0 e)
    (h : ∀ e ∈ elements, ReadsWhole registry env e) :
    ReadsSuffixed registry env (.array elements p) := by
  refine readsSuffixed_of_primary fun n depth rest hn _ => ?_
  simp only [Expr.words, List.length_cons, List.length_append, Expr.wordLists_eq] at hn
  have hitem : ∀ e ∈ elements, ∀ rest, EndsItem .rightBracket rest → Takes env depth
      (e.words ++ rest) rest (Grammar.level registry n).expression (SameSkeleton e) := by
    intro e he rest hrest
    have hle := Word.length_le_join (List.mem_map_of_mem (f := Expr.words) he)
    exact h e he n depth rest (by omega) (hrest.stops (.inl rfl))
  simp only [Expr.words, List.cons_append, List.append_assoc, List.nil_append]
  refine takes_current.bind fun t ht => ?_
  rw [ht.kind]
  refine (takes_expect rfl (by decide)).bind fun opening _ => ?_
  refine (takes_expressions (.inl rfl) rfl hshaped hitem).bind fun acc hacc => ?_
  refine (takes_expectClosing opening rfl (by decide)).bind fun _ _ => takes_pure ?_
  rw [SameSkeleton, Expr.skeleton, Expr.skeleton, hacc]

/-- An expression in parentheses is read back with them, whatever follows. -/
theorem readsSuffixed_grouped {inner : Expr} {p : Position} (hshaped : Expr.Shaped 0 inner)
    (h : ReadsWhole registry env inner) : ReadsSuffixed registry env (.grouped inner p) := by
  refine readsSuffixed_of_primary fun n depth rest hn _ => ?_
  simp only [Expr.words, List.length_cons, List.length_append] at hn
  simp only [Expr.words, List.cons_append, List.append_assoc, List.nil_append]
  refine takes_current.bind fun t ht => ?_
  rw [ht.kind]
  refine (takes_expect rfl (by decide)).bind fun opening _ => ?_
  refine (takes_skipNewlines_words hshaped).bind fun _ _ => ?_
  refine (h n depth _ (by omega) ⟨_, _, rfl, rfl⟩).bind fun a ha => ?_
  refine (takes_skipNewlines (by decide)).bind fun _ _ => ?_
  refine (takes_expectClosing opening rfl (by decide)).bind fun _ _ => takes_pure ?_
  rw [SameSkeleton, Expr.skeleton, Expr.skeleton, ha]

/-- A call is read back if its arguments are. Its name must be no tag of a language, or else it
    would be a guest call. -/
theorem readsSuffixed_builtinCall {name : String} {arguments : List Expr} {p : Position}
    (hforeign : env.languages.isLanguage name = false)
    (hshaped : ∀ e ∈ arguments, Expr.Shaped 0 e)
    (h : ∀ e ∈ arguments, ReadsWhole registry env e) :
    ReadsSuffixed registry env (.builtinCall name arguments p) := by
  refine readsSuffixed_of_primary fun n depth rest hn _ => ?_
  simp only [Expr.words, List.length_cons, List.length_append, Expr.wordLists_eq] at hn
  -- An argument is shorter than the call, so the levels that are left suffice for it.
  have hitem : ∀ e ∈ arguments, ∀ rest, EndsItem .rightParen rest → Takes env depth
      (e.words ++ rest) rest (argument (Grammar.level registry n)) (SameSkeleton e) := by
    intro e he rest hrest
    have hle := Word.length_le_join (List.mem_map_of_mem (f := Expr.words) he)
    exact takes_argument (hshaped e he) hrest
      (h e he n depth rest (by omega) (hrest.stops (.inr rfl)))
  simp only [Expr.words, List.cons_append, List.append_assoc, List.nil_append]
  refine takes_current.bind fun t ht => ?_
  rw [ht.kind]
  refine takes_current.bind fun head hhead => ?_
  have hkind : head.kind = .identifier := hhead.kind
  have htext : head.text = name := hhead.text
  refine takes_languages.bind ?_
  rintro _ rfl
  -- It is a name that is no language, and a parenthesis follows.
  rw [hkind, htext, hforeign]
  refine (takes_peekKind (n := 1) rfl).bind ?_
  rintro _ rfl
  refine (takes_consume (by simp)).bind fun callee hcallee => ?_
  have hname : callee.text = name := hcallee.text
  have harguments : Takes env depth (.verbatim .leftParen "(" ::
      (Word.join (Expr.wordLists arguments) ++ Word.verbatim .rightParen ")" :: rest)) rest
      (callArguments (Grammar.level registry n))
      fun acc => skeletonExprs true acc = skeletonExprs true arguments := by
    refine (takes_expect rfl (by decide)).bind fun opening _ => ?_
    refine (takes_expressions (.inr rfl) rfl hshaped hitem).bind fun acc hacc => ?_
    exact (takes_expectClosing opening rfl (by decide)).bind fun _ _ => takes_pure hacc
  refine harguments.bind fun acc hacc => takes_pure ?_
  rw [SameSkeleton, Expr.skeleton, Expr.skeleton, hacc, hname]

/-- An index is read back behind its host, which has no operators. -/
theorem readsSuffixed_index {host place : Expr} {p : Position} (hshaped : Expr.Shaped 0 place)
    (hhost : ReadsSuffixed registry env host) (hplace : ReadsWhole registry env place) :
    ReadsSuffixed registry env (.index host place p) := by
  intro n depth rest hn _
  simp only [Expr.words, List.length_cons, List.length_append] at hn ⊢
  rcases hhost n depth (.verbatim .leftBracket "[" ::
    (place.words ++ Word.verbatim .rightBracket "]" :: rest)) (by omega)
    (.stop (by decide) (by decide)) with ⟨k, hk, hopens⟩
  refine ⟨k + 1, by omega, ?_⟩
  simp only [List.cons_append, List.append_assoc, List.nil_append]
  refine hopens.round fun a ha => ?_
  refine (takes_peekKind (n := 0) rfl).bind ?_
  rintro _ rfl
  refine (takes_consume (by decide)).bind fun opening _ => ?_
  refine (takes_skipNewlines_words hshaped).bind fun _ _ => ?_
  refine (hplace n depth _ (by omega) ⟨_, _, rfl, rfl⟩).bind fun b hb => ?_
  refine (takes_skipNewlines (by decide)).bind fun _ _ => ?_
  refine (takes_expectClosing opening rfl (by decide)).bind fun _ _ => takes_pure ⟨_, rfl, ?_⟩
  rw [SameSkeleton, Expr.skeleton, Expr.skeleton, ha, hb]

/-- A field is read back behind its host. Its name may be a reserved word, as long as that is a
    name behind a dot. -/
theorem readsSuffixed_fieldAccess {host : Expr} {field : String} {p : Position}
    (hmember : isMemberName (Kind.ofWord field) = true) (hhost : ReadsSuffixed registry env host) :
    ReadsSuffixed registry env (.fieldAccess host field p) := by
  intro n depth rest hn hrest
  simp only [Expr.words, List.length_cons, List.length_append] at hn ⊢
  rcases hhost n depth (.verbatim .dot "." :: .verbatim (Kind.ofWord field) field :: rest)
    (by omega) (.member rfl hmember hrest) with ⟨k, hk, hopens⟩
  refine ⟨k + 1, by omega, ?_⟩
  simp only [List.cons_append, List.append_assoc, List.nil_append]
  refine hopens.round fun a ha => ?_
  refine (takes_peekKind (n := 0) rfl).bind ?_
  rintro _ rfl
  refine (takes_consume (by decide)).bind fun _ _ => ?_
  have hname : Takes env depth (.verbatim (Kind.ofWord field) field :: rest) rest memberName
      ((Word.verbatim (Kind.ofWord field) field).Names env.source) := by
    refine (takes_peekKind (n := 0) rfl).bind ?_
    rintro _ rfl
    rw [Word.verbatim_kind, hmember]
    exact takes_consume (Lexer.ofWord_proper field).1
  refine hname.bind fun t ht => ?_
  have htext : t.text = field := ht.text
  -- No parenthesis follows, so the member is not called.
  rcases hrest.head with ⟨w, us, rfl, hcall⟩
  refine .ite_check .leftParen (fun heq => absurd heq hcall) fun _ => takes_pure ⟨_, rfl, ?_⟩
  rw [SameSkeleton, Expr.skeleton, Expr.skeleton, ha, htext]

/-- A prefix operator is read back in front of an operand that is. -/
theorem readsOperand_unary (henter : Unlimited env) {op : UnaryOp} {inner : Expr} {p : Position}
    (h : ReadsOperand registry env inner) : ReadsOperand registry env (.unary op inner p) := by
  intro n depth rest hn hrest
  simp only [Expr.words, List.length_cons] at hn ⊢
  obtain ⟨n, rfl⟩ : ∃ k, n = k + 1 := ⟨n - 1, by omega⟩
  refine (takes_peekKind (n := 0) rfl).bind ?_
  rintro _ rfl
  rw [Word.verbatim_kind, UnaryOp.ofKind?_kind]
  refine (takes_consume (by cases op <;> decide)).bind fun t _ => ?_
  have hinner := h n (depth + 1) rest (by omega) hrest
  refine (Takes.nested (henter depth) hinner).bind fun a ha => takes_pure ?_
  rw [SameSkeleton, Expr.skeleton, Expr.skeleton, ha]

/-- An operator between its operands. The left one may be a chain of the same precedence and the
    right one must bind more strongly, which is how the parser groups them. -/
theorem readsChain_binary {left right : Expr} {op : BinaryOp} {p : Position}
    (hshaped : Expr.Shaped (op.precedence + 1) right)
    (hleft : ReadsChain registry env op.precedence left)
    (hright : ReadsBack registry env (op.precedence + 1) right) :
    ReadsChain registry env op.precedence (.binary left op right p) := by
  intro n depth rest levels least hn hrest hleast hlevels
  -- Where the left operand ends stands the operator, at which tighter chains stop.
  simp only [Expr.words, List.length_cons, List.length_append] at hn ⊢
  have hstops : Stops (op.precedence + 1)
      (.verbatim op.kind op.symbol :: (right.words ++ rest)) := by
    refine ⟨_, _, rfl, ?_⟩
    cases op <;> rfl
  rcases hleft n depth _ levels least (by omega) hstops hleast hlevels with ⟨k, hk, hopens⟩
  refine ⟨k + 1, by omega, ?_⟩
  simp only [List.cons_append, List.append_assoc]
  -- The chain of the left operand is still in its loop: the operator and the right operand are
  -- one more round.
  refine hopens.round fun a ha => ?_
  refine (takes_peekKind (n := 0) rfl).bind ?_
  rintro _ rfl
  rw [Word.verbatim_kind, BinaryOp.ofKind?_kind]
  simp only [Nat.not_lt.2 hleast, if_false]
  refine (takes_consume (by cases op <;> decide)).bind fun _ _ => ?_
  refine (takes_skipNewlines_words hshaped).bind fun _ _ => ?_
  -- The right operand is a chain of a tighter level, or an operand if there is no such level.
  have htaken : Takes env depth (right.words ++ rest) rest
      (binary (Grammar.level registry n) levels (op.precedence + 1)) (SameSkeleton right) := by
    cases levels with
    | zero => exact hright.operand (by omega) n depth rest (by omega) hrest.operand
    | succ levels =>
        exact (hright.chain (by omega)).takes_binary (by omega) hrest (Nat.le_refl _) (by omega)
  refine htaken.bind fun b hb => takes_pure ⟨_, rfl, ?_⟩
  rw [SameSkeleton, Expr.skeleton, Expr.skeleton, ha, hb]

/-- A conditional expression: the condition has no conditional at its top, and the branches are
    whole expressions. -/
theorem readsWhole_ternary (henter : Unlimited env) {condition onTrue onFalse : Expr}
    {p : Position} (hshapedTrue : Expr.Shaped 0 onTrue) (hshapedFalse : Expr.Shaped 0 onFalse)
    (hcondition : ReadsChain registry env 1 condition) (htrue : ReadsWhole registry env onTrue)
    (hfalse : ReadsWhole registry env onFalse) :
    ReadsWhole registry env (.ternary condition onTrue onFalse p) := by
  intro n depth rest hn hrest
  simp only [Expr.words, List.length_cons, List.length_append] at hn ⊢
  obtain ⟨n, rfl⟩ : ∃ k, n = k + 1 := ⟨n - 1, by omega⟩
  simp only [List.cons_append, List.append_assoc]
  refine .nested (henter depth) ?_
  refine (hcondition.takes_binary (by omega) ⟨_, _, rfl, rfl⟩ (Nat.le_refl 1)
    (Nat.le_refl 8)).bind fun a ha => ?_
  refine .ite_check .question (fun _ => ?_) fun hne => absurd rfl hne
  refine (takes_consume (by decide)).bind fun _ _ => ?_
  -- No expression begins with a colon, so this is not the form that leaves out the middle.
  have hcolon : ∀ {q q' : Parse Expr} {V : Expr → Prop} {ws : List Word},
      Takes env (depth + 1) (onTrue.words ++ ws) rest q' V →
      Takes env (depth + 1) (onTrue.words ++ ws) rest
        (check .colon >>= fun b => if b then q else q') V := by
    intro q q' V ws hq
    rcases words_begin hshapedTrue with ⟨w, us, hw, hopens⟩
    rw [hw] at hq ⊢
    refine .ite_check .colon (fun heq => ?_) fun _ => hq
    rw [heq] at hopens
    cases hopens
  refine hcolon ?_
  refine (takes_skipNewlines_words hshapedTrue).bind fun _ _ => ?_
  refine (htrue n _ _ (by omega) ⟨_, _, rfl, rfl⟩).bind fun b hb => ?_
  refine (takes_skipNewlines (by decide)).bind fun _ _ => ?_
  refine (takes_expect rfl (by decide)).bind fun _ _ => ?_
  refine (takes_skipNewlines_words hshapedFalse).bind fun _ _ => ?_
  refine (hfalse n _ _ (by omega) hrest).bind fun c hc => takes_pure ?_
  rw [SameSkeleton, Expr.skeleton, Expr.skeleton, ha, hb, hc]

/-- A fallback, which is a whole expression behind two signs that are read apart. -/
theorem readsWhole_elvis (henter : Unlimited env) {condition fallback : Expr} {p : Position}
    (hshaped : Expr.Shaped 0 fallback) (hcondition : ReadsChain registry env 1 condition)
    (hfallback : ReadsWhole registry env fallback) :
    ReadsWhole registry env (.elvis condition fallback p) := by
  intro n depth rest hn hrest
  simp only [Expr.words, List.length_cons, List.length_append] at hn ⊢
  obtain ⟨n, rfl⟩ : ∃ k, n = k + 1 := ⟨n - 1, by omega⟩
  simp only [List.cons_append, List.append_assoc]
  refine .nested (henter depth) ?_
  refine (hcondition.takes_binary (by omega) ⟨_, _, rfl, rfl⟩ (Nat.le_refl 1)
    (Nat.le_refl 8)).bind fun a ha => ?_
  refine .ite_check .question (fun _ => ?_) fun hne => absurd rfl hne
  refine (takes_consume (by decide)).bind fun _ _ => ?_
  refine .ite_check .colon (fun _ => ?_) fun hne => absurd rfl hne
  refine (takes_consume (by decide)).bind fun _ _ => ?_
  refine (takes_skipNewlines_words hshaped).bind fun _ _ => ?_
  refine (hfallback n _ _ (by omega) hrest).bind fun b hb => takes_pure ?_
  rw [SameSkeleton, Expr.skeleton, Expr.skeleton, ha, hb]

/-- An expression is read wherever its shape allows it to stand. The four ways of reading an
    expression correspond to the four places in the grammar, from an operand to the whole, and a
    shape says in which of them it can be read. -/
theorem readsBack (henter : Unlimited env)
    (hforeign : ∀ name, Lexer.IsPlain name → env.languages.isLanguage name = false)
    (h : Expr.Shaped r e) : ReadsBack registry env r e := by
  -- One case for each shape. The parts are read by the rule that the shape allows them to be
  -- read by.
  induction h with
  | identifier hplain =>
      exact .of_suffixed henter (fun _ => .identifier hplain) <| readsSuffixed_of_primary
        fun _ _ _ _ hrest => takes_primary_name (hforeign _ hplain) hrest
  | number hraw hvalue =>
      exact .of_suffixed henter (fun _ => .number hraw hvalue) <| readsSuffixed_of_primary
        fun _ _ _ _ _ => takes_primary_literal (.number hvalue)
  | @boolean _ value =>
      refine .of_suffixed henter (fun _ => .boolean) <| readsSuffixed_of_primary
        fun _ _ _ _ _ => ?_
      cases value with
      | true => exact takes_primary_literal .true
      | false => exact takes_primary_literal .false
  | nil =>
      exact .of_suffixed henter (fun _ => .nil) <| readsSuffixed_of_primary
        fun _ _ _ _ _ => takes_primary_literal .nil
  | array hshaped ih =>
      exact .of_suffixed henter (fun _ => .array hshaped)
        (readsSuffixed_array hshaped fun e he => (ih e he).whole)
  | grouped hshaped ih =>
      exact .of_suffixed henter (fun _ => .grouped hshaped) (readsSuffixed_grouped hshaped ih.whole)
  | builtinCall hplain hshaped ih =>
      exact .of_suffixed henter (fun _ => .builtinCall hplain hshaped)
        (readsSuffixed_builtinCall (hforeign _ hplain) hshaped fun e he => (ih e he).whole)
  | index hhost hplace ihHost ihPlace =>
      exact .of_suffixed henter (fun _ => .index hhost hplace)
        (readsSuffixed_index hplace (ihHost.suffixed (Nat.le_refl 9)) ihPlace.whole)
  | fieldAccess hhost hname hmember ih =>
      exact .of_suffixed henter (fun _ => .fieldAccess hhost hname hmember)
        (readsSuffixed_fieldAccess hmember (ih.suffixed (Nat.le_refl 9)))
  | unary hr _ ih =>
      exact .of_operand henter (readsOperand_unary henter (ih.operand (Nat.le_refl 8))) hr
  | @binary _ _ _ op _ hr _ hright ihLeft ihRight =>
      refine (ReadsBack.of_chain henter op.precedence_pos op.precedence_le ?_).mono hr
      exact readsChain_binary hright (ihLeft.chain op.precedence_pos) ihRight
  | ternary _ htrue hfalse ihCondition ihTrue ihFalse =>
      exact ⟨readsWhole_ternary henter htrue hfalse (ihCondition.chain (Nat.le_refl 1))
        ihTrue.whole ihFalse.whole, nofun, nofun, nofun⟩
  | elvis _ hfallback ihCondition ihFallback =>
      exact ⟨readsWhole_elvis henter hfallback (ihCondition.chain (Nat.le_refl 1))
        ihFallback.whole, nofun, nofun, nofun⟩

end

end Parse

open SourcePrinter in
/-- What a parser without a limit on nesting makes of an expression that was printed. -/
theorem Expr.Shaped.parseExpression {s : Settings} (hlanguages : s.languages = Language.defaults)
    (hguard : s.guardEnabled = false) {e : Expr} (h : e.Shaped 0) :
    ∃ a, (Parser.ofSettings s).parseExpression (plain.expr e) = .ok a ∧ SameSkeleton e a := by
  -- The guard is off: no depth is too deep.
  have henter : Parse.Unlimited ((Parser.ofSettings s).env (plain.expr e)) := by
    intro depth position
    change (if (s.guardEnabled && _) = true then _ else _) = _
    rw [hguard]
    rfl
  -- The tags of languages are no plain names, since the lexer gives them a kind of their own.
  have hforeign : ∀ name, Lexer.IsPlain name →
      ((Parser.ofSettings s).env (plain.expr e)).languages.isLanguage name = false := by
    intro name hname
    change ((LanguageTable.ofList s.languages).resolve? name).isSome = false
    rw [hlanguages]
    cases hresolve : (LanguageTable.ofList Language.defaults).resolve? name with
    | none => rfl
    | some canonical =>
        have hkind := hname.isIdentifier
        rw [Parse.ofWord_of_resolve? hresolve] at hkind
        cases hkind
  -- What is printed reads back as the words it is made of, and these are no more than its bytes.
  have hrow := h.reads [] .finish
  rw [List.append_nil] at hrow
  have hlevels : e.words.length < 4 * (plain.expr e).utf8ByteSize + 8 := by
    have hle := Nat.le_trans hrow.length_le (Position.length_le_byteCount (plain.expr e).toList)
    rw [← byteSize_eq] at hle
    omega
  have hback : Parse.ReadsBack (Parser.ofSettings s).registry _ 0 e :=
    Parse.readsBack henter hforeign h
  have hwhole := hback.whole _ 0 [.finish] hlevels ⟨_, _, rfl, rfl⟩
  rcases Parse.words_begin h with ⟨w, us, hw, hopens⟩
  have hseparator : Parse.isSeparator w.kind = false := by
    cases hkind : w.kind <;> rw [hkind] at hopens <;> first | rfl | cases hopens
  rw [hw] at hwhole hrow
  exact Parse.run_of_takes hrow (Parse.takes_wholeText hseparator hwhole)

open SourcePrinter in
/-- An expression whose operators, calls and suffixes are nested as the grammar nests them
    is read back from its printed text, apart from positions. The text in which the
    grouping is made visible is read as the same expression, apart from positions and
    parentheses. -/
theorem printed_expressions_read_back (s : Settings) (hlanguages : s.languages = Language.defaults)
    (hguard : s.guardEnabled = false) (e : Expr) (h : e.Shaped 0) :
    let parse := (Parser.ofSettings s).parseExpression
    (∃ a, parse (plain.expr e) = .ok a ∧ a.skeleton true = e.skeleton true) ∧
      ∃ a, parse (parenthesized.expr e) = .ok a ∧ a.skeleton false = e.skeleton false := by
  refine ⟨h.parseExpression hlanguages hguard, ?_⟩
  rcases h.regrouped.parseExpression hlanguages hguard with ⟨a, hparse, ha⟩
  refine ⟨a, by rw [h.parenthesized_eq, hparse], ?_⟩
  have hskeleton := congrArg (Expr.skeleton false) ha
  rwa [Expr.skeleton_skeleton, Expr.skeleton_skeleton, h.skeleton_regrouped] at hskeleton

open SourcePrinter in
/-- A ternary with operators of several precedences, suffixes and an elvis operator. -/
theorem printed_expressions_read_back_ternary :
    let p := Position.start
    let e := Expr.ternary
      (.binary (.identifier "a" p) .add
        (.binary (.identifier "b" p) .multiply
          (.grouped (.binary (.identifier "c" p) .subtract (.number (.integer 1) "1" p) p) p) p) p)
      (.fieldAccess (.index (.builtinCall "f" [.identifier "a" p, .boolean true p] p)
        (.array [.number (.integer 1) "1" p] p) p) "py" p)
      (.elvis (.unary .negate (.identifier "b" p) p) (.nil p) p) p
    let s := { Settings.defaults with guardEnabled := false }
    let parse := (Parser.ofSettings s).parseExpression
    s.languages = Language.defaults ∧ s.guardEnabled = false ∧ e.Shaped 0 ∧
      plain.expr e = "a + b * (c - 1) ? f(a, true)[[1]].py : -b ? : nil" ∧
      parenthesized.expr e = "((a + (b * (c - 1))) ? f(a, true)[[1]].py : (-b ? : nil))" ∧
      (∃ a, parse (plain.expr e) = .ok a ∧ a.skeleton true = e.skeleton true) ∧
      ∃ a, parse (parenthesized.expr e) = .ok a ∧ a.skeleton false = e.skeleton false := by
  intro p e s parse
  have hplain : ∀ name ∈ ["a", "b", "c", "f"], Lexer.IsPlain name := by decide +kernel
  have ha : ∀ r, Expr.Shaped r (.identifier "a" p) := fun _ => .identifier (hplain _ (by decide))
  have hb : ∀ r, Expr.Shaped r (.identifier "b" p) := fun _ => .identifier (hplain _ (by decide))
  have hc : ∀ r, Expr.Shaped r (.identifier "c" p) := fun _ => .identifier (hplain _ (by decide))
  have hone : ∀ r, Expr.Shaped r (.number (.integer 1) "1" p) := fun _ =>
    .number (Lexer.isNumeral_decimal (by decide) (List.all_iff_forall_prop.1 (by decide)))
      (by decide)
  -- The tree is of the right shape, which is all that the general theorem asks for.
  have hshaped : e.Shaped 0 := by
    refine .ternary (.binary (by decide) (ha _) ?_) ?_ (.elvis (.unary (by decide) (hb _)) .nil)
    · exact .binary (by decide) (hb _) (.grouped (.binary (by decide) (hc _) (hone _)))
    · refine .fieldAccess (.index (.builtinCall (hplain _ (by decide)) ?_) (.array ?_))
        ⟨by decide +kernel, by decide +kernel⟩ (by decide)
      · simp only [List.mem_cons, List.not_mem_nil, or_false, forall_eq_or_imp, forall_eq]
        exact ⟨ha 0, .boolean⟩
      · simp only [List.mem_singleton, forall_eq]
        exact hone 0
  exact ⟨rfl, rfl, hshaped, by decide +kernel, by decide +kernel,
    printed_expressions_read_back s rfl rfl e hshaped⟩

end PolyScript
