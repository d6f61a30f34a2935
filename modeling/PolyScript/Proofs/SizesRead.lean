import PolyScript.Proofs.BitStringsReadBack
import PolyScript.Proofs.Moments

/-!
# The Mode That Sizes Leave

Which mode a parser that succeeds leaves can be told from what it returns. Behind the size of a
segment size mode is off, and nothing else that is part of an expression switches it. So size
mode is on behind an expression if it was on before and no segment in the expression has a size.

This holds of every state, also of those that no parse comes to, since neither tokens nor tapes
matter to it. `Parse.Leaves` has a rule for each way to compose parsers, and each rule of the
grammar needs only to name the parts that may contain a segment. What remains keeps the mode
(`Parse.Keeps`).

## Main definitions

* `Expr.hasSizes`, `exprsHaveSizes`, `entriesHaveSizes`, `segmentsHaveSizes`: Some segment at any
  depth has a size.
* `Parse.Leaves`: What a parser that succeeds comes to, together with the mode it leaves.
* `Parse.Keeps`: The mode is the same behind a parser that succeeds.
* `Parse.LeavesSizes`: The mode behind the parts of expressions.

## Theorems

* `Parse.leaves_segmentSize`, `Parse.leaves_bitstring`: Sizes and segments.
* `Parse.leaves_expression`: Expressions.
* `Parse.leavesSizes_level`: Every level of the grammar.
-/

namespace PolyScript

/-! ### Sizes in trees -/

/-- Whether an expression is a bit string that has a segment with a size. -/
def Expr.sizesSegments (e : Expr) : Bool := e.segments.any fun s => s.size.isSome

/-- Whether some segment in an expression, at any depth, has a size. -/
def Expr.hasSizes (e : Expr) : Bool := e.within.any Expr.sizesSegments

/-- Whether some segment in a list of expressions has a size. -/
def exprsHaveSizes (es : List Expr) : Bool := (exprsWithin es).any Expr.sizesSegments

/-- Whether some segment in the entries of an object literal has a size. -/
def entriesHaveSizes (entries : List ObjectEntry) : Bool :=
  (entriesWithin entries).any Expr.sizesSegments

/-- Whether some segment among others or in them has a size. -/
def segmentsHaveSizes (ss : List BitSegment) : Bool :=
  (ss.any fun s => s.size.isSome) || (segmentsWithin ss).any Expr.sizesSegments

section

variable {p : Position}

theorem Expr.hasSizes_of_isLiteral {e : Expr} (h : e.isLiteral = true) : e.hasSizes = false := by
  cases e <;> first | rfl | cases h

@[simp] theorem Expr.hasSizes_identifier (name : String) :
    (Expr.identifier name p).hasSizes = false := rfl

@[simp] theorem Expr.hasSizes_qualified (language name : String) (path : List String) :
    (Expr.qualified language path name p).hasSizes = false := rfl

@[simp] theorem Expr.hasSizes_languageCall (language function : String) (es : List Expr) :
    (Expr.languageCall language function es p).hasSizes = exprsHaveSizes es := rfl

@[simp] theorem Expr.hasSizes_builtinCall (name : String) (es : List Expr) :
    (Expr.builtinCall name es p).hasSizes = exprsHaveSizes es := rfl

@[simp] theorem Expr.hasSizes_array (es : List Expr) :
    (Expr.array es p).hasSizes = exprsHaveSizes es := rfl

@[simp] theorem Expr.hasSizes_object (entries : List ObjectEntry) :
    (Expr.object entries p).hasSizes = entriesHaveSizes entries := rfl

@[simp] theorem Expr.hasSizes_bitstring (ss : List BitSegment) :
    (Expr.bitstring ss p).hasSizes = segmentsHaveSizes ss := rfl

@[simp] theorem Expr.hasSizes_grouped (e : Expr) : (Expr.grouped e p).hasSizes = e.hasSizes := rfl

@[simp] theorem Expr.hasSizes_unary (op : UnaryOp) (e : Expr) :
    (Expr.unary op e p).hasSizes = e.hasSizes := rfl

@[simp] theorem Expr.hasSizes_fieldAccess (e : Expr) (field : String) :
    (Expr.fieldAccess e field p).hasSizes = e.hasSizes := rfl

@[simp] theorem Expr.hasSizes_index (e place : Expr) :
    (Expr.index e place p).hasSizes = (e.hasSizes || place.hasSizes) :=
  (List.any_append : (e.within ++ place.within).any _ = _)

@[simp] theorem Expr.hasSizes_binary (left right : Expr) (op : BinaryOp) :
    (Expr.binary left op right p).hasSizes = (left.hasSizes || right.hasSizes) :=
  (List.any_append : (left.within ++ right.within).any _ = _)

@[simp] theorem Expr.hasSizes_elvis (e fallback : Expr) :
    (Expr.elvis e fallback p).hasSizes = (e.hasSizes || fallback.hasSizes) :=
  (List.any_append : (e.within ++ fallback.within).any _ = _)

@[simp] theorem Expr.hasSizes_ternary (e onTrue onFalse : Expr) :
    (Expr.ternary e onTrue onFalse p).hasSizes =
      (e.hasSizes || (onTrue.hasSizes || onFalse.hasSizes)) := by
  change (e.within ++ onTrue.within ++ onFalse.within).any Expr.sizesSegments = _
  rw [List.any_append, List.any_append, Bool.or_assoc]
  rfl

theorem exprsHaveSizes_concat (es : List Expr) (e : Expr) :
    exprsHaveSizes (es ++ [e]) = (exprsHaveSizes es || e.hasSizes) := by
  rw [exprsHaveSizes, exprsWithin_concat, List.any_append]
  rfl

theorem entriesHaveSizes_concat (entries : List ObjectEntry) (key : ObjectKey) (e : Expr) :
    entriesHaveSizes (entries ++ [ObjectEntry.mk key e]) =
      (entriesHaveSizes entries || e.hasSizes) := by
  rw [entriesHaveSizes, entriesWithin_concat, List.any_append]
  rfl

/-- Where a segment has a size, those in its value and in its size add nothing. -/
theorem segmentsHaveSizes_concat (ss : List BitSegment) (value : Expr) (size : Option Expr)
    (dynamicSize : Bool) (specifiers : List String) :
    segmentsHaveSizes (ss ++ [BitSegment.mk value size dynamicSize specifiers p]) =
      (segmentsHaveSizes ss || (value.hasSizes || size.isSome)) := by
  rw [segmentsHaveSizes, segmentsHaveSizes, segmentsWithin_concat, Expr.hasSizes]
  cases size with
  | none => simp [sizeWithin, BitSegment.size, Bool.or_assoc]
  | some size => simp [BitSegment.size]

end

namespace Parse

variable {α β : Type} {env : Env} {g : Grammar} {m : Bool}

/-! ### Keeping the mode -/

/-- The mode of the lexer. -/
def State.sizeMode (s : State) : Bool := s.buffer.lexer.sizeMode

/-- The mode is the same behind a parser that succeeds. -/
def Keeps (env : Env) (p : Parse α) : Prop :=
  ∀ s a t, p env s = .ok a t → t.sizeMode = s.sizeMode

namespace Keeps

theorem pure (a : α) : Keeps env (pure a) := by
  intro s b t hrun
  cases hrun
  rfl

theorem throw (e : ParseError) : Keeps env (throw e : Parse α) := by
  intro s a t hrun
  cases hrun

theorem bind {p : Parse β} {f : β → Parse α} (hp : Keeps env p) (hf : ∀ b, Keeps env (f b)) :
    Keeps env (p >>= f) := by
  intro s a t hrun
  rcases ok_of_bind hrun with ⟨b, u, hfirst, hrest⟩
  exact (hf b u a t hrest).trans (hp s b u hfirst)

theorem ite {c : Prop} [Decidable c] {p q : Parse α} (hp : Keeps env p) (hq : Keeps env q) :
    Keeps env (if c then p else q) := by
  split
  · exact hp
  · exact hq

theorem loop {step : β → Parse (β ⊕ α)} (h : ∀ b, Keeps env (step b)) (start : β) :
    Keeps env (loop start step) := by
  have hiterate : ∀ n b, Keeps env (iterate step n b) := by
    intro n
    induction n with
    | zero =>
        intro b s a t hrun
        cases hrun
    | succ n ih =>
        intro b
        refine .bind (h b) fun r => ?_
        cases r with
        | inl next => exact ih next
        | inr a => exact .pure a
  exact fun s a t hrun => hiterate _ start s a t hrun

end Keeps

theorem keeps_peekKind (n : Nat) : Keeps env (peekKind n) := by
  intro s a t hrun
  cases hrun
  exact TokenBuffer.sizeMode_readMore _ _

theorem keeps_current : Keeps env current := by
  intro s a t hrun
  cases hrun
  exact TokenBuffer.sizeMode_readMore _ _

theorem keeps_consume : Keeps env consume := by
  intro s a t hrun
  cases hrun
  exact TokenBuffer.sizeMode_readMore _ _

theorem keeps_languages : Keeps env languages := by
  intro s a t hrun
  cases hrun
  rfl

theorem keeps_check (kind : Kind) : Keeps env (check kind) :=
  (keeps_peekKind 0).bind fun _ => .pure _

theorem keeps_unexpected (expected : String) : Keeps env (unexpected expected : Parse α) :=
  keeps_current.bind fun _ => .throw _

theorem keeps_expect (kind : Kind) : Keeps env (expect kind) :=
  (keeps_check kind).bind fun _ => .ite keeps_consume (keeps_unexpected _)

theorem keeps_expectClosing (opening : Token) (closer : Kind) :
    Keeps env (expectClosing opening closer) :=
  (keeps_check closer).bind fun _ => .ite keeps_consume (keeps_current.bind fun _ => .throw _)

theorem keeps_skipNewlines : Keeps env skipNewlines :=
  .loop (fun _ => (keeps_check _).bind fun _ =>
    .ite (keeps_consume.bind fun _ => .pure _) (.pure _)) _

theorem keeps_memberName : Keeps env memberName :=
  (keeps_peekKind 0).bind fun _ => .ite keeps_consume (keeps_unexpected _)

theorem keeps_segments : Keeps env segments :=
  .loop (fun _ => (keeps_check _).bind fun _ =>
    .ite (keeps_consume.bind fun _ => keeps_memberName.bind fun _ => .pure _) (.pure _)) _

theorem keeps_chainEndsInCall : Keeps env chainEndsInCall := by
  intro s a t hrun
  rcases scans_chainEndsInCall env s with ⟨b, u, ⟨n, rfl⟩, hscan⟩ | ⟨u, -, hfail⟩
  · cases (hscan env.guard).symm.trans hrun
    exact TokenBuffer.sizeMode_readMore _ _
  · cases (hfail env.guard).symm.trans hrun

theorem keeps_literal : Keeps env literal := by
  intro s a t hrun
  rw [literal_run] at hrun
  split at hrun
  · cases hrun
    exact TokenBuffer.sizeMode_readMore _ _
  · cases hrun

theorem keeps_specifierList (start : List String) : Keeps env (specifierList start) := by
  rw [specifierList_eq]
  refine .loop (fun acc => (keeps_expect _).bind fun atom => (keeps_check _).bind fun _ => ?_) _
  have hrest : ∀ names : List String, Keeps env (do
      if ← check .minus then
        let _ ← consume
        return .inl (acc ++ names)
      else return .inr (acc ++ names) : Parse (List String ⊕ List String)) := fun names =>
    (keeps_check _).bind fun _ => .ite (keeps_consume.bind fun _ => .pure _) (.pure _)
  exact .ite (keeps_consume.bind fun _ => keeps_current.bind fun _ =>
    .ite (keeps_consume.bind fun _ => hrest _) (.bind (.throw _) hrest)) (hrest _)

theorem keeps_specifierLists : Keeps env specifierLists :=
  .loop (fun _ => (keeps_check _).bind fun _ => .ite (keeps_consume.bind fun _ =>
    (keeps_specifierList _).bind fun _ => .pure _) (.pure _)) _

/-! ### Leaving a mode -/

/-- From a state in a mode, a parser that succeeds comes to a value and leaves a mode which
    satisfy a condition. -/
def Leaves (env : Env) (m : Bool) (p : Parse α) (Q : α → Bool → Prop) : Prop :=
  ∀ s a t, s.sizeMode = m → p env s = .ok a t → Q a t.sizeMode

namespace Leaves

variable {p : Parse α} {Q : α → Bool → Prop}

theorem pure {a : α} (h : Q a m) : Leaves env m (pure a) Q := by
  intro s b t hs hrun
  cases hrun
  rwa [hs]

theorem throw {e : ParseError} : Leaves env m (throw e : Parse α) Q := by
  intro s a t _ hrun
  cases hrun

theorem bind {p : Parse β} {f : β → Parse α} {R : β → Bool → Prop} (h : Leaves env m p R)
    (hf : ∀ b k, R b k → Leaves env k (f b) Q) : Leaves env m (p >>= f) Q := by
  intro s a t hs hrun
  rcases ok_of_bind hrun with ⟨b, u, hfirst, hrest⟩
  exact hf b u.sizeMode (h s b u hs hfirst) u a t rfl hrest

theorem ite {c : Prop} [Decidable c] {q : Parse α} (hp : c → Leaves env m p Q)
    (hq : ¬c → Leaves env m q Q) : Leaves env m (if c then p else q) Q := by
  split
  · exact hp ‹_›
  · exact hq ‹_›

/-- What keeps the mode may be passed over. -/
theorem past {p : Parse β} {f : β → Parse α} (hp : Keeps env p) (h : ∀ b, Leaves env m (f b) Q) :
    Leaves env m (p >>= f) Q :=
  .bind (R := fun _ k => k = m) (fun s b t hs hrun => (hp s b t hrun).trans hs) fun b _ hk =>
    hk ▸ h b

theorem ite_check {kind : Kind} {q : Parse α} (hp : Leaves env m p Q) (hq : Leaves env m q Q) :
    Leaves env m (check kind >>= fun c => if c = true then p else q) Q :=
  .past (keeps_check kind) fun _ => .ite (fun _ => hp) fun _ => hq

theorem nested (h : Leaves env m p Q) : Leaves env m (nested p) Q := by
  intro s a t hs hrun
  rcases ok_of_nested hrun with ⟨-, u, hinner, rfl⟩
  refine h _ a u ?_ hinner
  exact (TokenBuffer.sizeMode_readMore _ _).trans hs

/-- Behind a parser that was run in size mode the mode is off. -/
theorem inSizeMode (h : ∀ a, Q a false) : Leaves env m (inSizeMode p) Q := by
  intro s a t _ hrun
  unfold Parse.inSizeMode around at hrun
  split at hrun
  · cases hrun
    rw [State.sizeMode, switchSizeMode, TokenBuffer.sizeMode_setSizeMode]
    exact h a
  · cases hrun

theorem loop {step : β → Parse (β ⊕ α)} {I : β → Bool → Prop} {start : β} (hstart : I start m)
    (h : ∀ b k, I b k → Leaves env k (step b) fun r l => r.elim (fun b => I b l) fun a => Q a l) :
    Leaves env m (loop start step) Q := by
  have hiterate : ∀ n b k, I b k → Leaves env k (iterate step n b) Q := by
    intro n
    induction n with
    | zero =>
        intro b k _ s a t _ hrun
        cases hrun
    | succ n ih =>
        intro b k hb
        refine (h b k hb).bind fun r l hr => ?_
        cases r with
        | inl next => exact ih next l hr
        | inr a => exact .pure hr
  exact fun s a t hs hrun => hiterate _ start m hstart s a t hs hrun

theorem commaList {closer : Kind} {item : α → Parse α} {I : α → Bool → Prop} {start : α}
    (hstart : I start m) (h : ∀ a k, I a k → Leaves env k (item a) I) :
    Leaves env m (commaList closer start item) I := by
  refine .past keeps_skipNewlines fun _ => .loop (I := I) hstart fun a k ha => ?_
  refine .ite_check (.pure ha) ((h a k ha).bind fun b l hb => ?_)
  refine .past keeps_skipNewlines fun _ => .ite_check ?_ (.pure hb)
  exact .past keeps_consume fun _ => .past keeps_skipNewlines fun _ => .pure hb

end Leaves

/-! ### Rules -/

/-- Size mode is on behind the parts of expressions if it was before and they have no sizes. -/
structure LeavesSizes (env : Env) (g : Grammar) : Prop where
  expression : ∀ m, Leaves env m g.expression fun e k => k = (m && !e.hasSizes)
  operand : ∀ m, Leaves env m g.operand fun e k => k = (m && !e.hasSizes)

/-- Size mode after one part and then another. -/
theorem sizeMode_behind (m a b : Bool) : ((m && !a) && !b) = (m && !(a || b)) := by
  rw [Bool.and_assoc, Bool.not_or]

theorem leaves_literal : Leaves env m literal fun e k => k = (m && !e.hasSizes) := by
  intro s e t hs hrun
  have hkeeps := keeps_literal s e t hrun
  rw [literal_run] at hrun
  split at hrun
  · rename_i hliteral
    cases hrun
    rw [Expr.hasSizes_of_isLiteral (isLiteral_of_literalOf hliteral), hkeeps, hs]
    simp
  · cases hrun

theorem leaves_identifier : Leaves env m identifier fun e k => k = (m && !e.hasSizes) :=
  .past keeps_consume fun _ => .pure (by simp)

section

variable (hg : LeavesSizes env g)

include hg

/-! ### Names and calls -/

theorem leaves_argument : Leaves env m (argument g) fun e k => k = (m && !e.hasSizes) :=
  .past (keeps_peekKind 1) fun _ => .past (keeps_peekKind 0) fun _ => .ite (fun _ => leaves_literal)
    fun _ => .ite (fun _ => leaves_identifier) fun _ => hg.expression m

omit hg in
/-- The items of a list are read one after the other. -/
theorem leaves_expressions {closer : Kind} {item : Parse Expr}
    (h : ∀ m, Leaves env m item fun e k => k = (m && !e.hasSizes)) :
    Leaves env m (commaList closer [] fun acc => return acc ++ [← item])
      fun es k => k = (m && !exprsHaveSizes es) := by
  refine .commaList (by simp [exprsHaveSizes, exprsWithin]) fun es k hes => ?_
  refine (h k).bind fun e l he => .pure ?_
  rw [he, hes, exprsHaveSizes_concat, sizeMode_behind]

theorem leaves_callArguments :
    Leaves env m (callArguments g) fun es k => k = (m && !exprsHaveSizes es) :=
  .past (keeps_expect _) fun _ => (leaves_expressions fun _ => leaves_argument hg).bind
    fun _ _ hes => .past (keeps_expectClosing _ _) fun _ => .pure hes

theorem leaves_guestChain : Leaves env m (guestChain g) fun e k => k = (m && !e.hasSizes) := by
  refine .past keeps_consume fun head => .past keeps_languages fun table => ?_
  cases table.resolveAt head.text head.position with
  | error => exact .throw
  | ok language =>
      refine .past keeps_segments fun names => .ite_check ?_ ?_
      · exact (leaves_callArguments hg).bind fun _ _ hes => .pure hes
      · cases names.getLast? with
        | none => exact .past keeps_current fun _ => .throw
        | some name => exact .pure (by simp)

theorem leaves_reference : Leaves env m (reference g) fun e k => k = (m && !e.hasSizes) := by
  refine .past keeps_current fun _ => .past keeps_languages fun _ => .past (keeps_peekKind 1)
    fun _ => ?_
  split
  · exact .ite (fun _ => leaves_guestChain hg) fun _ => .past keeps_chainEndsInCall fun _ =>
      .ite (fun _ => .throw) fun _ => leaves_identifier
  · refine .ite (fun _ => ?_) fun _ => .ite (fun _ => ?_) fun _ => leaves_identifier
    · exact .past keeps_consume fun _ => (leaves_callArguments hg).bind fun _ _ hes => .pure hes
    · exact .past keeps_consume fun _ => .past keeps_current fun _ => .throw

/-! ### Segments -/

theorem leaves_grouped : Leaves env m (grouped g) fun e k => k = (m && !e.hasSizes) :=
  .past (keeps_expect _) fun _ => .past keeps_skipNewlines fun _ => (hg.expression m).bind
    fun _ _ he => .past keeps_skipNewlines fun _ => .past (keeps_expectClosing _ _) fun _ =>
      .pure he

theorem leaves_segmentValue (inPattern : Bool) :
    Leaves env m (segmentValue g inPattern) fun e k => k = (m && !e.hasSizes) := by
  refine .past keeps_current fun _ => ?_
  split
  · exact leaves_literal
  · exact leaves_literal
  · refine .past (keeps_peekKind 1) fun _ => .ite (fun _ => ?_) fun _ => .throw
    exact .past keeps_consume fun _ => leaves_literal.bind fun _ _ he => .pure he
  · refine .ite (fun _ => .past (keeps_peekKind 1) fun _ => ?_) fun _ => leaves_reference hg
    exact .ite (fun _ => leaves_reference hg) fun _ => leaves_identifier
  · exact leaves_reference hg
  · exact leaves_grouped hg
  · exact .ite (fun _ => .past keeps_consume fun _ => .pure (by simp)) fun _ => .throw
  · exact .throw

/-- Within its size a segment is like any other place. -/
theorem leaves_segmentSize :
    Leaves env m (segmentSize g) fun e k => k = (m && !e.hasSizes) := by
  refine .past keeps_current fun _ => ?_
  split
  · exact leaves_literal
  · exact leaves_reference hg
  · exact leaves_reference hg
  · exact leaves_grouped hg
  · exact .throw

omit hg in
theorem leaves_sizeClause :
    Leaves env m (sizeClause g) fun size k => k = (m && !size.isSome) := by
  refine .ite_check (.past keeps_consume fun _ => ?_) (.pure (by simp))
  exact .bind (R := fun _ k => k = false) (.inSizeMode fun _ => rfl) fun _ _ hk =>
    .pure (by simp [hk])

/-- Behind a list of segments, size mode is on if it was on before and no segment has a size. -/
theorem leaves_segmentList (inPattern : Bool) :
    Leaves env m (segmentList g inPattern) fun ss k => k = (m && !segmentsHaveSizes ss) := by
  refine .past keeps_skipNewlines fun _ => .ite_check (.pure (by
    simp [segmentsHaveSizes, segmentsWithin])) ?_
  refine .loop (I := fun ss k => k = (m && !segmentsHaveSizes ss)) (by
    simp [segmentsHaveSizes, segmentsWithin]) fun ss k hss => ?_
  refine Leaves.bind (R := fun s l => l = (m && !segmentsHaveSizes (ss ++ [s]))) ?_
    fun s l hs => .past keeps_skipNewlines fun _ => .ite_check ?_ (.pure hs)
  · refine (leaves_segmentValue hg inPattern).bind fun value l hvalue => leaves_sizeClause.bind
      fun size n hsize => .past keeps_specifierLists fun _ => .pure ?_
    rw [hsize, hvalue, hss, segmentsHaveSizes_concat, sizeMode_behind, sizeMode_behind]
  · exact .past keeps_consume fun _ => .past keeps_skipNewlines fun _ =>
      .ite_check (.past keeps_current fun _ => .throw) (.pure hs)

theorem leaves_bitstring (inPattern : Bool) :
    Leaves env m (bitstring g inPattern) fun r k => k = (m && !segmentsHaveSizes r.1) :=
  .past (keeps_expect _) fun _ => .nested ((leaves_segmentList hg inPattern).bind fun _ _ hss =>
    .past keeps_current fun _ => .ite (fun _ => .past (keeps_expectClosing _ _) fun _ => .pure hss)
      fun _ => .throw)

/-! ### Expressions -/

theorem leaves_arrayLiteral : Leaves env m (arrayLiteral g) fun e k => k = (m && !e.hasSizes) :=
  .past (keeps_expect _) fun _ => (leaves_expressions hg.expression).bind fun _ _ hes =>
    .past (keeps_expectClosing _ _) fun _ => .pure hes

/-- Behind an object literal, size mode is on if it was on before and no entry has a size. The
    entries are read in turn, each in the mode that those before it leave. -/
theorem leaves_objectLiteral :
    Leaves env m (objectLiteral g) fun e k => k = (m && !e.hasSizes) := by
  refine .past (keeps_expect _) fun _ => Leaves.bind
    (R := fun entries k => k = (m && !entriesHaveSizes entries)) ?_
    fun _ _ hentries => .past (keeps_expectClosing _ _) fun _ => .pure hentries
  refine .commaList (by simp [entriesHaveSizes, entriesWithin]) fun entries k hentries => ?_
  refine Leaves.bind (R := fun entry l => l = (m && !entriesHaveSizes (entries ++ [entry]))) ?_
    fun _ _ hentry => .pure hentry
  refine .past keeps_current fun token => ?_
  cases objectKey token with
  | error => exact .throw
  | ok key =>
      refine .past keeps_consume fun _ => .past (keeps_expect _) fun _ =>
        .past keeps_skipNewlines fun _ => (hg.expression k).bind fun e l he => .pure ?_
      rw [he, hentries, entriesHaveSizes_concat, sizeMode_behind]

/-- Behind a primary expression, size mode is on if it was on before and no size was in it. -/
theorem leaves_primary : Leaves env m (primary g) fun e k => k = (m && !e.hasSizes) := by
  refine .past keeps_current fun _ => ?_
  split
  · exact leaves_literal
  · exact leaves_literal
  · exact leaves_literal
  · exact leaves_literal
  · exact leaves_literal
  · exact leaves_reference hg
  · exact leaves_reference hg
  · exact leaves_grouped hg
  · exact leaves_arrayLiteral hg
  · exact leaves_objectLiteral hg
  · exact (leaves_bitstring hg false).bind fun _ _ hss => .pure hss
  · exact .throw

/-- The operand in front of its suffixes has left a mode already. -/
theorem leaves_suffixes {k : Bool} {e : Expr} (he : k = (m && !e.hasSizes)) :
    Leaves env k (suffixes g e) fun e l => l = (m && !e.hasSizes) := by
  refine .loop (I := fun e k => k = (m && !e.hasSizes)) he fun host k hhost => ?_
  refine .past (keeps_peekKind 0) fun _ => ?_
  split
  · refine .past keeps_consume fun _ => .past keeps_skipNewlines fun _ => (hg.expression k).bind
      fun place l hplace => .past keeps_skipNewlines fun _ =>
        .past (keeps_expectClosing _ _) fun _ => .pure ?_
    change l = (m && !(Expr.index _ _ _).hasSizes)
    rw [hplace, hhost, Expr.hasSizes_index, sizeMode_behind]
  · exact .past keeps_consume fun _ => .past keeps_memberName fun _ =>
      .ite_check .throw (.pure hhost)
  · exact .pure hhost

theorem leaves_operand : Leaves env m (operand g) fun e k => k = (m && !e.hasSizes) := by
  refine .past (keeps_peekKind 0) fun _ => ?_
  split
  · exact .past keeps_consume fun _ => (Leaves.nested (hg.operand m)).bind fun _ _ he => .pure he
  · exact (leaves_primary hg).bind fun _ _ he => leaves_suffixes hg he

/-- Behind a chain of operators, size mode is on if it was on before and no operand has a size in
    it. -/
theorem leaves_binary (levels least : Nat) :
    Leaves env m (binary g levels least) fun e k => k = (m && !e.hasSizes) := by
  induction levels generalizing least m with
  | zero => exact leaves_operand hg
  | succ levels ih =>
      refine (leaves_operand hg).bind fun first k hfirst =>
        .loop (I := fun e k => k = (m && !e.hasSizes)) hfirst fun left k hleft =>
          .past (keeps_peekKind 0) fun _ => ?_
      split
      · refine .ite (fun _ => .pure hleft) fun _ => .past keeps_consume fun _ =>
          .past keeps_skipNewlines fun _ => (ih _).bind fun right l hright => .pure ?_
        change l = (m && !(Expr.binary _ _ _ _).hasSizes)
        rw [hright, hleft, Expr.hasSizes_binary, sizeMode_behind]
      · exact .pure hleft

theorem leaves_conditionalTail {k : Bool} {e : Expr} (he : k = (m && !e.hasSizes)) :
    Leaves env k (conditionalTail g e) fun e l => l = (m && !e.hasSizes) := by
  refine .ite_check (.past keeps_consume fun _ => .ite_check ?_ ?_) (.pure he)
  · refine .past keeps_consume fun _ => .past keeps_skipNewlines fun _ =>
      (hg.expression k).bind fun fallback l hfallback => .pure ?_
    rw [hfallback, he, Expr.hasSizes_elvis, sizeMode_behind]
  · refine .past keeps_skipNewlines fun _ => (hg.expression k).bind fun onTrue l htrue =>
      .past keeps_skipNewlines fun _ => .past (keeps_expect _) fun _ =>
        .past keeps_skipNewlines fun _ => (hg.expression l).bind fun onFalse n hfalse => .pure ?_
    rw [hfalse, htrue, he, Expr.hasSizes_ternary, sizeMode_behind, sizeMode_behind]

theorem leaves_expression : Leaves env m (expression g) fun e k => k = (m && !e.hasSizes) :=
  .nested ((leaves_binary hg 7 1).bind fun _ _ he => leaves_conditionalTail hg he)

end

/-- Every level of the grammar leaves a mode that can be told from what it returns. -/
theorem leavesSizes_level (registry : Registry) (n : Nat) :
    LeavesSizes env (Grammar.level registry n) := by
  induction n with
  | zero => exact ⟨fun _ _ _ _ _ hrun => (by cases hrun), fun _ _ _ _ _ hrun => (by cases hrun)⟩
  | succ n ih => exact ⟨fun _ => leaves_expression ih, fun _ => leaves_operand ih⟩

end Parse

end PolyScript
