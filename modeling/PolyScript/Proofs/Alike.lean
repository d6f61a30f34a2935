import PolyScript.Proofs.LastToken
import PolyScript.Proofs.Shift
import PolyScript.Proofs.TreePositions

/-!
# How Rules Are Composed

Most facts about whole parses are proved in the same way: they hold of the few
operations that touch the state, and every rule of the grammar is put together
from those. `Parse.Alike` says how it is put together, once and for all, so that
the rules need not be gone through again for every such fact.

The derivations relate two parsers that are put together in the same way over two
grammars, the second of them working on a text that was moved by some distance.
The first one alone is what a fact about single parses is about. Along with it
goes a `View`, what is known at each point of a rule: the kinds of the tokens
ahead, how many brackets were opened, whether the rule stands inside a bit
string. Operations that are harmless only under some condition, such as taking a
token of unknown kind, ask for that condition.

The second text may go on where the first one ends, with a newline. So a view
also says whether the first parser has come to the end of its text and the
second has been left behind. Such a parser can only fail, or come to its own end
without taking anything more.

## Main definitions

* `Kind.shape`: Brackets, ends, pieces of dashed names, and the rest.
* `LanguageTable.Same`: Tables of languages that give the same answers.
* `Parse.View`: What is known at a point of a rule.
* `Parse.Survey`: The look-aheads of unbounded length.
* `Parse.Alike`: Two parsers are put together in the same way.

## Theorems

* `Parse.Alike.ite_check`, `Parse.Alike.look`, `Parse.Alike.skip`: Derivations
  for the forms that rules use all the time.
* `Parse.alike_commaList`: Lists in brackets.
-/

namespace PolyScript

/-! ### Kinds -/

/-- What matters of a token besides its exact kind. -/
inductive TokenShape where
  | opener
  | closer
  | lineEnd
  | textEnd
  /-- What a name with dashes in it may be split into. -/
  | piece
  | mark
  deriving DecidableEq

/-- The shape of the tokens of a kind. -/
def Kind.shape : Kind → TokenShape
  | .leftParen | .leftBracket | .leftBrace | .bitOpen => .opener
  | .rightParen | .rightBracket | .rightBrace | .bitClose => .closer
  | .newline => .lineEnd
  | .endOfInput => .textEnd
  | .identifier | .language | .underscore | .minus | .kwTrue | .kwFalse | .kwNil | .kwIf
  | .kwElse | .kwFor | .kwIn | .kwWhile | .kwBreak | .kwContinue | .kwMatch => .piece
  | _ => .mark

theorem Kind.ne_of_shape {kind : Kind} (hline : kind.shape ≠ .lineEnd)
    (htext : kind.shape ≠ .textEnd) : kind ≠ .newline ∧ kind ≠ .endOfInput := by
  constructor
  · rintro rfl
    exact hline rfl
  · rintro rfl
    exact htext rfl

theorem Kind.ne_of_piece {kind : Kind} (h : kind.shape = .piece) :
    kind ≠ .newline ∧ kind ≠ .endOfInput :=
  ne_of_shape (by rw [h]; decide) (by rw [h]; decide)

/-- An error that a rule raises by itself, at places that have a property. -/
def ParseError.Ordinary (P : Position → Prop) : ParseError → Prop
  | .tooDeep .. | .lexical _ => False
  | e => e.Within P

theorem ParseError.ordinary_unexpectedToken {P : Position → Prop} {t : Token} (h : P t.position)
    (expected : String) : (ParseError.unexpectedToken expected t).Ordinary P := by
  intro p hp
  rw [List.mem_singleton.1 hp]
  exact h

/-- An error that a rule raises by itself at a token. -/
def ParseError.StandsAt (P : Position → Prop) (t : Token) (e : ParseError) : Prop :=
  e.position = t.position ∧ e.Ordinary fun p => P p ∨ p = t.position

theorem ParseError.standsAt_unexpectedToken {P : Position → Prop} (t : Token) (expected : String) :
    (ParseError.unexpectedToken expected t).StandsAt P t :=
  ⟨rfl, ordinary_unexpectedToken (.inr rfl) expected⟩

/-! ### Languages -/

/-- Two tables give the same answers. -/
structure LanguageTable.Same (table table' : LanguageTable) : Prop where
  resolve? : ∀ name, table.resolve? name = table'.resolve? name
  constructFor? : ∀ name next endsInCall,
    table.constructFor? name next endsInCall = table'.constructFor? name next endsInCall

theorem LanguageTable.Same.symm {table table' : LanguageTable} (h : table.Same table') :
    table'.Same table :=
  ⟨fun name => (h.resolve? name).symm, fun name next endsInCall =>
    (h.constructFor? name next endsInCall).symm⟩

theorem LanguageTable.Same.isLanguage {table table' : LanguageTable} (h : table.Same table')
    (name : String) : table.isLanguage name = table'.isLanguage name := by
  rw [LanguageTable.isLanguage, LanguageTable.isLanguage, h.resolve?]

theorem LanguageTable.Same.resolveAt {table table' : LanguageTable} (h : table.Same table')
    (name : String) (p : Position) : table.resolveAt name p = table'.resolveAt name p := by
  rw [LanguageTable.resolveAt, LanguageTable.resolveAt, h.resolve?]

namespace Parse

/-! ### Views -/

/-- Where a rule stands with regard to bit strings: outside, between the brackets
    of one, or in the size of a segment. -/
inductive Stage where
  | free
  | bits
  | size
  deriving DecidableEq

/-- The stage after an opening bracket. -/
def Stage.entering : Stage → Kind → Stage
  | .free, .bitOpen => .bits
  | stage, _ => stage

/-- What is known at a point of a rule. -/
structure View where
  /-- The kinds of the tokens ahead. Nothing is known of them once the parser is
      at the end of its text and its counterpart is left behind. -/
  ahead : Option (Nat → Kind)
  /-- Whether the current token may be in the middle of a name with dashes. -/
  loose : Bool
  /-- Whether guest code has been passed over. -/
  coded : Bool
  /-- How many brackets are open. -/
  opened : Nat
  stage : Stage

namespace View

/-- The kind of the token a number of places ahead. -/
def kind (γ : View) (n : Nat) : Kind :=
  match γ.ahead with
  | some κ => κ n
  | none => .endOfInput

/-- The view before tokens of certain kinds. -/
def seeing (γ : View) (κ : Nat → Kind) : View := { γ with ahead := some κ, loose := false }

/-- The view at the end of the text, with the counterpart left behind. -/
def spent (γ : View) : View := { γ with ahead := none, loose := false }

/-- The view from the start of a text. -/
def start (κ : Nat → Kind) : View := ⟨some κ, false, false, 0, .free⟩

/-- The view after an opening bracket. -/
def entering (γ : View) (kind : Kind) : View :=
  { γ with opened := γ.opened + 1, stage := γ.stage.entering kind }

/-- The view after a statement, which may contain guest code. -/
def coding (γ : View) (coded : Bool) : View := { γ with coded := γ.coded || coded }

/-- The view inside the size of a segment. -/
def sizing (γ : View) : View := { γ with stage := .size }

/-- The view is of known tokens, in step with the counterpart. -/
def Live (γ : View) : Prop := ∃ κ, γ = γ.seeing κ

@[simp] theorem kind_seeing (γ : View) (κ : Nat → Kind) (n : Nat) : (γ.seeing κ).kind n = κ n := rfl

@[simp] theorem kind_spent (γ : View) (n : Nat) : γ.spent.kind n = .endOfInput := rfl

theorem live_seeing (γ : View) (κ : Nat → Kind) : (γ.seeing κ).Live := ⟨κ, rfl⟩

theorem coding_false (γ : View) : γ.coding false = γ := by
  simp only [coding, Bool.or_false]

theorem coding_coding (γ : View) (a b : Bool) : (γ.coding a).coding b = γ.coding (a || b) := by
  simp only [coding, Bool.or_assoc]

end View

/-- The outcome of a rule that comes out in step with its counterpart. -/
def Settled {α : Type} (γ : View) (V : α → Prop) (a : α) (γ' : View) : Prop :=
  V a ∧ ∃ κ, γ' = γ.seeing κ

/-- The outcome of a rule that may leave its counterpart behind at the end of its
    text. -/
def Ended {α : Type} (γ : View) (V : α → Prop) (a : α) (γ' : View) : Prop :=
  V a ∧ (γ' = γ.spent ∨ ∃ κ, γ' = γ.seeing κ)

/-! ### Look-aheads of unbounded length -/

/-- Names with commas between them, and the keyword that ends the head of a loop
    over the items of something. -/
inductive LoopHead (κ : Nat → Kind) : Nat → Prop
  | last {i : Nat} : κ i = .identifier ∨ κ i = .underscore → κ (i + 1) = .kwIn → LoopHead κ i
  | more {i : Nat} : κ i = .identifier ∨ κ i = .underscore → κ (i + 1) = .comma →
    LoopHead κ (i + 2) → LoopHead κ i

/-- A kind comes next once newlines are passed over. -/
def NextIs (kind : Kind) (κ : Nat → Kind) : Prop :=
  ∃ n, κ n = kind ∧ ∀ i < n, κ i = .newline

/-- The look-aheads of unbounded length, and what their answers say. Looking past line
    ends is for statements, so it happens outside bit strings only. -/
inductive Survey (stage : Stage) (κ : Nat → Kind) : Parse Bool → (Bool → Prop) → Prop
  | call (hκ : (κ 0).shape = .piece) : Survey stage κ chainEndsInCall fun _ => True
  | captures (hκ : (κ 0).shape = .piece) : Survey stage κ capturesThenBrace fun _ => True
  | forIn (hκ : κ 0 = .kwFor) : Survey stage κ forInAhead fun b => b = true → LoopHead κ 1
  | assignment : Survey stage κ assignmentAhead fun _ => True
  | newlines {kind : Kind} (hstage : stage = .free) (hkind : kind = .pipe ∨ kind = .kwElse) :
    Survey stage κ (nextAfterNewlinesIs kind) fun b => b = true → NextIs kind κ

theorem Survey.scans {stage : Stage} {κ : Nat → Kind} {p : Parse Bool} {V : Bool → Prop}
    (h : Survey stage κ p V) : Scans p := by
  cases h with
  | call => exact scans_chainEndsInCall
  | captures => exact scans_capturesThenBrace
  | forIn => exact scans_forInAhead
  | assignment => exact scans_assignmentAhead
  | newlines => exact scans_nextAfterNewlinesIs _

/-! ### Guest code -/

/-- The body of a block of guest code, from its brace on. -/
def guestBody (language : String) (names : List String) (p : Position) : Attempt := do
  let opening ← expect .leftBrace
  let source := (← read).source
  match guestCodeAt? source opening.stop with
  | none =>
    throw (.unclosed .leftBrace opening.position Kind.endOfInput.describe
      (Position.after source.toList))
  | some (code, resume) =>
    resumeAt resume
    return some (.codeBlock language names code p)

/-- What becomes of the body of guest code, by what is found behind its brace. The lexer goes on
    at the place just past the closing brace, and without one the error stands at the end of the
    text. -/
theorem guestBody_run {env : Env} {s : State} (language : String) (names : List String)
    (p : Position) (hbrace : s.token.kind = .leftBrace) :
    guestBody language names p env s =
      match guestCodeAt? env.source s.token.stop with
      | none => .error (.unclosed .leftBrace s.token.position Kind.endOfInput.describe
          (Position.after env.source.toList)) s.advanced
      | some (code, resume) => .ok (some (.codeBlock language names code p))
          { s.advanced with buffer := s.advanced.buffer.restart s.advanced.cursor resume } := by
  have hread : (read : Parse Env) env s.advanced = .ok env s.advanced := rfl
  unfold guestBody
  rw [bind_run, expect_run, State.token_filled, State.advanced_filled, if_pos hbrace]
  simp only
  rw [bind_run, hread]
  simp only
  cases guestCodeAt? env.source s.token.stop <;> rfl

/-! ### Composition -/

/-- Two parsers are put together in the same way. The first is read against
    grammar `g`, the second against `g'`, and what the second yields is what the
    first yields, moved. Trees and errors of the first have their positions in
    `P`, and guest code is passed over only if `C` allows it. -/
inductive Alike (P : Position → Prop) (C : Prop) (δ : Shift) (g g' : Grammar) :
    View → {α : Type} → (α → α) → Parse α → Parse α → (α → View → Prop) → Prop
  | weaken {γ : View} {α : Type} {m : α → α} {p q : Parse α} {Q R : α → View → Prop} :
    Alike P C δ g g' γ m p q R → (∀ a γ', R a γ' → Q a γ') → Alike P C δ g g' γ m p q Q
  | pure {γ : View} {α : Type} {m : α → α} {a b : α} {Q : α → View → Prop} :
    b = m a → Q a γ → Alike P C δ g g' γ m (pure a) (pure b) Q
  | bind {γ : View} {α β : Type} {m : α → α} {n : β → β} {p q : Parse α} {f f' : α → Parse β}
    {R : α → View → Prop} {Q : β → View → Prop} :
    Alike P C δ g g' γ m p q R →
    (∀ a γ', R a γ' → Alike P C δ g g' γ' n (f a) (f' (m a)) Q) →
    Alike P C δ g g' γ n (p >>= f) (q >>= f') Q
  | throw {γ : View} {α : Type} {m : α → α} {e : ParseError} {q : Parse α}
    {Q : α → View → Prop} :
    e.Ordinary P → Alike P C δ g g' γ m (throw e) q Q
  /-- At the end of the text the counterpart may be left behind. -/
  | giveUp {γ : View} {α : Type} {m : α → α} {p q : Parse α} {Q : α → View → Prop} :
    γ.kind 0 = .endOfInput → Alike P C δ g g' γ.spent m p q Q → Alike P C δ g g' γ m p q Q
  /-- A parser that fails at the end of the text needs no counterpart there. -/
  | stop {γ : View} {α : Type} {m : α → α} {p q : Parse α} {Q : α → View → Prop} :
    γ.ahead = none → StopsAtEnd p →
    (∀ κ, κ 0 = .endOfInput → Alike P C δ g g' (γ.seeing κ) m p q Q) →
    Alike P C δ g g' γ m p q Q
  /-- Nor does one that takes the last token. -/
  | exhaust {γ : View} {α : Type} {m n : α → α} {p q r : Parse α} {Q R : α → View → Prop}
    {κ : Nat → Kind} :
    γ = γ.seeing κ → κ 0 ≠ .endOfInput → κ 1 = .endOfInput → Exhausts p →
    Alike P C δ g g' γ n p r R → (∀ a γ', R a γ' → Q a γ'.spent) →
    Alike P C δ g g' γ m p q Q
  | peek {γ : View} {α : Type} {m : α → α} {f f' : Kind → Parse α} {Q : α → View → Prop}
    (n : Nat) :
    γ.ahead = none ∨ (∀ i < n, γ.kind i ≠ .newline ∧ γ.kind i ≠ .endOfInput) →
    (γ.kind n = .endOfInput → γ.ahead = none ∨ f' .newline = f' .endOfInput) →
    Alike P C δ g g' γ m (f (γ.kind n)) (f' (γ.kind n)) Q →
    Alike P C δ g g' γ m (peekKind n >>= f) (peekKind n >>= f') Q
  | current {γ : View} {α : Type} {m : α → α} {f f' : Token → Parse α} {Q : α → View → Prop} :
    (γ.kind 0 = .endOfInput → γ.ahead = none ∨
      ∀ t u : Token, t.kind = .endOfInput → u.kind = .newline → f' u = f' t) →
    (∀ t : Token, t.kind = γ.kind 0 → (t.kind ≠ .endOfInput → P t.position) →
      Alike P C δ g g' γ m (f t) (f' (t.shift δ)) Q) →
    Alike P C δ g g' γ m (current >>= f) (current >>= f') Q
  /-- The end of the text is nothing to remember, so an error there is raised at
      once. -/
  | refuse {γ : View} {α : Type} {m : α → α} {f : Token → Parse α} {q : Parse α}
    {Q : α → View → Prop} :
    γ.kind 0 = .endOfInput →
    (∀ t : Token, t.kind = .endOfInput → ∃ e : ParseError, f t = throw e ∧ e.StandsAt P t) →
    Alike P C δ g g' γ m (current >>= f) q Q
  /-- Nothing but the answers of the table may matter. -/
  | languages {γ : View} {α : Type} {m : α → α} {f f' : LanguageTable → Parse α}
    {Q : α → View → Prop} :
    (∀ table table' : LanguageTable, table.Same table' → f table = f table') →
    (∀ table, Alike P C δ g g' γ m (f table) (f' table) Q) →
    Alike P C δ g g' γ m (languages >>= f) (languages >>= f') Q
  | state {γ : View} {α : Type} {m : α → α} {f h : Bool → Nat → Parse α}
    {Q : α → View → Prop} :
    (∀ isRelaxed loopDepth,
      Alike P C δ g g' γ m (f isRelaxed loopDepth) (h isRelaxed loopDepth) Q) →
    Alike P C δ g g' γ m (get >>= fun s => f s.isRelaxed s.loopDepth)
      (get >>= fun s => h s.isRelaxed s.loopDepth) Q
  | scan {γ : View} {κ : Nat → Kind} {p : Parse Bool} {V : Bool → Prop}
    {Q : Bool → View → Prop} :
    γ = γ.seeing κ → Survey γ.stage κ p V → (∀ b, V b → Q b γ) → Alike P C δ g g' γ id p p Q
  | allowed {γ : View} {Q R : Bool → View → Prop} :
    γ.Live → γ.stage = .free → Alike P C δ g g' γ id codeBlockAhead codeBlockAhead R →
    (∀ b γ', R b γ' → (b = true → C) → Q b γ') →
    Alike P C δ g g' γ id codeBlockAhead codeBlockAhead Q
  /-- Taking a token that is no bracket and no newline. -/
  | take {γ : View} {κ : Nat → Kind} {Q : Token → View → Prop} :
    γ.ahead = some κ → (κ 0).shape = .mark ∨ ((κ 0).shape = .piece ∧ γ.loose = false) →
    (∀ t : Token, t.kind = κ 0 → P t.position → Q t (γ.seeing fun i => κ (i + 1))) →
    Alike P C δ g g' γ (Token.shift δ) consume consume Q
  | takeOpener {γ : View} {κ : Nat → Kind} {Q : Token → View → Prop} :
    γ.ahead = some κ → (κ 0).shape = .opener →
    (∀ t : Token, t.kind = κ 0 → P t.position →
      Q t ((γ.entering (κ 0)).seeing fun i => κ (i + 1))) →
    Alike P C δ g g' γ (Token.shift δ) consume consume Q
  /-- Taking a newline. If the text ends behind it, the counterpart may have come
      to something else. -/
  | takeNewline {γ : View} {κ : Nat → Kind} {Q : Token → View → Prop} :
    γ.ahead = some κ → κ 0 = .newline →
    (∀ t, Q t (if κ 1 = .endOfInput then γ.spent else γ.seeing fun i => κ (i + 1))) →
    Alike P C δ g g' γ (Token.shift δ) consume consume Q
  | closing {γ : View} {o o' : Token} {kind : Kind} {n : Nat} {Q : Token → View → Prop}
    (stage : Stage) :
    kind.shape = .closer → P o.position → γ.opened = n + 1 →
    γ.stage = stage ∨ γ.stage = stage.entering .bitOpen →
    (∀ t κ, Q t ({ γ with opened := n, stage } |>.seeing κ)) →
    Alike P C δ g g' γ (Token.shift δ) (expectClosing o kind) (expectClosing o' kind) Q
  | literal {γ : View} {κ : Nat → Kind} {Q : Expr → View → Prop} :
    γ = γ.seeing κ → (κ 0).isLiteral = true →
    (∀ e : Expr, e.Within P → Q e (γ.seeing fun i => κ (i + 1))) →
    Alike P C δ g g' γ (Expr.shift δ) literal literal Q
  | loop {γ : View} {α β : Type} {m : α → α} {n : β → β} {a b : α} {f f' : α → Parse (α ⊕ β)}
    {I : α → View → Prop} {Q : β → View → Prop} :
    b = m a → I a γ →
    (∀ c γ', I c γ' → Alike P C δ g g' γ' (Sum.map m n) (f c) (f' (m c)) fun r γ'' =>
      Sum.elim (fun c => I c γ'') (fun c => Q c γ'') r) →
    Alike P C δ g g' γ n (loop a f) (loop b f') Q
  | nested {γ : View} {α : Type} {m : α → α} {p q : Parse α} {Q : α → View → Prop} :
    StopsAtEnd p → Alike P C δ g g' γ m p q Q → Alike P C δ g g' γ m (nested p) (nested q) Q
  | inLoop {γ : View} {α : Type} {m : α → α} {p q : Parse α} {Q : α → View → Prop} :
    Alike P C δ g g' γ m p q Q → Alike P C δ g g' γ m (inLoop p) (inLoop q) Q
  | terminators {γ : View} {α : Type} {m : α → α} {p q : Parse α} {Q : α → View → Prop}
    (isRelaxed : Bool) :
    Alike P C δ g g' γ m p q Q →
    Alike P C δ g g' γ m (withTerminators isRelaxed p) (withTerminators isRelaxed q) Q
  /-- A size is read again in its own mode, and so is what follows it. -/
  | size {γ : View} {α : Type} {m : α → α} {p q : Parse α} {V : α → Prop}
    {Q : α → View → Prop} :
    γ.Live → γ.stage ≠ .free →
    (∀ κ, Alike P C δ g g' (γ.sizing.seeing κ) m p q (Settled γ.sizing V)) →
    (∀ a κ, V a → Q a { γ.seeing κ with loose := true }) →
    Alike P C δ g g' γ m (inSizeMode p) (inSizeMode q) Q
  | expression {γ : View} {Q : Expr → View → Prop} :
    γ.Live → (∀ (e : Expr) (κ : Nat → Kind), e.Within P → Q e (γ.seeing κ)) →
    Alike P C δ g g' γ (Expr.shift δ) g.expression g'.expression Q
  | operand {γ : View} {Q : Expr → View → Prop} :
    γ.Live → (∀ (e : Expr) (κ : Nat → Kind), e.Within P → Q e (γ.seeing κ)) →
    Alike P C δ g g' γ (Expr.shift δ) g.operand g'.operand Q
  | pattern {γ : View} {Q : Pattern → View → Prop} :
    γ.Live → (∀ (p : Pattern) (κ : Nat → Kind), p.Within P → Q p (γ.seeing κ)) →
    Alike P C δ g g' γ (Pattern.shift δ) g.pattern g'.pattern Q
  | statement {γ : View} {Q : Statement → View → Prop} :
    γ.Live → γ.stage = .free → γ.kind 0 ≠ .newline →
    (∀ (s : Statement) (κ : Nat → Kind), s.Within P → Q s ((γ.coding s.hasCode).seeing κ)) →
    Alike P C δ g g' γ (Statement.shift δ) g.statement g'.statement Q
  | conditional {γ : View} {Q : Statement → View → Prop} :
    γ.Live → γ.stage = .free →
    (∀ (s : Statement) (κ : Nat → Kind), s.Within P → Q s ((γ.coding s.hasCode).seeing κ)) →
    Alike P C δ g g' γ (Statement.shift δ) g.conditional g'.conditional Q
  | guest {γ : View} {language : String} {names : List String} {p q : Position}
    {Q : Option Statement → View → Prop} :
    C → γ.Live → γ.stage = .free → P p →
    (∀ (s : Statement) (κ : Nat → Kind), s.Within P → s.hasCode = true →
      Q (some s) ((γ.coding true).seeing κ)) →
    Alike P C δ g g' γ (Option.map (Statement.shift δ)) (guestBody language names p)
      (guestBody language names q) Q

/-! ### Frequent forms -/

section Forms

variable {P : Position → Prop} {C : Prop} {δ : Shift} {g g' : Grammar} {γ : View} {α : Type}
  {m : α → α} {Q : α → View → Prop}

theorem Alike.ite {c : Prop} [Decidable c] {p q p' q' : Parse α}
    (ht : c → Alike P C δ g g' γ m p p' Q) (he : ¬c → Alike P C δ g g' γ m q q' Q) :
    Alike P C δ g g' γ m (if c then p else q) (if c then p' else q') Q := by
  by_cases h : c
  · simpa only [if_pos h] using ht h
  · simpa only [if_neg h] using he h

/-- A look at the kind of the current token. -/
theorem Alike.peekKind {f f' : Kind → Parse α}
    (hend : γ.kind 0 = .endOfInput → γ.ahead = none ∨ f' .newline = f' .endOfInput)
    (h : Alike P C δ g g' γ m (f (γ.kind 0)) (f' (γ.kind 0)) Q) :
    Alike P C δ g g' γ m (Parse.peekKind 0 >>= f) (Parse.peekKind 0 >>= f') Q :=
  .peek 0 (.inr fun i hi => absurd hi (Nat.not_lt_zero i)) hend h

/-- A look at the kind of the token after the current one. -/
theorem Alike.peekNext {f f' : Kind → Parse α} {κ : Nat → Kind}
    (hκ : κ 0 ≠ .newline ∧ κ 0 ≠ .endOfInput)
    (hend : κ 1 = .endOfInput → f' .newline = f' .endOfInput)
    (h : Alike P C δ g g' (γ.seeing κ) m (f (κ 1)) (f' (κ 1)) Q) :
    Alike P C δ g g' (γ.seeing κ) m (Parse.peekKind 1 >>= f) (Parse.peekKind 1 >>= f') Q := by
  refine .peek 1 (.inr fun i hi => ?_) (fun hlast => .inr (hend hlast)) h
  rw [Nat.lt_one_iff.1 hi]
  exact hκ

/-- Checking the kind of the token ahead takes the branch that the view decides. Where the text
    may be over, the check must not tell a line end from the end. -/
theorem Alike.check {kind : Kind} {f f' : Bool → Parse α}
    (hkind : γ.kind 0 = .endOfInput → γ.ahead = none ∨ (kind ≠ .newline ∧ kind ≠ .endOfInput))
    (h : Alike P C δ g g' γ m (f (decide (γ.kind 0 = kind))) (f' (decide (γ.kind 0 = kind))) Q) :
    Alike P C δ g g' γ m (check kind >>= f) (check kind >>= f') Q := by
  refine Alike.bind (R := fun b γ' => b = decide (γ.kind 0 = kind) ∧ γ' = γ) (m := id)
    (Alike.peekKind (fun hend => ?_) (.pure rfl ⟨rfl, rfl⟩)) ?_
  · refine (hkind hend).imp id fun hne => ?_
    rw [decide_eq_false (Ne.symm hne.1), decide_eq_false (Ne.symm hne.2)]
  · rintro _ _ ⟨rfl, rfl⟩
    exact h

/-- A rule that depends on whether the current token is of a kind. -/
theorem Alike.ite_check {kind : Kind} {p q p' q' : Parse α}
    (hkind : kind ≠ .newline ∧ kind ≠ .endOfInput)
    (ht : γ.kind 0 = kind → Alike P C δ g g' γ m p p' Q)
    (he : γ.kind 0 ≠ kind → Alike P C δ g g' γ m q q' Q) :
    Alike P C δ g g' γ m (Parse.check kind >>= fun b => if b = true then p else q)
      (Parse.check kind >>= fun b => if b = true then p' else q') Q := by
  refine Alike.check (fun _ => .inr hkind) ?_
  by_cases h : γ.kind 0 = kind
  · simpa only [h, decide_true, if_true] using ht h
  · simpa only [h, decide_false, Bool.false_eq_true, if_false] using he h

/-- A look at the current token, which is not the end of the text. -/
theorem Alike.glance {f f' : Token → Parse α} (hend : γ.kind 0 ≠ .endOfInput)
    (h : ∀ t : Token, t.kind = γ.kind 0 → P t.position →
      Alike P C δ g g' γ m (f t) (f' (t.shift δ)) Q) :
    Alike P C δ g g' γ m (Parse.current >>= f) (Parse.current >>= f') Q :=
  .current (fun h => absurd h hend) fun t ht hP => h t ht (hP (by rw [ht]; exact hend))

/-- A rule that begins with a look at the current token, and that refuses the end
    of the text. -/
theorem Alike.look {f f' : Token → Parse α}
    (hend : ∀ t : Token, t.kind = .endOfInput →
      ∃ e : ParseError, f t = MonadExcept.throw e ∧ e.StandsAt P t)
    (h : γ.kind 0 ≠ .endOfInput → ∀ t : Token, t.kind = γ.kind 0 → P t.position →
      Alike P C δ g g' γ m (f t) (f' (t.shift δ)) Q) :
    Alike P C δ g g' γ m (Parse.current >>= f) (Parse.current >>= f') Q := by
  by_cases hkind : γ.kind 0 = .endOfInput
  · exact .refuse hkind hend
  · exact .glance hkind (h hkind)

theorem alike_unexpected (expected : String) :
    Alike P C δ g g' γ m (unexpected expected) (unexpected expected) Q :=
  .look (fun t _ => ⟨_, rfl, ParseError.standsAt_unexpectedToken t expected⟩)
    fun _ _ _ hP => .throw (ParseError.ordinary_unexpectedToken hP expected)

/-- Requiring a token that is no bracket and no newline. -/
theorem alike_expect {kind : Kind} (κ : Nat → Kind)
    (hkind : kind.shape = .mark ∨ kind.shape = .piece) :
    Alike P C δ g g' (γ.seeing κ) (Token.shift δ) (expect kind) (expect kind) fun t γ' =>
      κ 0 = kind ∧ P t.position ∧ γ' = γ.seeing fun i => κ (i + 1) := by
  refine .ite_check ?_ (fun h => ?_) fun _ => alike_unexpected _
  · rcases hkind with h | h <;> exact Kind.ne_of_shape (by rw [h]; decide) (by rw [h]; decide)
  · refine .take rfl ?_ fun t _ hP => ⟨h, hP, rfl⟩
    rw [View.kind_seeing] at h
    rw [h]
    exact hkind.imp id fun hpiece => ⟨hpiece, rfl⟩

/-- Requiring an opening bracket. -/
theorem alike_expectOpener {kind : Kind} (κ : Nat → Kind)
    (hkind : kind.shape = .opener) :
    Alike P C δ g g' (γ.seeing κ) (Token.shift δ) (expect kind) (expect kind) fun t γ' =>
      P t.position ∧ γ' = (γ.entering kind).seeing fun i => κ (i + 1) := by
  refine .ite_check ?_ (fun h => ?_) fun _ => alike_unexpected _
  · exact Kind.ne_of_shape (by rw [hkind]; decide) (by rw [hkind]; decide)
  · rw [View.kind_seeing] at h
    subst h
    exact .takeOpener rfl hkind fun t _ hP => ⟨hP, rfl⟩

/-- Taking a token that is known leaves the view that begins behind it. -/
theorem Alike.taking {f f' : Token → Parse α} {κ : Nat → Kind}
    (hκ : (κ 0).shape = .mark ∨ (κ 0).shape = .piece)
    (h : ∀ t : Token, t.kind = κ 0 → P t.position →
      Alike P C δ g g' (γ.seeing fun i => κ (i + 1)) m (f t) (f' (t.shift δ)) Q) :
    Alike P C δ g g' (γ.seeing κ) m (consume >>= f) (consume >>= f') Q := by
  refine .bind (.take (Q := fun t γ' => t.kind = κ 0 ∧ P t.position ∧ γ' = γ.seeing fun i =>
      κ (i + 1))
    rfl (hκ.imp id fun hpiece => ⟨hpiece, rfl⟩) fun t ht hP => ⟨ht, hP, rfl⟩) ?_
  rintro t _ ⟨ht, hP, rfl⟩
  exact h t ht hP

theorem Alike.opening {f f' : Token → Parse α} {κ : Nat → Kind} {kind : Kind}
    (hkind : kind.shape = .opener) (hκ : κ 0 = kind) (h : ∀ t : Token, P t.position →
      Alike P C δ g g' ((γ.entering kind).seeing fun i => κ (i + 1)) m (f t) (f' (t.shift δ)) Q) :
    Alike P C δ g g' (γ.seeing κ) m (consume >>= f) (consume >>= f') Q := by
  subst hκ
  refine .bind (.takeOpener (Q := fun t γ' => P t.position ∧
    γ' = (γ.entering (κ 0)).seeing fun i => κ (i + 1)) rfl hkind fun t _ hP => ⟨hP, rfl⟩) ?_
  rintro t _ ⟨hP, rfl⟩
  exact h t hP

theorem Alike.expecting {f f' : Token → Parse α} {κ : Nat → Kind} {kind : Kind}
    (hkind : kind.shape = .mark ∨ kind.shape = .piece)
    (h : ∀ t : Token, κ 0 = kind → P t.position →
      Alike P C δ g g' (γ.seeing fun i => κ (i + 1)) m (f t) (f' (t.shift δ)) Q) :
    Alike P C δ g g' (γ.seeing κ) m (expect kind >>= f) (expect kind >>= f') Q := by
  refine (alike_expect κ hkind).bind ?_
  rintro t _ ⟨hκ, hP, rfl⟩
  exact h t hκ hP

theorem Alike.expectingOpener {f f' : Token → Parse α} {κ : Nat → Kind} {kind : Kind}
    (hkind : kind.shape = .opener) (h : ∀ t : Token, P t.position →
      Alike P C δ g g' ((γ.entering kind).seeing fun i => κ (i + 1)) m (f t) (f' (t.shift δ)) Q) :
    Alike P C δ g g' (γ.seeing κ) m (expect kind >>= f) (expect kind >>= f') Q := by
  refine (alike_expectOpener κ hkind).bind ?_
  rintro t _ ⟨hP, rfl⟩
  exact h t hP

/-- A view from within a bracket that was opened. -/
def View.Inside (γ : View) (kind : Kind) (γ' : View) : Prop :=
  γ'.opened = γ.opened + 1 ∧ γ'.stage = γ.stage.entering kind ∧ γ'.coded = γ.coded

theorem Stage.entering_eq (stage : Stage) (kind : Kind) :
    stage.entering kind = stage ∨ stage.entering kind = stage.entering .bitOpen := by
  cases stage <;> cases kind <;> first | exact .inl rfl | exact .inr rfl

theorem View.inside_of_ended {kind : Kind} {γ' : View}
    (h : γ' = (γ.entering kind).spent ∨ ∃ κ, γ' = (γ.entering kind).seeing κ) :
    γ.Inside kind γ' := by
  rcases h with rfl | ⟨κ, rfl⟩ <;> exact ⟨rfl, rfl, rfl⟩

/-- What follows the closing bracket stands where the opening bracket stood. -/
theorem Alike.closed {kind closer : Kind} {γ' : View} {o o' : Token} {p q : Parse α}
    (hcloser : closer.shape = .closer) (hinside : γ.Inside kind γ') (ho : P o.position)
    (h : ∀ κ, Alike P C δ g g' (γ.seeing κ) m p q Q) :
    Alike P C δ g g' γ' m (expectClosing o closer >>= fun _ => p)
      (expectClosing o' closer >>= fun _ => q) Q := by
  rcases hinside with ⟨hopened, hstage, hcoded⟩
  refine .bind (.closing (Q := fun _ γ'' => ∃ κ, γ'' = γ.seeing κ) γ.stage hcloser ho
    hopened ?_ fun t κ => ⟨κ, ?_⟩) ?_
  · rw [hstage]
    exact γ.stage.entering_eq kind
  · simp only [View.seeing, hcoded]
  · rintro t _ ⟨κ, rfl⟩
    exact h κ

theorem Alike.parsing {f f' : Expr → Parse α} {κ : Nat → Kind}
    (h : ∀ (e : Expr) κ', e.Within P →
      Alike P C δ g g' (γ.seeing κ') m (f e) (f' (e.shift δ)) Q) :
    Alike P C δ g g' (γ.seeing κ) m (g.expression >>= f) (g'.expression >>= f') Q := by
  refine .bind (.expression (Q := Settled γ (Expr.Within P)) (γ.live_seeing κ)
    fun e κ' he => ⟨he, κ', rfl⟩) ?_
  rintro e _ ⟨he, κ', rfl⟩
  exact h e κ' he

/-- Where skipping newlines leads. -/
def Skipped (γ γ' : View) : Prop :=
  γ'.kind 0 ≠ .newline ∧
    (γ' = γ ∧ γ.kind 0 ≠ .endOfInput ∨ γ' = γ.spent ∨ ∃ κ, γ' = γ.seeing κ)

/-- Newlines are skipped alike. If the text ends behind them then the counterpart may have
    skipped more, so the view is given up there. -/
theorem alike_skipNewlines :
    Alike P C δ g g' γ id skipNewlines skipNewlines fun _ γ' => Skipped γ γ' := by
  refine .loop (m := id) (I := fun _ γ' => γ' = γ ∨ γ' = γ.spent ∨ ∃ κ, γ' = γ.seeing κ)
    rfl (.inl rfl) fun n γ' hγ' => ?_
  -- At the end of the text the counterpart may find a newline and go on.
  by_cases hend : γ'.kind 0 = .endOfInput
  · refine .giveUp hend (.check (fun _ => .inl rfl) ?_)
    refine .pure rfl ⟨by simp, .inr (.inl ?_)⟩
    rcases hγ' with rfl | rfl | ⟨κ, rfl⟩ <;> rfl
  · refine .check (fun h => absurd h hend) ?_
    by_cases hnewline : γ'.kind 0 = .newline
    · simp only [hnewline, decide_true, if_true]
      have hahead : ∃ κ, γ'.ahead = some κ := by
        cases h : γ'.ahead with
        | none => rw [View.kind, h] at hend; exact absurd rfl hend
        | some κ => exact ⟨κ, rfl⟩
      rcases hahead with ⟨κ, hκ⟩
      rw [View.kind, hκ] at hnewline
      refine .bind (.takeNewline (Q := fun _ γ'' => γ'' = γ.spent ∨ ∃ κ, γ'' = γ.seeing κ) hκ
        hnewline fun t => ?_) fun t γ'' hγ'' => .pure rfl (.inr hγ'')
      have hspent : γ'.spent = γ.spent := by rcases hγ' with rfl | rfl | ⟨κ, rfl⟩ <;> rfl
      have hseeing : ∀ κ, γ'.seeing κ = γ.seeing κ := by
        intro κ
        rcases hγ' with rfl | rfl | ⟨κ, rfl⟩ <;> rfl
      split
      · exact .inl hspent
      · exact .inr ⟨_, hseeing _⟩
    · simp only [hnewline, decide_false, Bool.false_eq_true, if_false]
      refine .pure rfl ⟨hnewline, ?_⟩
      rcases hγ' with rfl | h | h
      · exact .inl ⟨rfl, hend⟩
      · exact .inr (.inl h)
      · exact .inr (.inr h)

/-- A parser that stops at the end of the text may be taken up in a view of known tokens. If
    there was no newline before then there is none, since the end of the text is none. -/
theorem Alike.revived {γ' : View} {p q : Parse α}
    (hγ' : γ' = γ.spent ∨ ∃ κ, γ' = γ.seeing κ) (hstop : StopsAtEnd p)
    (h : ∀ κ, (γ'.kind 0 ≠ .newline → κ 0 ≠ .newline) → Alike P C δ g g' (γ.seeing κ) m p q Q) :
    Alike P C δ g g' γ' m p q Q := by
  rcases hγ' with rfl | ⟨κ, rfl⟩
  · exact .stop rfl hstop fun κ hend => h κ fun _ => by rw [hend]; decide
  · exact h κ id

/-- Passing over newlines to something that cannot be missing. -/
theorem Alike.skip {f f' : Nat → Parse α} (κ : Nat → Kind) (hstop : ∀ n, StopsAtEnd (f n))
    (h : ∀ n κ', κ' 0 ≠ .newline → Alike P C δ g g' (γ.seeing κ') m (f n) (f' n) Q) :
    Alike P C δ g g' (γ.seeing κ) m (skipNewlines >>= f) (skipNewlines >>= f') Q := by
  refine alike_skipNewlines.bind fun n γ' hγ' => ?_
  rcases hγ' with ⟨hne, ⟨rfl, -⟩ | hγ'⟩
  · exact h n κ hne
  · exact .revived hγ' (hstop n) fun κ' hκ' => h n κ' (hκ' hne)

/-- Passing over newlines to a token that is known to follow. -/
theorem alike_skipTo {kind : Kind} {κ : Nat → Kind} (h : NextIs kind κ)
    (hkind : kind ≠ .newline ∧ kind ≠ .endOfInput) :
    Alike P C δ g g' (γ.seeing κ) id skipNewlines skipNewlines fun _ γ' =>
      ∃ κ', γ' = γ.seeing κ' ∧ κ' 0 = kind := by
  refine .loop (m := id) (I := fun _ γ' => ∃ κ', γ' = γ.seeing κ' ∧ NextIs kind κ') rfl
    ⟨κ, rfl, h⟩ ?_
  -- By the number of newlines that are still to be passed over. None of them is the last token.
  rintro n _ ⟨κ, rfl, i, hi, hbefore⟩
  cases i with
  | zero =>
      refine .check (fun hend => absurd (hi.symm.trans hend) hkind.2) ?_
      simp only [View.kind_seeing, hi, hkind.1, decide_false, Bool.false_eq_true, if_false]
      exact .pure rfl ⟨κ, rfl, hi⟩
  | succ i =>
      have hnewline : κ 0 = .newline := hbefore 0 (Nat.succ_pos i)
      have hnot : κ 1 ≠ .endOfInput := by
        cases i with
        | zero => rw [hi]; exact hkind.2
        | succ i => rw [hbefore 1 (by omega)]; decide
      refine .check (fun hend => absurd (hnewline.symm.trans hend) (by decide)) ?_
      simp only [View.kind_seeing, hnewline, decide_true, if_true]
      refine .bind (.takeNewline (Q := fun _ γ' => γ' = γ.seeing fun i => κ (i + 1)) rfl hnewline
        fun t => ?_) ?_
      · rw [if_neg hnot]
        rfl
      · rintro t _ rfl
        exact .pure rfl ⟨_, rfl, i, hi, fun j hj => hbefore (j + 1) (by omega)⟩

/-- So are newlines and semicolons between statements. What follows them is no newline, which is
    what the handlers of a statement rely on. -/
theorem alike_skipSeparators (κ : Nat → Kind) :
    Alike P C δ g g' (γ.seeing κ) id skipSeparators skipSeparators fun _ γ' =>
      γ'.kind 0 ≠ .newline ∧ (γ' = γ.spent ∨ ∃ κ, γ' = γ.seeing κ) := by
  refine .loop (m := id) (I := Ended γ fun _ => True) rfl ⟨trivial, .inr ⟨κ, rfl⟩⟩ ?_
  -- Once the counterpart is left behind there is nothing left to skip.
  rintro ⟨⟩ _ ⟨-, rfl | ⟨κ, rfl⟩⟩
  · exact .peekKind (fun _ => .inl rfl) (.pure rfl ⟨by simp, .inl rfl⟩)
  · by_cases hend : κ 0 = .endOfInput
    · exact .giveUp hend (.peekKind (fun _ => .inl rfl) (.pure rfl ⟨by simp, .inl rfl⟩))
    · refine .peekKind (fun h => absurd h hend) ?_
      rw [View.kind_seeing]
      by_cases hnewline : κ 0 = .newline
      · rw [hnewline]
        -- The text may end behind the newline, where the counterpart is left behind.
        refine .bind (.takeNewline (Q := fun _ γ' =>
            γ' = γ.spent ∨ ∃ κ, γ' = γ.seeing κ) rfl hnewline
          fun t => ?_) fun t γ' hγ' => .pure rfl ⟨trivial, hγ'⟩
        split
        · exact .inl rfl
        · exact .inr ⟨_, rfl⟩
      · by_cases hsemicolon : κ 0 = .semicolon
        · rw [hsemicolon]
          exact .taking (.inl (by rw [hsemicolon]; rfl)) fun _ _ _ =>
            .pure rfl ⟨trivial, .inr ⟨_, rfl⟩⟩
        · have hnot : isSeparator (κ 0) = false := by simp [isSeparator, hnewline, hsemicolon]
          simp only [hnot, Bool.false_eq_true, if_false]
          exact .pure rfl ⟨hnewline, .inr ⟨κ, rfl⟩⟩

/-- The view after passing over newlines, from anywhere in a rule. -/
theorem Skipped.ended {γ₀ γ₁ : View} (h : Skipped γ₀ γ₁)
    (hγ₀ : γ₀ = γ.spent ∨ ∃ κ, γ₀ = γ.seeing κ) :
    γ₁.kind 0 ≠ .newline ∧ (γ₁ = γ.spent ∨ ∃ κ, γ₁ = γ.seeing κ) := by
  refine ⟨h.1, ?_⟩
  rcases hγ₀ with rfl | ⟨κ, rfl⟩ <;> rcases h.2 with ⟨rfl, -⟩ | rfl | ⟨κ₁, rfl⟩ <;>
    first | exact .inl rfl | exact .inr ⟨_, rfl⟩

/-- A view from somewhere behind the size of a segment, where the current token may
    be a dash that was split off a name. -/
def View.Loosely (γ γ' : View) : Prop :=
  γ' = γ.spent ∨ ∃ κ, γ' = γ.seeing κ ∨ γ' = { γ.seeing κ with loose := true }

theorem View.loosely_of_ended {γ' : View} (h : γ' = γ.spent ∨ ∃ κ, γ' = γ.seeing κ) :
    γ.Loosely γ' := h.imp id fun ⟨κ, hκ⟩ => ⟨κ, .inl hκ⟩

theorem Skipped.loosely {γ₀ γ₁ : View} (h : Skipped γ₀ γ₁) (hγ₀ : γ.Loosely γ₀) :
    γ.Loosely γ₁ := by
  rcases hγ₀ with rfl | ⟨κ, rfl | rfl⟩ <;> rcases h.2 with ⟨rfl, -⟩ | rfl | ⟨κ₁, rfl⟩ <;>
    first
      | exact .inl rfl
      | exact .inr ⟨_, .inl rfl⟩
      | exact .inr ⟨_, .inr rfl⟩

/-- A mark may be taken there all the same. -/
theorem Alike.takingMark {f f' : Token → Parse α} {γ' : View} {kind : Kind}
    (hmark : kind.shape = .mark) (hγ' : γ.Loosely γ') (hkind : γ'.kind 0 = kind)
    (h : ∀ κ t, Alike P C δ g g' (γ.seeing κ) m (f t) (f' (t.shift δ)) Q) :
    Alike P C δ g g' γ' m (consume >>= f) (consume >>= f') Q := by
  have hahead : ∃ κ, γ'.ahead = some κ ∧ κ 0 = kind ∧ ∀ κ, γ'.seeing κ = γ.seeing κ := by
    rcases hγ' with rfl | ⟨κ, rfl | rfl⟩
    · rw [View.kind_spent] at hkind
      rw [← hkind] at hmark
      cases hmark
    · exact ⟨κ, rfl, hkind, fun _ => rfl⟩
    · exact ⟨κ, rfl, hkind, fun _ => rfl⟩
  rcases hahead with ⟨κ, hκ, hκ0, hseeing⟩
  refine .bind (.take (Q := fun _ γ'' => ∃ κ, γ'' = γ.seeing κ) hκ
    (.inl (by rw [hκ0]; exact hmark)) fun t _ _ => ⟨_, hseeing _⟩) ?_
  rintro t _ ⟨κ', rfl⟩
  exact h κ' t

/-- Lists in brackets. Their items need not come out in step, because the closing
    bracket has to follow in any case. -/
theorem alike_commaList {closer : Kind} {a b : α} {f f' : α → Parse α} {V : α → Prop}
    (hcloser : closer ≠ .newline ∧ closer ≠ .endOfInput)
    (κ : Nat → Kind) (hstart : b = m a) (ha : V a)
    (hstop : ∀ c, StopsAtEnd (f c))
    (hitem : ∀ c κ', κ' 0 ≠ .newline → V c →
      Alike P C δ g g' (γ.seeing κ') m (f c) (f' (m c)) (Ended γ V)) :
    Alike P C δ g g' (γ.seeing κ) m (commaList closer a f) (commaList closer b f') (Ended γ V) := by
  refine alike_skipNewlines.bind fun n γ₀ hskipped => ?_
  refine .loop (m := m) (I := fun c γ' => V c ∧ γ'.kind 0 ≠ .newline ∧
    (γ' = γ.spent ∨ ∃ κ, γ' = γ.seeing κ)) hstart ⟨ha, hskipped.ended (.inr ⟨κ, rfl⟩)⟩ ?_
  rintro c γ' ⟨hc, hnewline, hγ'⟩
  refine .ite_check hcloser (fun _ => .pure rfl ⟨hc, hγ'⟩) fun _ => ?_
  -- A round behind the end is brought back by the item, which stops at the end.
  refine .revived hγ' ((hstop c).bind _) fun κ' hκ' => ?_
  refine (hitem c κ' (hκ' hnewline) hc).bind ?_
  rintro d γ'' ⟨hd, hγ''⟩
  refine alike_skipNewlines.bind fun n γ₁ hskipped => ?_
  rcases hskipped.ended hγ'' with ⟨-, hγ₁⟩
  refine .ite_check (by decide) (fun hcomma => .takingMark (by decide)
    (View.loosely_of_ended hγ₁) hcomma fun κ₂ t => ?_) fun _ => .pure rfl ⟨hd, hγ₁⟩
  refine alike_skipNewlines.bind fun n γ₃ hskipped => .pure rfl ⟨hd, ?_⟩
  exact hskipped.ended (.inr ⟨_, rfl⟩)

end Forms

end Parse

end PolyScript
