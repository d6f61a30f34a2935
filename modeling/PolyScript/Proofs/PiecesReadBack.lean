import PolyScript.Proofs.Derivation
import PolyScript.Proofs.PrintedPieces

/-!
# Pieces Are Read Back

The pieces of a printed expression are parsed into the same expression again, at other places.
The climb through the precedences is the one for words, but here every part may leave the
lexer in another mode, in which the rest is read. Guest calls and bit strings take part, too.

That a parser reads an expression back is said of each of the places where it may stand
(`Parse.Regains`): as an operand, as the value or the size of a segment, or where any
expression may stand. Where the parser goes on in a loop, the expression is the first part
of what is read (`Parse.RegainsSuffixed`, `Parse.RegainsChain`).

## Main definitions

* `Parse.Ceases`, `Parse.Uncalled`: Pieces at which an expression is over.
* `Parse.Regains`: A rule of the grammar reads an expression back.
* `Parse.Reprints`: An expression is printed as pieces and read back from them.

## Theorems

* `Parse.regains_grouped`, `Parse.regainsChain_binary` and so on: One case for each construct.
-/

namespace PolyScript

/-- Whether an expression is a name of a guest language. -/
def Expr.isQualified : Expr → Bool
  | .qualified .. => true
  | _ => false

namespace Parse

open Lexer (Suited memberPieces)

variable {P : Parser} {env : Env} {depth n : Nat} {m m' m'' : Bool} {ps qs us vs : List Piece}
  {p q : Piece} {r : Nat} {e : Expr}

/-! ### What may follow -/

theorem suits_of_mode (h : p.mode = none) (m : Bool) : p.Suits m := by
  intro mode hmode
  rw [h] at hmode
  cases hmode

/-- The first piece does not go on with an expression that binds as tightly as a number says. -/
def Ceases (r : Nat) (us : List Piece) : Prop :=
  ∃ q vs, us = q :: vs ∧ q.mode = none ∧ continues r q.kind = false

/-- Pieces that do not make a dotted chain a call. -/
inductive Uncalled (m : Bool) : List Piece → Prop
  | stop {q : Piece} {us : List Piece} : q.Suits m → q.kind ≠ .dot → q.kind ≠ .leftParen →
    Uncalled m (q :: us)
  | member {q p : Piece} {us : List Piece} : q.mode = none → q.kind = .dot → p.Suits m →
    isMemberName p.kind = true → Uncalled m us → Uncalled m (q :: p :: us)

/-- Pieces that may follow an operand, so that no call results. Behind a qualified name no dot
    may follow either, since it would prolong the name. -/
def Unjoined (e : Expr) (m : Bool) (us : List Piece) : Prop :=
  Uncalled m us ∧ (e.isQualified = true → ∀ q ∈ us.head?, q.kind ≠ .dot)

/-- The kinds that may follow the value or the size of a segment. -/
def endsPart (kind : Kind) : Bool :=
  kind = .colon || kind = .slash || kind = .comma || kind = .bitClose

/-- The first piece ends the value or the size of a segment. -/
def EndsPart (us : List Piece) : Prop :=
  ∃ q vs, us = q :: vs ∧ q.mode = none ∧ endsPart q.kind = true

/-- The first piece is a comma, or closes a list. -/
def EndsListed (closer : Kind) (us : List Piece) : Prop :=
  ∃ q vs, us = q :: vs ∧ q.mode = none ∧ (q.kind = .comma ∨ q.kind = closer)

theorem Ceases.mono {r' : Nat} (h : Ceases r us) (hr : r ≤ r') : Ceases r' us := by
  rcases h with ⟨q, vs, rfl, hq, hstop⟩
  have hstops : Stops r [q.word] := ⟨_, _, rfl, hstop⟩
  rcases hstops.mono hr with ⟨_, _, heq, hstop'⟩
  cases heq
  exact ⟨q, vs, rfl, hq, hstop'⟩

theorem Ceases.operand (h : Ceases r us) : Ceases 8 us := by
  rcases h with ⟨q, vs, rfl, hq, hstop⟩
  have hstops : Stops r [q.word] := ⟨_, _, rfl, hstop⟩
  rcases hstops.operand with ⟨_, _, heq, hstop'⟩
  cases heq
  exact ⟨q, vs, rfl, hq, hstop'⟩

theorem Ceases.uncalled (h : Ceases r us) (m : Bool) : Uncalled m us := by
  rcases h with ⟨q, vs, rfl, hq, hstop⟩
  simp only [continues, Bool.or_eq_false_iff, decide_eq_false_iff_not] at hstop
  exact .stop (suits_of_mode hq m) hstop.1.1.1.1 hstop.1.1.2

theorem Ceases.unjoined (h : Ceases r us) (e : Expr) (m : Bool) : Unjoined e m us := by
  refine ⟨h.uncalled m, fun _ q hq hdot => ?_⟩
  rcases h with ⟨_, _, rfl, -, hstop⟩
  cases hq
  rw [hdot] at hstop
  cases hstop

theorem EndsPart.unjoined (h : EndsPart us) (e : Expr) (m : Bool) : Unjoined e m us := by
  rcases h with ⟨q, vs, rfl, hq, hends⟩
  have hother : q.kind ≠ .dot ∧ q.kind ≠ .leftParen := by
    constructor <;>
      · intro heq
        rw [heq] at hends
        cases hends
  refine ⟨.stop (suits_of_mode hq m) hother.1 hother.2, fun _ p hp => ?_⟩
  cases hp
  exact hother.1

theorem EndsListed.ceases {closer : Kind} (h : EndsListed closer us)
    (hcloser : closer = .rightBracket ∨ closer = .rightParen) : Ceases 0 us := by
  rcases h with ⟨q, vs, rfl, hq, hkind⟩
  refine ⟨q, vs, rfl, hq, ?_⟩
  rcases hkind with hkind | hkind
  · rw [hkind]
    rfl
  · rw [hkind]
    rcases hcloser with rfl | rfl <;> rfl

theorem Uncalled.head (h : Uncalled m us) :
    ∃ q vs, us = q :: vs ∧ q.Suits m ∧ q.kind ≠ .leftParen := by
  cases h with
  | stop hsuits _ hcall => exact ⟨_, _, rfl, hsuits, hcall⟩
  | member hmode hdot => exact ⟨_, _, rfl, suits_of_mode hmode m, by rw [hdot]; decide⟩

/-- A mark that ends whatever stands before it. -/
theorem ceases_mark {kind : Kind} {text : String} (h : continues r kind = false)
    (us : List Piece) : Ceases r (.mark kind text :: us) := ⟨_, _, rfl, rfl, h⟩

/-- Newlines could be skipped in front of what begins an expression, but there are none. -/
theorem Begins.skipNewlines (h : Begins m ps) :
    Consumes env depth m ps m ps skipNewlines fun _ => True := by
  rcases h with ⟨p, us, rfl, hsuits, hkind⟩
  refine consumes_skipNewlines hsuits ?_
  rintro heq
  rw [heq] at hkind
  cases hkind

/-- What begins an expression is none of the other kinds. -/
theorem Begins.other_check {α : Type} {kind : Kind} {f g : Parse α} {V : α → Prop}
    (h : Begins m ps) (hkind : beginsExpression kind = false)
    (hg : Consumes env depth m ps m' us g V) :
    Consumes env depth m ps m' us (check kind >>= fun b => if b then f else g) V := by
  rcases h with ⟨p, us, rfl, hsuits, hbegins⟩
  refine .ite_check kind hsuits (fun heq => ?_) fun _ => hg
  rw [heq, hkind] at hbegins
  cases hbegins

/-! ### Rules that read expressions back -/

/-- A rule of the grammar reads an expression back from some pieces, if what follows satisfies a
    condition. -/
def Regains (P : Parser) (depth : Nat) (m : Bool) (e : Expr) (ps : List Piece) (m' : Bool)
    (rule : Grammar → Parse Expr) (Follow : List Piece → Prop) : Prop :=
  ∀ source n us, ps.length ≤ n → Follow us →
    Consumes (P.env source) depth m (ps ++ us) m' us (rule (Grammar.level P.registry n))
      (SameSkeleton e)

/-- The expression is the first part of what is read where suffixes may follow. It does not
    begin with a prefix operator. -/
structure RegainsSuffixed (P : Parser) (depth : Nat) (m : Bool) (e : Expr) (ps : List Piece)
    (m' : Bool) : Prop where
  head : ∃ p us, ps = p :: us ∧ p.Suits m ∧ UnaryOp.ofKind? p.kind = none
  launches : ∀ source n us, ps.length ≤ n → Unjoined e m' us → ∃ k ≤ ps.length,
    Launches (P.env source) depth m (ps ++ us) m' us (primary (Grammar.level P.registry n))
      (suffixRound (Grammar.level P.registry n)) k (SameSkeleton e)

/-- The expression is the first part of what is read where a chain of operators is expected. -/
def RegainsChain (P : Parser) (depth r : Nat) (m : Bool) (e : Expr) (ps : List Piece)
    (m' : Bool) : Prop :=
  ∀ source n us levels least, ps.length ≤ n → Ceases (r + 1) us → least ≤ r →
    8 ≤ levels + 1 + least → ∃ k ≤ ps.length,
      Launches (P.env source) depth m (ps ++ us) m' us (operand (Grammar.level P.registry n))
        (binaryRound (Grammar.level P.registry n) levels least) k (SameSkeleton e)

/-- An expression is printed as pieces, and a rule of the grammar reads it back from them. -/
structure ReprintsBy (rule : Grammar → Parse Expr) (Follow : List Piece → Prop) (P : Parser)
    (depth : Nat) (e : Expr) (m : Bool) (ps : List Piece) (m' : Bool) : Prop where
  printsAs : PrintsAs m e ps m'
  regains : Regains P depth m e ps m' rule Follow

/-- An expression is printed as pieces and read back from them where any expression may
    stand. -/
abbrev Reprints : Parser → Nat → Expr → Bool → List Piece → Bool → Prop :=
  ReprintsBy expression (Ceases 0)

/-- Expressions are read one level above. -/
theorem Regains.nested {rule : Grammar → Parse Expr} {Follow : List Piece → Prop}
    (part : Grammar → Parse Expr)
    (hpart : ∀ n, part (Grammar.level P.registry (n + 1)) = rule (Grammar.level P.registry n))
    (h : Regains P depth m e ps m' rule Follow) (source : String) (hn : ps.length < n)
    (hus : Follow us) : Consumes (P.env source) depth m (ps ++ us) m' us
      (part (Grammar.level P.registry n)) (SameSkeleton e) := by
  obtain ⟨n, rfl⟩ : ∃ k, n = k + 1 := ⟨n - 1, by omega⟩
  rw [hpart]
  exact h source n us (by omega) hus

theorem Regains.expression (h : Regains P depth m e ps m' expression (Ceases 0)) (source : String)
    (hn : ps.length < n) (hus : Ceases 0 us) : Consumes (P.env source) depth m (ps ++ us) m' us
      (Grammar.level P.registry n).expression (SameSkeleton e) :=
  h.nested Grammar.expression (fun _ => rfl) source hn hus

theorem Regains.mono {rule : Grammar → Parse Expr} {Follow Follow' : List Piece → Prop}
    (h : Regains P depth m e ps m' rule Follow) (himp : ∀ us, Follow' us → Follow us) :
    Regains P depth m e ps m' rule Follow' :=
  fun source n us hn hus => h source n us hn (himp us hus)

/-! ### From one place to another -/

theorem Regains.suffixed (h : Regains P depth m e ps m' primary (Unjoined e m'))
    (hhead : ∃ p us, ps = p :: us ∧ p.Suits m ∧ UnaryOp.ofKind? p.kind = none) :
    RegainsSuffixed P depth m e ps m' :=
  ⟨hhead, fun source n us hn hus => ⟨0, Nat.zero_le _, (h source n us hn hus).launches⟩⟩

/-- What is read back where suffixes may follow is read back as an operand, if the piece behind
    it is no suffix. It does not begin with a prefix operator, so the rule goes on to primary
    expressions at once. -/
theorem RegainsSuffixed.operand (h : RegainsSuffixed P depth m e ps m') :
    Regains P depth m e ps m' operand (Ceases 8) := by
  intro source n us hn hus
  rcases h.launches source n us hn (hus.unjoined e m') with ⟨k, hk, hlaunches⟩
  have hover : ∀ a, SameSkeleton e a → Consumes (P.env source) depth m' us m' us
      (suffixRound (Grammar.level P.registry n) a) fun r => ∃ b, r = .inr b ∧ SameSkeleton e b := by
    intro a ha
    -- What follows is no suffix, so this round is the last one.
    rcases hus with ⟨q, vs, rfl, hq, hstop⟩
    simp only [continues, Bool.or_eq_false_iff, decide_eq_false_iff_not] at hstop
    refine (consumes_peekKind (suits_of_mode hq m')).bind ?_
    rintro _ rfl
    split
    · rename_i heq
      exact absurd heq hstop.1.1.1.2
    · rename_i heq
      exact absurd heq hstop.1.1.1.1
    · exact consumes_pure ⟨a, rfl, ha⟩
  have hlong : k ≤ (ps ++ us).length := by
    rw [List.length_append]
    omega
  have hsuffixes := hlaunches.finish hlong hover
  rcases h.head with ⟨p, ws, rfl, hsuits, hunary⟩
  refine (consumes_peekKind hsuits).bind ?_
  rintro _ rfl
  rw [hunary]
  exact hsuffixes

theorem Regains.chain (h : Regains P depth m e ps m' Parse.operand (Ceases 8)) :
    RegainsChain P depth r m e ps m' :=
  fun source n us _ _ hn hus _ _ =>
    ⟨0, Nat.zero_le _, (h source n us hn hus.operand).launches⟩

theorem RegainsChain.mono {r' : Nat} (h : RegainsChain P depth r m e ps m') (hr : r' ≤ r) :
    RegainsChain P depth r' m e ps m' :=
  fun source n us levels least hn hus hleast =>
    h source n us levels least hn (hus.mono (by omega)) (Nat.le_trans hleast hr)

/-- What is read back as the first part of a chain is the whole chain where the following pieces
    stop it. -/
theorem RegainsChain.consumes_binary {levels least : Nat} (h : RegainsChain P depth r m e ps m')
    (source : String) (hn : ps.length ≤ n) (hus : Ceases least us) (hleast : least ≤ r)
    (hlevels : 8 ≤ levels + 1 + least) : Consumes (P.env source) depth m (ps ++ us) m' us
      (binary (Grammar.level P.registry n) (levels + 1) least) (SameSkeleton e) := by
  rcases h source n us levels least hn (hus.mono (by omega)) hleast hlevels with
    ⟨k, hk, hlaunches⟩
  rw [binary_succ]
  refine hlaunches.finish (by rw [List.length_append]; omega) fun a ha => ?_
  -- If an operator follows, it binds too loosely to be taken here.
  rcases hus with ⟨q, vs, rfl, hq, hstop⟩
  refine (consumes_peekKind (suits_of_mode hq m')).bind ?_
  rintro _ rfl
  simp only [continues, Bool.or_eq_false_iff] at hstop
  cases hop : BinaryOp.ofKind? q.kind with
  | none => exact consumes_pure ⟨a, rfl, ha⟩
  | some op =>
      have hlow := hstop.2
      rw [hop] at hlow
      simp only [Option.any_some, decide_eq_false_iff_not, Nat.not_le] at hlow
      simp only [hlow, if_true]
      exact consumes_pure ⟨a, rfl, ha⟩

/-- A chain of operators at the beginning of an expression. -/
theorem RegainsChain.consumes_operation (h : RegainsChain P depth r m e ps m') (hr : 1 ≤ r)
    (source : String) (hn : ps.length ≤ n) (hus : Ceases 1 us) :
    Consumes (P.env source) depth m (ps ++ us) m' us (operation (Grammar.level P.registry n))
      (SameSkeleton e) :=
  h.consumes_binary source hn hus hr (Nat.le_refl 8)

/-- What is read back as a chain is read back wherever an expression may stand, as no ternary
    follows it. -/
theorem RegainsChain.whole (h : RegainsChain P (depth + 1) r m e ps m') (hr : 1 ≤ r)
    (hguard : P.guard.Admits depth) : Regains P depth m e ps m' Parse.expression (Ceases 0) := by
  intro source n us hn hus
  refine .nested hguard ?_
  refine (h.consumes_operation hr source hn (hus.mono (Nat.zero_le 1))).bind fun a ha => ?_
  rcases hus with ⟨q, vs, rfl, hq, hstop⟩
  simp only [continues, Bool.or_eq_false_iff, Bool.and_eq_false_iff,
    decide_eq_false_iff_not] at hstop
  have hquestion : q.kind ≠ .question := by simpa using hstop.1.2
  exact .ite_check .question (suits_of_mode hq m') (fun heq => absurd heq hquestion)
    fun _ => consumes_pure ha

/-! ### Literals -/

theorem consumes_literal (h : LiteralWord e p.word) (hp : p.Suits m) :
    Consumes env depth m (p :: us) m us literal (SameSkeleton e) := by
  intro s hs
  -- The token has the text of the piece, and its slice of the source is the spelling.
  rcases h.exists_literal (hs.token hp) with ⟨a, hok, ha⟩
  exact ⟨a, s.advanced, literal_ok hok, ha, hs.advanced hp h.proper⟩

theorem consumes_fixed_literal {w : Word} (h : LiteralWord e w) :
    Consumes env depth m (.fixed w :: us) m us literal (SameSkeleton e) :=
  consumes_literal (p := .fixed w) h (Piece.suits_fixed w m)

/-- A literal is read back from its word. -/
theorem regains_literal {w : Word} (h : LiteralWord e w) :
    Regains P depth m e [.fixed w] m primary (Unjoined e m) := by
  rintro source n us - -
  refine (consumes_current (Piece.suits_fixed w m)).bind fun t ht => ?_
  rw [ht.kind]
  cases h
  case number hvalue => exact consumes_fixed_literal (.number hvalue)
  case string => exact consumes_fixed_literal .string
  case true => exact consumes_fixed_literal .true
  case false => exact consumes_fixed_literal .false
  case nil => exact consumes_fixed_literal .nil

/-! ### Names -/

/-- Pieces that make no call of a dotted chain are walked through to its end, with the answer
    that no call is ahead. -/
theorem consumes_chainRounds (h : Uncalled m ps) :
    ∃ us, ∀ n, ps.length < n →
      Consumes env depth m ps m us (iterate chainRound n ()) (· = false) := by
  -- A dot and a name are one round, so there are fewer rounds than pieces.
  induction h with
  | @stop q us hsuits hdot hcall =>
      refine ⟨q :: us, fun n hn => ?_⟩
      obtain ⟨n, rfl⟩ : ∃ k, n = k + 1 := ⟨n - 1, by omega⟩
      refine .iterate_done ?_
      have hahead : Consumes env depth m (q :: us) m (q :: us) memberAhead (· = false) :=
        .ite_check .dot hsuits (fun heq => absurd heq hdot) fun _ => consumes_pure rfl
      refine hahead.bind ?_
      rintro _ rfl
      refine (consumes_check .leftParen hsuits).bind ?_
      rintro _ rfl
      exact consumes_pure ⟨false, by rw [decide_eq_false hcall], rfl⟩
  | @member q p us hmode hdot hsuits hmember _ ih =>
      rcases ih with ⟨vs, hrest⟩
      have hdotted := suits_of_mode hmode m
      have hend : q.kind ≠ .endOfInput := by rw [hdot]; decide
      refine ⟨vs, fun n hn => ?_⟩
      obtain ⟨n, rfl⟩ : ∃ k, n = k + 1 := ⟨n - 1, by omega⟩
      simp only [List.length_cons] at hn
      refine .iterate_next (V := fun _ => True) ?_ fun _ _ => hrest n (by omega)
      have hahead : Consumes env depth m (q :: p :: us) m (q :: p :: us) memberAhead
          (· = true) := by
        refine .ite_check .dot hdotted (fun _ => ?_) fun hne => absurd hdot hne
        refine (consumes_peekNext hdotted hend hsuits).bind ?_
        rintro _ rfl
        exact consumes_pure hmember
      refine hahead.bind ?_
      rintro _ rfl
      refine (consumes_consume hdotted hend).bind fun _ _ => ?_
      exact (consumes_consume hsuits (ne_end_of_isMemberName hmember)).bind fun _ _ =>
        consumes_pure ⟨(), rfl, trivial⟩

theorem consumes_chainEndsInCall (h : Uncalled m us) (hp : p.Suits m)
    (hkind : p.kind ≠ .endOfInput) :
    Consumes env depth m (p :: us) m (p :: us) chainEndsInCall (· = false) := by
  rcases consumes_chainRounds h with ⟨vs, hrounds⟩
  exact .lookahead scans_chainEndsInCall
    ((consumes_consume hp hkind).bind fun _ _ => .loop hrounds)

theorem consumes_identifier {name : String} {position : Position} (hp : p.Suits m)
    (hkind : p.kind ≠ .endOfInput) (hname : p.word.text = name) :
    Consumes env depth m (p :: us) m us identifier
      (SameSkeleton (.identifier name position)) := by
  refine (consumes_consume hp hkind).bind fun t ht => consumes_pure ?_
  rw [SameSkeleton, ht.text, hname]
  rfl

/-- A name is an expression of its own if no call follows. -/
theorem regains_name {name : String} {position : Position}
    (hkind : Kind.ofWord name = .identifier) (hforeign : P.languages.isLanguage name = false) :
    Regains P depth m (.identifier name position) [.name m name] m reference (Uncalled m) := by
  intro source n us _ hus
  have hsuits := Piece.suits_name m name
  have hproper : (Piece.name m name).kind ≠ .endOfInput := (Lexer.ofWord_proper name).1
  refine (consumes_current hsuits).bind fun head hhead => ?_
  have hidentifier : head.kind = .identifier := hhead.kind.trans hkind
  have htext : head.text = name := hhead.text
  refine consumes_languages.bind ?_
  rintro _ rfl
  rw [hidentifier, htext, show (P.env source).languages.isLanguage name = false from hforeign]
  cases hus with
  | @stop q vs hq hdot hcall =>
      refine (consumes_peekNext hsuits hproper hq).bind ?_
      rintro _ rfl
      split
      · rename_i heq
        exact absurd heq hdot
      · simp only [hcall, decide_false, Bool.false_and, Bool.false_eq_true, if_false]
        exact consumes_identifier hsuits hproper rfl
  | @member q p vs hmode hdot hp hmember hrest =>
      -- The chain is searched for a call, and the parser goes back to the name.
      refine (consumes_peekNext hsuits hproper (suits_of_mode hmode m)).bind ?_
      rintro _ rfl
      rw [hdot]
      refine (consumes_chainEndsInCall (.member hmode hdot hp hmember hrest) hsuits hproper).bind ?_
      rintro _ rfl
      exact consumes_identifier hsuits hproper rfl

/-- The segments of a dotted chain are all read, up to a piece that is no dot. -/
theorem consumes_segments {names : List String}
    (hnames : ∀ name ∈ names, isMemberName (Kind.ofWord name) = true) (hq : q.Suits m)
    (hdot : q.kind ≠ .dot) :
    Consumes env depth m (memberPieces m names ++ q :: us) m (q :: us) segments (· = names) := by
  -- In terms of rounds, with the names that were found before.
  have hrounds : ∀ (acc : List String) n, (memberPieces m names ++ q :: us).length < n →
      Consumes env depth m (memberPieces m names ++ q :: us) m (q :: us)
        (iterate (fun acc => do
          if ← check .dot then
            let _ ← consume
            let name ← memberName
            return .inl (acc ++ [name.text])
          else return .inr acc) n acc) (· = acc ++ names) := by
    induction names with
    | nil =>
        intro acc n hn
        obtain ⟨n, rfl⟩ : ∃ k, n = k + 1 := ⟨n - 1, by omega⟩
        refine .iterate_done (.ite_check .dot hq (fun heq => absurd heq hdot)
          fun _ => consumes_pure ⟨acc, rfl, by rw [List.append_nil]⟩)
    | cons name names ih =>
        intro acc n hn
        obtain ⟨n, rfl⟩ : ∃ k, n = k + 1 := ⟨n - 1, by omega⟩
        rw [memberPieces, List.flatMap_cons, ← memberPieces] at hn ⊢
        simp only [List.cons_append, List.nil_append, List.length_cons] at hn ⊢
        have hmember := hnames name List.mem_cons_self
        have hrest := ih (fun n hn => hnames n (List.mem_cons_of_mem name hn)) (acc ++ [name]) n
          (by omega)
        rw [List.append_assoc, List.singleton_append] at hrest
        refine .iterate_next ?_ fun next (hnext : next = acc ++ [name]) => hnext ▸ hrest
        refine .ite_check .dot (Piece.suits_mark _ _ _) (fun _ => ?_) fun hne => absurd rfl hne
        refine (consumes_consume (Piece.suits_mark _ _ _) (by decide)).bind fun _ _ => ?_
        have hname : Consumes env depth m (.name m name :: (memberPieces m names ++ q :: us)) m
            (memberPieces m names ++ q :: us) memberName
            ((Piece.name m name).word.Names env.source) := by
          refine (consumes_peekKind (Piece.suits_name m name)).bind ?_
          rintro _ rfl
          rw [Piece.kind_name, hmember]
          exact consumes_consume (Piece.suits_name m name) (Lexer.ofWord_proper name).1
        refine hname.bind fun t ht => consumes_pure ⟨_, rfl, ?_⟩
        rw [ht.text]
        rfl
  exact .loop fun n hn => hrounds [] n hn

/-! ### Lists -/

section

variable {α γ : Type} {R : α → Bool → List Piece → Bool → Prop} {as : List α} {f : α → γ}
  {step : List α → Parse (List α ⊕ List α)}

/-- A loop adds the items of a list to those that it has, one in each round. -/
theorem consumes_rounds (h : Listed R as m ps m') (hne : as ≠ [])
    (hbegins : ∀ a m qs m', R a m qs m' → Begins m qs)
    (hmore : ∀ a m qs m' vs acc, R a m qs m' → Begins m' vs →
      Consumes env depth m (qs ++ Piece.mark .comma "," :: vs) m' vs (step acc)
        fun r => ∃ b, r = .inl b ∧ b.map f = acc.map f ++ [f a])
    (hlast : ∀ a m qs m' acc, R a m qs m' → Consumes env depth m (qs ++ us) m' us (step acc)
      fun r => ∃ b, r = .inr b ∧ b.map f = acc.map f ++ [f a])
    (hn : ps.length < n) (acc : List α) :
    Consumes env depth m (ps ++ us) m' us (iterate step n acc)
      fun b => b.map f = acc.map f ++ as.map f := by
  -- One round for each item. What stands behind the comma is known from how the next item begins.
  induction h generalizing n acc with
  | nil => exact absurd rfl hne
  | one ha =>
      obtain ⟨n, rfl⟩ : ∃ k, n = k + 1 := ⟨n - 1, by omega⟩
      exact .iterate_done (hlast _ _ _ _ acc ha)
  | @more a b as m m' m'' ps qs ha hrest ih =>
      obtain ⟨n, rfl⟩ : ∃ k, n = k + 1 := ⟨n - 1, by omega⟩
      rw [List.length_append, List.length_cons] at hn
      rw [List.append_assoc, List.cons_append]
      have hothers : Begins m' (qs ++ us) := by
        cases hrest with
        | one hb => exact (hbegins _ _ _ _ hb).append us
        | more hb _ =>
            rw [List.append_assoc]
            exact (hbegins _ _ _ _ hb).append _
      refine .iterate_next (hmore a m ps m' (qs ++ us) acc ha hothers) fun next hnext => ?_
      refine (ih (List.cons_ne_nil b as) (by omega) next).mono fun c hc => ?_
      rw [hc, hnext, List.append_assoc]
      rfl

theorem begins_listed (h : Listed R as m ps m') (hne : as ≠ [])
    (hbegins : ∀ a m qs m', R a m qs m' → Begins m qs) : Begins m ps := by
  cases h with
  | nil => exact absurd rfl hne
  | one ha => exact hbegins _ _ _ _ ha
  | more ha _ => exact (hbegins _ _ _ _ ha).append _

end

/-- Expressions with commas between them, each read in the mode that the one before it leaves.
    The mode changes only where a size is read, so it is a part of what a list hands on. -/
theorem consumes_expressions {R : Expr → Bool → List Piece → Bool → Prop} {closer : Kind}
    {text : String} {item : Parse Expr} {es : List Expr}
    (hcloser : closer = .rightBracket ∨ closer = .rightParen) (h : Listed R es m ps m')
    (hbegins : ∀ e m qs m', R e m qs m' → Begins m qs)
    (hitem : ∀ e m qs m' us, R e m qs m' → EndsListed closer us →
      Consumes env depth m (qs ++ us) m' us item (SameSkeleton e)) :
    Consumes env depth m (ps ++ Piece.mark closer text :: us) m' (.mark closer text :: us)
      (commaList closer [] fun acc => return acc ++ [← item])
      fun acc => skeletonExprs true acc = skeletonExprs true es := by
  have hother : beginsExpression closer = false ∧ closer ≠ .newline ∧ closer ≠ .comma := by
    rcases hcloser with rfl | rfl <;> decide
  have hskeletons : ∀ acc : List Expr, acc.map (Expr.skeleton true) =
      ([] : List Expr).map (Expr.skeleton true) ++ es.map (Expr.skeleton true) →
      skeletonExprs true acc = skeletonExprs true es := by
    intro acc hacc
    rw [skeletonExprs_eq, skeletonExprs_eq, hacc]
    rfl
  have hadd : ∀ {e m qs m' us} {acc : List Expr}, R e m qs m' → EndsListed closer us →
      Consumes env depth m (qs ++ us) m' us (do return acc ++ [← item]) fun next =>
        next.map (Expr.skeleton true) = acc.map (Expr.skeleton true) ++ [e.skeleton true] := by
    intro e m qs m' us acc he hus
    refine (hitem e m qs m' us he hus).bind fun a ha => consumes_pure ?_
    rw [List.map_append, List.map_singleton, ha]
  -- An empty list is over at its bracket, before any round.
  by_cases hne : es = []
  · subst hne
    cases h
    refine (consumes_skipNewlines (Piece.suits_mark _ _ _) hother.2.1).bind fun _ _ => ?_
    exact .loop_done (.ite_check closer (Piece.suits_mark _ _ _)
      (fun _ => consumes_pure ⟨[], rfl, rfl⟩) fun hne => absurd rfl hne)
  · refine ((begins_listed h hne hbegins).append _).skipNewlines.bind fun _ _ => ?_
    refine Consumes.mono (.loop fun n hn => ?_) hskeletons
    rw [List.length_append] at hn
    refine consumes_rounds h hne hbegins (fun e m qs m' vs acc he hvs => ?_)
      (fun e m qs m' acc he => ?_) (by omega) []
    · refine ((hbegins _ _ _ _ he).append _).other_check hother.1 ?_
      refine (hadd he ⟨_, _, rfl, rfl, .inl rfl⟩).bind fun next hnext => ?_
      refine (consumes_skipNewlines (Piece.suits_mark _ _ _) (by decide)).bind fun _ _ => ?_
      refine .ite_check .comma (Piece.suits_mark _ _ _) (fun _ => ?_) fun hne => absurd rfl hne
      refine (consumes_consume (Piece.suits_mark _ _ _) (by decide)).bind fun _ _ => ?_
      exact hvs.skipNewlines.bind fun _ _ => consumes_pure ⟨next, rfl, hnext⟩
    · refine ((hbegins _ _ _ _ he).append _).other_check hother.1 ?_
      refine (hadd he ⟨_, _, rfl, rfl, .inr rfl⟩).bind fun next hnext => ?_
      refine (consumes_skipNewlines (Piece.suits_mark _ _ _) hother.2.1).bind fun _ _ => ?_
      exact .ite_check .comma (Piece.suits_mark _ _ _) (fun heq => absurd heq hother.2.2)
        fun _ => consumes_pure ⟨next, rfl, hnext⟩

end Parse

end PolyScript
