import PolyScript.Proofs.InOrder
import PolyScript.Proofs.Within

/-!
# Guest Calls as Statements

What a statement for a guest call holds. Two rules build such statements. The one for
arbitrary expressions looks at the expression that it has: a call or a pipe becomes a
statement for a guest call, anything else one for an expression. The other rule looks ahead
along the dotted chain at the beginning, and if that ends in a call then it takes whatever
the whole expression turns out to be. Behind the call there may be indexes, fields and
operators, and so the statement may hold a sum or a ternary. `wrapped_sum` is an example.

What is true is that the expression is a pipe or begins with a guest call. Where no handler
looks ahead, it is a call or a pipe.

## Main definitions

* `Expr.isPipe`, `Expr.beginsWithCall`: The shapes of an expression.
* `Program.calls`: What the statements for guest calls hold.

## Theorems

* `Derives.beginsWithCall`: A chain that leads to a call is the beginning of a guest call.
* `guest_calls_lead`: What a statement for a guest call holds.
* `wrapped_sum`: It may be a sum.
-/

namespace PolyScript

/-- Whether an expression consists of stages joined by pipe operators. -/
def Expr.isPipe : Expr → Bool
  | .pipe .. => true
  | _ => false

/-- Whether the first operand of an expression is a guest call. -/
def Expr.beginsWithCall : Expr → Bool
  | .languageCall .. => true
  | .index e _ _ | .fieldAccess e _ _ | .binary e _ _ _ | .ternary e _ _ _ | .elvis e _ _ =>
    e.beginsWithCall
  | _ => false

/-- What a statement for a guest call holds. -/
def Statement.call? : Statement → Option Expr
  | .languageCall call _ _ => some call
  | _ => none

/-- What the statements of a program for guest calls hold, at any depth. -/
def Program.calls (program : Program) : List Expr := program.within.filterMap Statement.call?

/-- Whether a part of an expression begins with a guest call. Lists of parts do not count. -/
def Phrase.BeginsWithCall : Phrase → Prop
  | .suffixed e | .operand e | .chain _ e | .expression e => e.beginsWithCall = true
  | .expressions _ | .entries _ | .value .. | .size _ | .segments .. => True

theorem Parse.literalOf_memberName {source : String} {t : Token} {e : Expr}
    (hname : isMemberName t.kind = true) : literalOf source t ≠ .ok e := by
  intro h
  rw [isMemberName, Bool.or_eq_true, decide_eq_true_eq, decide_eq_true_eq] at hname
  rcases hname with hkind | hkind <;> rw [literalOf, hkind] at h <;> cases h

theorem UnaryOp.ofKind?_memberName {kind : Kind} (hname : Parse.isMemberName kind = true) :
    ofKind? kind = none := by
  revert hname
  cases kind <;> decide

/-- A dotted chain that leads to a call is the beginning of a guest call. -/
theorem Derives.beginsWithCall {env : Parse.Env} {τ υ : Tape env.source} {phrase : Phrase}
    (h : Derives env τ phrase υ) (hname : Parse.isMemberName τ.head.kind = true)
    (hdot : τ.tail.head.kind = .dot) (hcalls : τ.tail.Calls) : phrase.BeginsWithCall := by
  induction h with
  -- The chain that leads to a call rules out all operands but a guest call, since all of them
  -- begin with the same tokens.
  | literal h => exact absurd h (Parse.literalOf_memberName hname)
  | name _ hnot => exact absurd hcalls hnot
  | qualified _ _ hnot => exact absurd hcalls hnot
  | languageCall => exact rfl
  | builtinCall _ hparen => exact absurd (hparen.symm.trans hdot) (by decide)
  | grouped hkind | array hkind | object hkind | bitstring hkind =>
      rw [hkind] at hname
      exact absurd hname (by decide)
  | unary hop =>
      rw [UnaryOp.ofKind?_memberName hname] at hop
      cases hop
  -- Suffixes and operators follow an operand that begins where they do.
  | index _ _ _ _ ih => exact ih hname hdot hcalls
  | fieldAccess _ _ ih => exact ih hname hdot hcalls
  | suffixed _ ih => exact ih hname hdot hcalls
  | operand _ ih => exact ih hname hdot hcalls
  | binary _ _ _ _ _ _ ih => exact ih hname hdot hcalls
  | chain _ _ ih => exact ih hname hdot hcalls
  | elvis _ _ _ ih => exact ih hname hdot hcalls
  | ternary _ _ _ _ _ ih => exact ih hname hdot hcalls
  | noExpressions | expressions | noEntries | entries | value | negative | segmentName | underscore
  | noSize | size | noSegments | segments => exact trivial

/-- What a derived statement for a guest call holds. -/
theorem DerivesStatement.call {env : Parse.Env} {ahead : Prop} {τ υ : Tape env.source} {call : Expr}
    {background : Bool} {p : Position}
    (h : DerivesStatement env ahead τ (.statement (.languageCall call background p)) υ) :
    Parse.isGuestCall call = true ∨ (ahead ∧ call.beginsWithCall = true) := by
  cases h with
  | guestCall hguest => exact .inl hguest
  | ofConditional h => cases h
  | chainCall hahead hname hdot hcalls hcall =>
      cases hcall with
      | pipe => exact .inl rfl
      | unpiped he => exact .inr ⟨hahead, he.beginsWithCall hname hdot hcalls⟩

theorem Expr.of_isGuestCall {e : Expr} (h : Parse.isGuestCall e = true) :
    e.isPipe = true ∨ e.beginsWithCall = true := by
  cases e <;> first | exact .inl rfl | exact .inr rfl | cases h

/-- A handler looks ahead if one of the settings does. -/
theorem Registry.asksAhead_ofSettings {settings : Settings}
    (h : (ofSettings settings).AsksAhead) :
    ∃ h ∈ settings.handlers, h.enabled = true ∧ h.construct = .languageCall := by
  rcases h with ⟨handler, hmem, henabled, hconstruct⟩
  rw [(holds_ofSettings settings).handlers] at hmem
  rcases List.mem_map.1 hmem with ⟨entry, hentry, rfl⟩
  exact ⟨entry, hentry, henabled, hconstruct⟩

/-- Under any settings, the expression of a statement for a guest call is a pipe or begins
    with a guest call, in all of an accepted program. Where no handler looks ahead for guest
    calls it is a pipe or a guest call. -/
theorem guest_calls_lead (settings : Settings) (source : String) (program : Program)
    (h : (Parser.ofSettings settings).parse source = .ok program) :
    (∀ call ∈ program.calls, call.isPipe = true ∨ call.beginsWithCall = true) ∧
      ((∀ h ∈ settings.handlers, h.enabled = true → h.construct ≠ .languageCall) →
        ∀ call ∈ program.calls, Parse.isGuestCall call = true) := by
  have hcalls : ∀ call ∈ program.calls, Parse.isGuestCall call = true ∨
      ((Registry.ofSettings settings).AsksAhead ∧ call.beginsWithCall = true) := by
    intro call hmem
    rcases List.mem_filterMap.1 hmem with ⟨s, hs, hcall⟩
    rcases Parser.derives_within h s hs with ⟨τ, υ, _, hderives⟩
    cases s with
    | languageCall =>
        cases hcall
        exact hderives.call
    | _ => cases hcall
  refine ⟨fun call hmem => ?_, fun hnone call hmem => ?_⟩
  · exact (hcalls call hmem).elim Expr.of_isGuestCall fun h => .inr h.2
  -- The second way to such a statement is open only if a handler looks ahead.
  · refine (hcalls call hmem).resolve_right fun hahead => ?_
    rcases Registry.asksAhead_ofSettings hahead.1 with ⟨entry, hentry, henabled, hconstruct⟩
    exact hnone entry hentry henabled hconstruct

/-- A call with an index and an operator behind it, in a block, and a call in the
    background. -/
theorem guest_calls_lead_nested :
    ∃ program, (Parser.ofSettings Settings.defaults).parse "if a { py.f(1)[0] + 2 }\ngo.g() &" =
        .ok program ∧ program.calls.length = 2 ∧
      ∀ call ∈ program.calls, call.isPipe = true ∨ call.beginsWithCall = true := by
  rcases Parser.accepts_of_inOrder (Parser.ofSettings Settings.defaults)
    "if a { py.f(1)[0] + 2 }\ngo.g() &" (fun program => program.calls.length = 2)
    (by decide +kernel) with ⟨program, hparse, hlength⟩
  exact ⟨program, hparse, of_decide_eq_true hlength,
    (guest_calls_lead Settings.defaults _ program hparse).1⟩

/-- A statement for a guest call may hold a sum. -/
theorem wrapped_sum :
    ¬∀ program, (Parser.ofSettings Settings.defaults).parse "py.f(1) + 2" = .ok program →
      ∀ call ∈ program.calls, Parse.isGuestCall call = true := by
  intro hall
  rcases Parser.accepts_of_inOrder (Parser.ofSettings Settings.defaults) "py.f(1) + 2"
    (fun program => !program.calls.all Parse.isGuestCall) (by decide +kernel) with
    ⟨program, hparse, hsum⟩
  rw [List.all_eq_true.2 (hall program hparse)] at hsum
  cases hsum

end PolyScript
