import PolyScript.Proofs.Alike

/-!
# Exchanging the Environment

Most rules make no use of most of the environment: only entering a level asks the guard,
and only names ask the languages. A parser that asks for neither cannot tell two
environments of the same text apart, and this is so for every parser that is put together
from such parsers.

Loops are the exception. The budget of a loop comes from the text, but when it is spent
then the error names the limit of the guard.

## Main definitions

* `Parse.Indifferent`: A parser does not tell two environments apart.

## Theorems

* `Parse.Indifferent.bind`, `Parse.Indifferent.loop`: Parsers that are put together.
* `Parse.Survey.indifferent`: The look-aheads of unbounded length.
* `Parse.indifferent_literal`, `Parse.indifferent_guestBody`: What is read off the text.
-/

namespace PolyScript

namespace Parse

variable {α β : Type} {env env' : Env}

/-- A parser comes to the same in one environment as in another. -/
def Indifferent (env env' : Env) (p : Parse α) : Prop := ∀ s, p env' s = p env s

theorem Indifferent.bind {p : Parse α} {f : α → Parse β} (hp : Indifferent env env' p)
    (hf : ∀ a, Indifferent env env' (f a)) : Indifferent env env' (p >>= f) := by
  intro s
  rw [bind_run, bind_run, hp]
  cases p env s with
  | ok a t => exact hf a t
  | error e t => rfl

theorem Indifferent.ite {c : Prop} [Decidable c] {p q : Parse α} (hp : Indifferent env env' p)
    (hq : Indifferent env env' q) : Indifferent env env' (if c then p else q) := by
  split
  · exact hp
  · exact hq

theorem indifferent_pure (a : α) : Indifferent env env' (pure a : Parse α) := fun _ => rfl

theorem indifferent_throw (e : ParseError) : Indifferent env env' (throw e : Parse α) :=
  fun _ => rfl

theorem indifferent_peekKind (n : Nat) : Indifferent env env' (peekKind n) := fun _ => rfl

theorem indifferent_check (kind : Kind) : Indifferent env env' (check kind) := fun _ => rfl

theorem Indifferent.taking {f : Token → Parse β} (hf : ∀ t, Indifferent env env' (f t)) :
    Indifferent env env' (consume >>= f) := .bind (fun _ => rfl) hf

theorem Indifferent.lookahead {p : Parse α} (hp : Indifferent env env' p) :
    Indifferent env env' (lookahead p) :=
  .bind (fun _ => rfl) fun _ => hp.bind fun _ => .bind (fun _ => rfl) fun _ => indifferent_pure _

theorem indifferent_expect (kind : Kind) : Indifferent env env' (expect kind) :=
  (indifferent_check kind).bind fun _ => .ite (fun _ => rfl) fun _ => rfl

theorem indifferent_expectClosing (o : Token) (kind : Kind) :
    Indifferent env env' (expectClosing o kind) :=
  (indifferent_check kind).bind fun _ => .ite (fun _ => rfl) fun _ => rfl

theorem indifferent_expectTerminator : Indifferent env env' expectTerminator :=
  .bind (fun _ => rfl) fun _ => .ite (fun _ => rfl) fun _ => rfl

/-! ### The text -/

section

variable (hsource : env'.source = env.source)

include hsource

/-- What is done with the text does not depend on the rest of the environment. -/
theorem Indifferent.reading {f : Env → Parse α}
    (hf : ∀ e e' : Env, e'.source = e.source → f e' = f e) (h : Indifferent env env' (f env)) :
    Indifferent env env' (read >>= f) := by
  intro s
  change f env' env' s = f env env s
  rw [hf env env' hsource]
  exact h s

theorem indifferent_literal : Indifferent env env' literal := by
  refine .bind (fun _ => rfl) fun token => .reading hsource (fun e e' he => by simp only [he]) ?_
  split
  · exact .taking fun _ => indifferent_pure _
  · exact indifferent_throw _

theorem indifferent_guestBody (language : String) (names : List String) (p : Position) :
    Indifferent env env' (guestBody language names p) := by
  refine (indifferent_expect _).bind fun opening =>
    .reading hsource (fun e e' he => by simp only [he]) ?_
  dsimp only
  split
  · exact indifferent_throw _
  · exact .bind (fun _ => rfl) fun _ => indifferent_pure _

end

/-! ### Loops -/

section

variable (hsource : env'.source = env.source) (hguard : env'.guard = env.guard)

include hsource hguard

omit hsource in
theorem indifferent_exhausted : Indifferent env env' (exhausted : Parse α) := by
  intro s
  change EStateM.Result.error (ParseError.tooDeep env'.guard.maxDepth _) _ = _
  rw [hguard]
  rfl

/-- A loop whose rounds cannot tell two environments apart cannot either, as the bound on rounds
    is that of the text. -/
theorem Indifferent.loop {f : α → Parse (α ⊕ β)} (hf : ∀ a, Indifferent env env' (f a)) (a : α) :
    Indifferent env env' (loop a f) := by
  have hrounds : ∀ n a, Indifferent env env' (iterate f n a) := by
    intro n
    induction n with
    | zero => exact fun _ => indifferent_exhausted hguard
    | succ n ih =>
        refine fun a => (hf a).bind fun r => ?_
        cases r with
        | inl next => exact ih next
        | inr b => exact indifferent_pure b
  exact .reading hsource (fun e e' he => by rw [he]) (hrounds _ a)

/-- An unbounded look-ahead reads tokens only, so it does not depend on the languages and the
    guard. -/
theorem Survey.indifferent {stage : Stage} {κ : Nat → Kind} {p : Parse Bool} {V : Bool → Prop}
    (h : Survey stage κ p V) : Indifferent env env' p := by
  -- The rounds of a loop depend on the length of the source, which is the same in both.
  have hloop : ∀ {γ δ : Type} {f : γ → Parse (γ ⊕ δ)} (a : γ), (∀ a, Indifferent env env' (f a)) →
      Indifferent env env' (Parse.loop a f) := fun a hf => .loop hsource hguard hf a
  cases h with
  | call =>
      have hmember : Indifferent env env' memberAhead :=
        (indifferent_check _).bind fun _ => .ite (fun _ => rfl) (indifferent_pure _)
      refine .lookahead (.taking fun _ => hloop () fun _ => hmember.bind fun _ => ?_)
      exact .ite (.taking fun _ => .taking fun _ => indifferent_pure _) fun _ => rfl
  | captures =>
      refine .lookahead (.taking fun _ => (indifferent_check _).bind fun _ =>
        .ite (.taking fun _ => ?_) (indifferent_check _))
      refine (hloop () fun _ => (indifferent_peekKind 0).bind fun _ =>
        .ite (.taking fun _ => indifferent_pure _) (indifferent_pure _)).bind fun _ => ?_
      exact (indifferent_check _).bind fun _ =>
        .ite (.taking fun _ => indifferent_check _) (indifferent_pure _)
  | forIn =>
      refine .lookahead (.taking fun _ => hloop () fun _ => (indifferent_peekKind 0).bind fun _ =>
        .ite (.taking fun _ => (indifferent_peekKind 0).bind fun kind => ?_) (indifferent_pure _))
      split
      · exact .taking fun _ => indifferent_pure _
      · exact indifferent_pure _
      · exact indifferent_pure _
  | assignment =>
      refine .bind (fun _ => rfl) fun s => .lookahead (hloop 0 fun depth =>
        (indifferent_peekKind 0).bind fun kind => ?_)
      split
      · exact indifferent_pure _
      · exact indifferent_pure _
      · exact .taking fun _ => indifferent_pure _
  | newlines =>
      exact hloop 0 fun n => (indifferent_peekKind n).bind fun _ =>
        .ite (indifferent_pure _) (indifferent_pure _)

end

end Parse

end PolyScript
