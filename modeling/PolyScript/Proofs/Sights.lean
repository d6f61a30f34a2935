import PolyScript.Proofs.Rounds

/-!
# What the Look-Ahead for an Assignment Sees

The look-ahead for an assignment goes over tokens until it finds the sign or comes to where
the statement ends. What it answers is settled by the kinds of the tokens ahead, and it is
the same from any place on the way, with the brackets that are open there.

A rule of the grammar that takes tokens takes the look-ahead along. So what would be seen
from the end of a construct is what was seen from its beginning, provided that no token was
taken at which the look-ahead stops. The tokens may have been read in size mode, where names
are cut at their dashes. The look-ahead does not mind: the pieces of a name are nothing to it.

## Main definitions

* `Parse.sightsAssign`: What tokens say about an assignment that lies ahead.
* `Lexer.Sights`: What is seen from where a lexer stands.

## Theorems

* `Lexer.Sights.behind`: From behind a token the same is seen as from before.
* `Parse.assignmentAhead_sees`: The answer of the look-ahead.
* `Parse.sightsAssign_strict`: With terminators enforced the look-ahead goes further.
-/

namespace PolyScript

namespace Parse

/-- Whether an assignment sign is seen outside of all brackets before the statement ends, where
    so many brackets are open and tokens of these kinds are ahead. -/
def sightsAssign (isRelaxed : Bool) : Nat → List Kind → Bool
  | _, [] => false
  | depth, kind :: kinds =>
    match glance isRelaxed depth kind with
    | .found => true
    | .absent => false
    | .deeper next => sightsAssign isRelaxed next kinds

/-- A statement may end earlier where terminators are not enforced. -/
theorem sightsAssign_strict {depth : Nat} {kinds : List Kind}
    (h : sightsAssign true depth kinds = true) : sightsAssign false depth kinds = true := by
  -- Only at a terminator, and outside all brackets, does the strictness show.
  have hglance : ∀ depth kind, glance false depth kind = glance true depth kind ∨
      glance true depth kind = .absent := by
    intro depth kind
    cases kind <;> simp only [glance, true_or]
    by_cases hdepth : depth = 0 <;> simp [hdepth]
  induction kinds generalizing depth with
  | nil => cases h
  | cons kind kinds ih =>
      unfold sightsAssign at h ⊢
      rcases hglance depth kind with hsame | habsent
      · rw [hsame]
        cases hlook : glance true depth kind with
        | found => rfl
        | absent => rw [hlook] at h; cases h
        | deeper next =>
            rw [hlook] at h
            exact ih h
      · rw [habsent] at h
        cases h

theorem sightsAssign_mono {isRelaxed isRelaxed' : Bool} (hle : isRelaxed = true → isRelaxed' = true)
    {depth : Nat} {kinds : List Kind} (h : sightsAssign isRelaxed' depth kinds = true) :
    sightsAssign isRelaxed depth kinds = true := by
  cases isRelaxed <;> cases isRelaxed'
  · exact h
  · exact sightsAssign_strict h
  · cases hle rfl
  · exact h

/-- What does not end a statement where it may end earlier does not end it elsewhere. -/
theorem glance_deeper {depth next : Nat} {kind : Kind} (h : glance true depth kind = .deeper next)
    (isRelaxed : Bool) : glance isRelaxed depth kind = .deeper next := by
  cases isRelaxed with
  | true => exact h
  | false =>
      cases kind <;> first | exact h | skip
      by_cases hdepth : depth = 0
      · rw [hdepth] at h
        cases h
      · simpa [glance, hdepth] using h

theorem glance_piece {isRelaxed : Bool} {depth : Nat} {kind : Kind} (h : kind.shape = .piece) :
    glance isRelaxed depth kind = .deeper depth := by
  cases kind <;> first | rfl | cases h

end Parse

namespace Lexer

open Parse

/-- What the look-ahead sees from where a lexer stands, in plain reading. -/
def Sights (isRelaxed : Bool) (depth : Nat) (lx : Lexer) (b : Bool) : Prop :=
  ∃ ts r, lx.plain.Yields ts r ∧ sightsAssign isRelaxed depth (ts.map Token.kind) = b

variable {lx lx' mx : Lexer} {t : Token} {isRelaxed : Bool} {depth next : Nat} {b : Bool}

theorem exists_sights (lx : Lexer) (isRelaxed : Bool) (depth : Nat) :
    ∃ b, lx.Sights isRelaxed depth b := by
  rcases exists_yields lx.plain with ⟨ts, r, h⟩
  exact ⟨_, ts, r, h, rfl⟩

theorem Sights.of_plain (h : lx.Sights isRelaxed depth b) (heq : lx.plain = mx.plain) :
    mx.Sights isRelaxed depth b := by
  rcases h with ⟨ts, r, hyields, hsees⟩
  exact ⟨ts, r, heq ▸ hyields, hsees⟩

theorem plain_next (hnext : lx.plain.next = (.ok t, lx')) : lx'.plain = lx' := by
  rcases Lexer.next_ok hnext with ⟨hlx, _⟩
  rw [hlx]
  rfl

/-- One token further the same is seen. -/
theorem Sights.step (hnext : lx.plain.next = (.ok t, lx')) (hend : t.isEnd = false)
    (hglance : glance isRelaxed depth t.kind = .deeper next) (h : lx'.Sights isRelaxed next b) :
    lx.Sights isRelaxed depth b := by
  rcases h with ⟨ts, r, hyields, hsees⟩
  rw [plain_next hnext] at hyields
  refine ⟨t :: ts, r, .token hnext hend hyields, ?_⟩
  rw [List.map_cons, sightsAssign, hglance]
  exact hsees

theorem sights_found (hnext : lx.plain.next = (.ok t, lx')) (hend : t.isEnd = false)
    (hglance : glance isRelaxed depth t.kind = .found) : lx.Sights isRelaxed depth true := by
  rcases exists_yields lx' with ⟨ts, r, hyields⟩
  refine ⟨t :: ts, r, .token hnext hend hyields, ?_⟩
  rw [List.map_cons, sightsAssign, hglance]

/-- What is crossed is nothing to the look-ahead. -/
theorem Crosses.sights (h : Crosses mx lx) (hsees : lx.Sights isRelaxed depth b) :
    mx.Sights isRelaxed depth b := by
  induction h with
  | here heq => exact hsees.of_plain (by rw [← heq]; rfl)
  | piece hnext hshape _ ih =>
      refine ih ?_
      rcases hsees with ⟨ts, r, hyields, hsees⟩
      rcases hyields.of_ok hnext (isEnd_of_shape hshape) with ⟨rest, rfl, hrest⟩
      rw [List.map_cons, sightsAssign, glance_piece hshape] at hsees
      exact ⟨rest, r, by rw [plain_next hnext]; exact hrest, hsees⟩

/-- From behind a token the same is seen as from before, in whichever mode it was read. -/
theorem Sights.behind (hnext : lx.next = (.ok t, lx')) (hend : t.isEnd = false)
    (hglance : glance isRelaxed depth t.kind = .deeper next) (h : lx'.Sights isRelaxed next b) :
    lx.Sights isRelaxed depth b := by
  rcases next_mode lx with ⟨hresult, hlexer⟩ | ⟨u, ux, v, vx, hsized, hu, hplain, hv, hcrosses⟩
  · have hplain : lx.plain.next = (.ok t, lx'.plain) := by
      rw [hnext] at hresult hlexer
      exact Prod.ext hresult.symm hlexer.symm
    exact .step hplain hend hglance (h.of_plain rfl)
  · cases hsized.symm.trans hnext
    rw [glance_piece hu] at hglance
    cases hglance
    exact .step hplain (isEnd_of_shape hv) (glance_piece hv) (hcrosses.sights h)

/-- Every token takes a character. -/
theorem Yields.length_le {ts : List Token} {r : Option LexError} (h : lx.Yields ts r) :
    ts.length ≤ lx.cursor.rest.length := by
  induction h with
  | done => exact Nat.zero_le _
  | fail => exact Nat.zero_le _
  | token hnext hend _ ih =>
      have hshorter := next_shorter hnext hend
      rw [List.length_cons]
      omega

end Lexer

namespace Parse

open Lexer

variable {env : Env} {s : State} {lx : Lexer} {ts : List Token} {r : Option LexError}

/-- The rounds of the look-ahead. -/
theorem iterate_seekAssignment_yields (isRelaxed : Bool) (hyields : lx.Yields ts r) (hs : s.At lx)
    (hsound : s.Sound env.source) {n depth : Nat} (hn : ts.length < n) :
    ∃ t, iterate (seekAssignment isRelaxed) n depth env s =
      .ok (sightsAssign isRelaxed depth (ts.map Token.kind)) t := by
  -- Where no token is left, or none that can be read, the look-ahead stops.
  have hstop : ∀ {s : State} {n depth : Nat}, s.token.kind = .endOfInput → 0 < n →
      ∃ t, iterate (seekAssignment isRelaxed) n depth env s = .ok false t := by
    intro s n depth hend hn
    obtain ⟨n, rfl⟩ : ∃ m, n = m + 1 := ⟨n - 1, by omega⟩
    rw [iterate_succ_run, seekAssignment_run, hend]
    exact ⟨_, rfl⟩
  induction hyields generalizing s n depth with
  | done hnext hend =>
      exact hstop (by rw [hs.token_ok hsound hnext]; exact of_decide_eq_true hend) hn
  | fail hnext => exact hstop (by rw [(hs.token_error hsound hnext).1]; rfl) hn
  | @token lx lx' t ts r hnext hend _ ih =>
      obtain ⟨n, rfl⟩ : ∃ m, n = m + 1 := ⟨n - 1, by omega⟩
      rw [iterate_succ_run, seekAssignment_run, hs.token_ok hsound hnext, List.map_cons,
        sightsAssign]
      cases glance isRelaxed depth t.kind with
      | found => exact ⟨_, rfl⟩
      | absent => exact ⟨_, rfl⟩
      | deeper next =>
          rw [List.length_cons] at hn
          exact ih (hs.advanced hsound hnext hend) hsound.advanced (by omega)

/-- The look-ahead answers what the tokens say, and has only read. -/
theorem assignmentAhead_sees (hyields : lx.Yields ts r) (hs : s.At lx) (hsound : s.Sound env.source)
    (hwithin : lx.Within env.source) :
    ∃ t, s.Reads t ∧
      assignmentAhead env s = .ok (sightsAssign s.isRelaxed 0 (ts.map Token.kind)) t := by
  have hlength := hyields.length_le
  have hsource := hwithin.length_le
  have hbudget : ts.length < env.source.utf8ByteSize + 2 := by omega
  rcases iterate_seekAssignment_yields s.isRelaxed hyields hs hsound hbudget with ⟨u, hrounds⟩
  have hrun : assignmentAhead env s =
      .ok (sightsAssign s.isRelaxed 0 (ts.map Token.kind)) { u with cursor := s.cursor } := by
    rw [assignmentAhead_run, lookahead_run, loop_run, hrounds]
  refine ⟨_, ?_, hrun⟩
  rcases scans_assignmentAhead env s with ⟨_, t, hreads, hok⟩ | ⟨_, _, hfail⟩
  · cases (hok env.guard).symm.trans hrun
    exact hreads
  · cases (hfail env.guard).symm.trans hrun

end Parse

end PolyScript
