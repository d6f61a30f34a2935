import PolyScript.Proofs.Within

/-!
# Else Blocks in the Text

A conditional that follows an else directly makes up the else block by itself. In the tree
nothing but its place tells such a block from one in braces: the block stands at the else
and not at a brace or a colon. So the two are told apart in the text. There is an else, and
behind it, after white space and comments, either a brace or a colon, or a conditional.

That nothing else is between the else and what follows it is known because the tape that
was read is unbroken. There may be a newline token before a brace, which is a piece of white
space like any other.

## Main definitions

* `Kind.IsSpelled`: All tokens of a kind have the same spelling.
* `Block.FollowsElse`: An else block as it stands in a text.

## Theorems

* `Token.IsOf.text_eq`: How tokens of such a kind are spelled.
* `Tape.Unbroken.precedes`: What follows a token and newlines.
* `DerivesStatement.followsElse`: Derived else blocks stand in the text like this.
-/

namespace PolyScript

/-! ### Spellings -/

/-- The kinds of which all tokens are spelled alike, with the spelling. -/
def Kind.spellings : List (List Char × Kind) :=
  ("\n".toList, newline) :: (symbols ++ reserved.map fun s => (s.1.toList, s.2))

/-- All tokens of a kind have this spelling. -/
def Kind.IsSpelled (kind : Kind) (text : List Char) : Prop :=
  kind ∉ [endOfInput, number, string, identifier] ∧ ∀ s ∈ spellings, s.2 = kind → s.1 = text

instance (kind : Kind) (text : List Char) : Decidable (kind.IsSpelled text) :=
  inferInstanceAs (Decidable (_ ∧ _))

theorem Kind.spelling_ofWord {word : String} (h : ofWord word ≠ identifier) :
    (word.toList, ofWord word) ∈ spellings := by
  unfold ofWord keyword? at *
  cases hlookup : reserved.lookup word with
  | none =>
      rw [hlookup] at h
      exact absurd rfl h
  | some kind =>
      have hmem : (word, kind) ∈ reserved := mem_of_lookup_eq_some hlookup
      exact List.mem_cons_of_mem _ (List.mem_append_right _ (List.mem_map_of_mem hmem))

/-- Apart from literals, names and the end of the text, tokens have fixed spellings. -/
theorem Token.IsOf.spelling {source : List Char} {t : Token} (h : t.IsOf source) :
    t.kind ∈ [.endOfInput, .number, .string, .identifier] ∨
      (t.text.toList, t.kind) ∈ Kind.spellings := by
  rcases h with ⟨before, rest, -, -, hend | ⟨sizeMode, after, hscan⟩⟩
  · rw [hend]
    exact .inl List.mem_cons_self
  · generalize t.position = p at hscan
    cases Lexer.scansAs_of_scanToken hscan with
    | endOfInput => exact .inl List.mem_cons_self
    | string | number => exact .inl (by simp)
    | newline => exact .inr List.mem_cons_self
    | word =>
        refine or_iff_not_imp_left.2 fun hnot => Kind.spelling_ofWord fun hname => hnot ?_
        exact List.mem_of_elem_eq_true (by rw [hname]; rfl)
    | symbol hsymbol =>
        rw [String.toList_ofList]
        exact .inr (List.mem_cons_of_mem _
          (List.mem_append_left _ (Lexer.mem_of_symbol? hsymbol).1))

theorem Token.IsOf.text_eq {source : List Char} {t : Token} (h : t.IsOf source) {kind : Kind}
    {text : List Char} (hkind : t.kind = kind) (hspelled : kind.IsSpelled text) :
    t.text.toList = text := by
  rcases h.spelling with hopen | hmem
  · rw [hkind] at hopen
    exact absurd hopen hspelled.1
  · exact hspelled.2 _ hmem hkind

namespace Token

variable {source : String} {t u v : Token}

/-- A newline between two tokens is white space. -/
theorem Precedes.trans (h : t.Precedes source u) (h' : u.Precedes source v)
    (hu : u.IsOf source.toList) (hnewline : u.kind = .newline) : t.Precedes source v := by
  rcases h with ⟨before, piece, gap, piece', rest, hsource, hgap, ht, hspells⟩
  rcases h' with ⟨before', line, gap', final, rest', hsource', hgap', hspells', hv⟩
  have hline : line = ['\n'] := by
    rw [← hspells'.text (by rw [hnewline]; decide)]
    exact hu.text_eq hnewline (by decide)
  -- Both times the newline is at the same byte, so both ways to split the text agree there.
  have hbytes : Position.byteCount (before ++ piece ++ gap) = Position.byteCount before' := by
    rw [← Position.offset_after, ← Position.offset_after, ← hspells.position, ← hspells'.position]
  have hsplit := Text.splitBytes?_append (before ++ piece ++ gap) (piece' ++ rest)
  rw [hbytes, ← List.append_assoc, ← hsource, hsource', List.append_assoc, List.append_assoc,
    List.append_assoc, Text.splitBytes?_append, Option.some.injEq, Prod.mk.injEq] at hsplit
  rcases hsplit with ⟨hbefore, hrest⟩
  rw [← hrest, hline] at hgap
  rw [hbefore, hline] at hsource' hv
  refine ⟨before, piece, gap ++ ('\n' :: gap'), final, rest', ?_, ?_, ht, ?_⟩
  · rw [hsource']
    simp
  · exact IsSeparation.append (by simpa using hgap) (.blank (by decide) hgap')
  · simpa using hv

end Token

/-- What follows a token and newlines stands behind it, and nothing is between them. -/
theorem Tape.Unbroken.precedes {source : String} {τ : Tape source} (h : τ.Unbroken)
    (hopen : τ.head.isEnd = false) {k : Nat} (hk : τ.tail.Newlines k)
    (hend : (τ.tail.drop k).head.isEnd = false) :
    τ.head.Precedes source (τ.tail.drop k).head := by
  have hline {i : Nat} (hi : i < k) : (τ.token (1 + i)).isEnd = false := by
    rw [Token.isEnd, show (τ.token (1 + i)).kind = .newline from hk.1 i hi]
    rfl
  -- By induction on the newlines that have been passed.
  have hall : ∀ j ≤ k, (τ.token (1 + j)).isEnd = false →
      τ.head.Precedes source (τ.token (1 + j)) := by
    intro j
    induction j with
    | zero => exact fun _ hnext => h 0 hopen hnext
    | succ j ih =>
        intro hj hnext
        have hnewline := hline (Nat.lt_of_succ_le hj)
        exact (ih (Nat.le_of_succ_le hj) hnewline).trans (h (1 + j) hnewline hnext) (τ.isOf _)
          (hk.1 j (Nat.lt_of_succ_le hj))
  exact hall k (Nat.le_refl k) hend

/-- What is found in the text if an else is followed by newlines and a token of a kind whose
    spelling is known. -/
theorem Tape.Unbroken.behind_else {source : String} {τ : Tape source} (h : τ.Unbroken)
    (hkind : τ.head.kind = .kwElse) {k : Nat} (hk : τ.tail.Newlines k) {kind : Kind}
    (hbehind : (τ.tail.drop k).head.kind = kind) (text : List Char)
    (hspelled : kind.IsSpelled text) :
    ∃ before gap rest, source.toList = before ++ "else".toList ++ gap ++ text ++ rest ∧
      IsSeparation (text ++ rest) gap ∧ τ.head.position = Position.after before ∧
      (τ.tail.drop k).head.position = Position.after (before ++ "else".toList ++ gap) := by
  have hopen : τ.head.isEnd = false := by
    rw [Token.isEnd, hkind]
    rfl
  have hproper : kind ≠ .endOfInput ∧ kind ≠ .string :=
    ⟨fun heq => hspelled.1 (by simp [heq]), fun heq => hspelled.1 (by simp [heq])⟩
  have hend : (τ.tail.drop k).head.isEnd = false := by
    rw [Token.isEnd, hbehind]
    exact decide_eq_false hproper.1
  rcases h.precedes hopen hk hend with
    ⟨before, word, gap, piece, rest, hsource, hgap, hword, hpiece⟩
  -- Both tokens are of kinds that are spelled in one way only.
  have hword' : word = "else".toList := by
    rw [← hword.text (by rw [hkind]; decide)]
    exact (τ.isOf 0).text_eq hkind (by decide)
  have hpiece' : piece = text := by
    rw [← hpiece.text (by rw [hbehind]; exact hproper.2)]
    exact ((τ.tail.drop k).isOf 0).text_eq hbehind hspelled
  subst hword' hpiece'
  exact ⟨before, gap, rest, hsource, hgap, hword.position, hpiece.position⟩

/-! ### Else blocks -/

/-- An else block as it stands in a text. Behind the else, after white space and comments,
    there is either a conditional, which is the only statement of the block, or the brace or
    colon with which the block begins. -/
inductive Block.FollowsElse (source : String) : Block → Prop
  | elseIf {before gap rest : List Char} {condition : Expr} {onTrue : Block}
    {onFalse : Option Block} :
    source.toList = before ++ "else".toList ++ gap ++ "if".toList ++ rest →
    IsSeparation ("if".toList ++ rest) gap →
    FollowsElse source (.mk [.conditional condition onTrue onFalse
      (Position.after (before ++ "else".toList ++ gap))] (Position.after before))
  | plain {before gap rest : List Char} {opener : Char} {statements : List Statement} :
    opener = ':' ∨ opener = '\x7b' →
    source.toList = before ++ "else".toList ++ gap ++ [opener] ++ rest →
    IsSeparation ([opener] ++ rest) gap →
    FollowsElse source (.mk statements (Position.after (before ++ "else".toList ++ gap)))

/-- Derived else blocks stand in the text as else blocks do. -/
theorem DerivesStatement.followsElse {env : Parse.Env} {ahead : Prop} {τ υ : Tape env.source}
    {b : Block} (h : DerivesStatement env ahead τ (.otherwise (some b)) υ) (hτ : τ.Unbroken) :
    b.FollowsElse env.source := by
  have hnone {χ : Tape env.source} {kind : Kind} (hkind : χ.head.kind = kind)
      (hproper : kind ≠ .newline) : χ.Newlines 0 := by
    refine ⟨by simp, ?_⟩
    rw [← Tape.head, hkind]
    exact hproper
  -- The form of the block settles what stands behind the keyword.
  cases h with
  | elseIf hstart hkind hconditional =>
      cases hconditional with
      | conditional hif =>
          rcases (hstart.unbroken hτ).behind_else hkind (hnone hif (by decide)) hif
            "if".toList (by decide) with
            ⟨before, gap, rest, hsource, hgap, helse, hposition⟩
          rw [Tape.drop_zero] at hposition
          rw [helse, hposition]
          exact .elseIf hsource hgap
  | otherwise hstart hkind hbody =>
      cases hbody with
      | single hcolon =>
          rcases (hstart.unbroken hτ).behind_else hkind (hnone hcolon (by decide)) hcolon
            [':'] (by decide) with
            ⟨before, gap, rest, hsource, hgap, -, hposition⟩
          rw [Tape.drop_zero] at hposition
          rw [hposition]
          exact .plain (.inl rfl) hsource hgap
      | body hk hblock =>
          cases hblock with
          | block hbrace =>
              rcases (hstart.unbroken hτ).behind_else hkind hk hbrace ['\x7b']
                (by decide) with
                ⟨before, gap, rest, hsource, hgap, -, hposition⟩
              rw [hposition]
              exact .plain (.inr rfl) hsource hgap

end PolyScript
