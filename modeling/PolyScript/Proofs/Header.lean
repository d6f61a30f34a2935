import PolyScript.Proofs.Rounds

/-!
# Words in a Row

Where it is known how a text goes on, it is known how it is read. A text that is laid
out as a row of words, with nothing but white space between them, is read as these
words, and the lexer stands behind each of them in turn.

Here the words are those that a block of guest code begins with: the tag of its
language, names in parentheses, and a brace. A parser that takes such words is
described by where its lexer begins and ends (`Parse.Arrives`), whatever its state is
otherwise.

## Main definitions

* `Lexer.inside`: The lexer behind a part of a text.
* `Lexer.Spells`: A word that is read as one token.
* `Lexer.Layout`: Words with white space before them.
* `Lexer.captureWords`: The words that name captures.
* `Parse.Arrives`: What a parser yields, and where its lexer stands then.

## Theorems

* `Lexer.IsMark.spells`, `Lexer.spells_word`: Symbols and names are read as such.
* `Parse.arrives_captures`: Captures are the names in parentheses.
-/

namespace PolyScript

namespace Text

/-- The code points of numerals and those of white space lie apart. -/
theorem numericRanges_apart :
    ∀ r ∈ blankRanges, ∀ a ∈ numericRanges, r.2 < a.1 ∨ a.2 < r.1 := by
  decide +kernel

/-- White space is no numeral. -/
theorem isNumeric_of_isBlank {c : Char} (h : isBlank c = true) : isNumeric c = false := by
  by_contra hnumeric
  rw [Bool.not_eq_false] at hnumeric
  unfold isNumeric at hnumeric
  unfold isBlank at h
  split at h
  · rename_i hascii
    rw [if_pos hascii] at hnumeric
    simp only [Bool.or_eq_true, Bool.and_eq_true, decide_eq_true_eq] at h hnumeric
    have hlow : 48 ≤ c.toNat := hnumeric.1
    rcases h with rfl | hcontrol
    · revert hlow
      decide
    · omega
  · rename_i hascii
    rw [if_neg hascii] at hnumeric
    rcases (inRanges_iff _ _).1 hnumeric with ⟨a, ha, hlow, hhigh⟩
    rcases (inRanges_iff _ _).1 h with ⟨r, hr, hrlow, hrhigh⟩
    rcases numericRanges_apart r hr a ha with hlt | hlt <;> omega

end Text

namespace Lexer

/-! ### Words -/

/-- The lexer of a text behind some part of it. -/
def inside (source : String) (before rest : List Char) : Lexer :=
  ⟨source, ⟨rest, Position.after before⟩, false⟩

/-- A character at which a name is over. -/
def EndsName (c : Char) : Prop := isNamePart c = false ∧ c ≠ '-'

theorem endsName_of_isBlank {c : Char} (h : Text.isBlank c = true) : EndsName c := by
  have hletter : Text.isAlphabetic c = false := by
    by_contra hletter
    rw [Text.isBlank_of_isAlphabetic (by simpa using hletter)] at h
    cases h
  refine ⟨?_, ?_⟩
  · have hscore : c ≠ '_' := by
      rintro rfl
      revert h
      decide
    simp [isNamePart, Text.isAlphanumeric, hletter, Text.isNumeric_of_isBlank h, hscore]
  · rintro rfl
    revert h
    decide

/-- Before some text a word is read as one token. -/
structure Spells (word : List Char) (kind : Kind) (rest : List Char) : Prop where
  starts : ∀ p, skipBlank false false (word ++ rest) p = ⟨word ++ rest, p⟩
  scanned : ∀ p, scanToken false (word ++ rest) p =
    (.ok ⟨kind, String.ofList word, p, (p.advanceAll word).offset⟩, ⟨rest, p.advanceAll word⟩)

/-- The brackets, the comma and the colon, which begin no longer symbols. -/
inductive IsMark : String → Kind → Prop
  | opening : IsMark "(" .leftParen
  | closing : IsMark ")" .rightParen
  | comma : IsMark "," .comma
  | brace : IsMark "\x7b" .leftBrace
  | closingBrace : IsMark "\x7d" .rightBrace
  | bracket : IsMark "[" .leftBracket
  | closingBracket : IsMark "]" .rightBracket
  | colon : IsMark ":" .colon

theorem IsMark.single {word : String} {kind : Kind} (h : IsMark word kind) :
    ∃ c, word.toList = [c] ∧ EndsName c := by
  cases h <;> exact ⟨_, rfl, by decide, by decide⟩

theorem IsMark.spells {word : String} {kind : Kind} (h : IsMark word kind) (rest : List Char) :
    Spells word.toList kind rest := by
  cases h <;> exact ⟨fun _ => rfl, fun _ => rfl⟩

/-- A text that is one name. -/
structure IsName (word : List Char) : Prop where
  start : word.head?.any isNameStart = true
  whole : splitWord false word = (word, [])

instance (word : List Char) : Decidable (IsName word) :=
  decidable_of_iff (word.head?.any isNameStart = true ∧ splitWord false word = (word, []))
    ⟨fun h => ⟨h.1, h.2⟩, fun h => ⟨h.1, h.2⟩⟩

/-- A word that is one name by itself is passed over, whatever follows it. -/
theorem splitWord_append_of_whole {sizeMode : Bool} {word : List Char}
    (h : splitWord sizeMode word = (word, [])) (cs : List Char) :
    splitWord sizeMode (word ++ cs) =
      (word ++ (splitWord sizeMode cs).1, (splitWord sizeMode cs).2) := by
  induction word with
  | nil => rfl
  | cons d word ih =>
      rw [splitWord] at h
      split at h
      · rename_i hgoes
        rw [Prod.mk.injEq, List.cons.injEq] at h
        -- The letter that a dash within the word needs behind it stands in the word, too.
        have hstill : (isNamePart d || (d = '-' && !sizeMode &&
            (word ++ cs).head?.any Text.isAlphabetic)) = true := by
          cases word with
          | nil =>
              have hpart : isNamePart d = true := by simpa using hgoes
              rw [hpart, Bool.true_or]
          | cons e word => exact hgoes
        rw [List.cons_append, splitWord, if_pos hstill, ih (Prod.ext h.1.2 h.2)]
        rfl
      · cases h

theorem splitWord_whole {word : List Char} (h : splitWord false word = (word, [])) {c : Char}
    (hc : EndsName c) (cs : List Char) :
    splitWord false (word ++ c :: cs) = (word, c :: cs) := by
  rw [splitWord_append_of_whole h, splitWord_stop hc.1 fun hdash => absurd hdash hc.2,
    List.append_nil]

/-- A name is read up to a character that ends it. -/
theorem spells_word {word : List Char} (h : IsName word) {c : Char} (hc : EndsName c)
    (cs : List Char) : Spells word (Kind.ofWord (String.ofList word)) (c :: cs) := by
  have hsplit := splitWord_whole h.whole hc cs
  cases word with
  | nil => cases h.start
  | cons d word =>
      have hstart : isNameStart d = true := h.start
      refine ⟨fun p => ?_, fun p => ?_⟩
      -- Neither a blank nor a comment begins with what begins a name.
      · have hletter : Text.isBlank d = false ∧ d ≠ '#' ∧ d ≠ '/' := by
          rw [isNameStart, Bool.or_eq_true, decide_eq_true_eq] at hstart
          rcases hstart with hletter | rfl
          · refine ⟨Text.isBlank_of_isAlphabetic hletter, ?_, ?_⟩ <;>
              · rintro rfl
                revert hletter
                decide
          · decide
        rw [List.cons_append, skipBlank, hletter.1, startsComment_cons]
        simp [hletter.2.1, hletter.2.2]
      · rw [List.cons_append, scanToken_word hstart]
        rw [List.cons_append] at hsplit
        simp only [wordToken, hsplit]

/-- White space within a line. -/
def IsGap (gap : List Char) : Prop := ∀ c ∈ gap, Text.isBlank c = true ∧ c ≠ '\n'

theorem skipBlank_gap {gap cs : List Char} (h : IsGap gap) (p : Position) :
    skipBlank false false (gap ++ cs) p = skipBlank false false cs (p.advanceAll gap) := by
  induction gap generalizing p with
  | nil => rfl
  | cons c gap ih =>
      have hc := h c List.mem_cons_self
      rw [List.cons_append, skipBlank, Position.advanceAll_cons,
        ← ih (fun d hd => h d (List.mem_cons_of_mem _ hd))]
      simp [hc.1, hc.2]

/-- The token of a word behind some text. -/
def spelled (before word : List Char) (kind : Kind) : Token :=
  ⟨kind, String.ofList word, Position.after before, (Position.after (before ++ word)).offset⟩

/-- A word is read, and the white space before it is passed over. -/
theorem next_inside {gap word rest : List Char} {kind : Kind} (hgap : IsGap gap)
    (hword : Spells word kind rest) (source : String) (before : List Char) :
    (inside source before (gap ++ word ++ rest)).next =
      (.ok (spelled (before ++ gap) word kind), inside source (before ++ gap ++ word) rest) := by
  have hafter : ∀ cs ds, (Position.after cs).advanceAll ds = Position.after (cs ++ ds) :=
    fun cs ds => (Position.advanceAll_append _ cs ds).symm
  have hstart : (inside source before (gap ++ word ++ rest)).tokenStart =
      ⟨word ++ rest, Position.after (before ++ gap)⟩ := by
    rw [tokenStart, inside, List.append_assoc, skipBlank_gap hgap, hword.starts, hafter]
  rw [next_eq, hstart]
  simp only [inside, hword.scanned, hafter]
  rfl

/-! ### Rows of words -/

/-- Words in a row, each with white space before it or none. -/
inductive Layout : List String → List Char → Prop
  | nil : Layout [] []
  | cons {word : String} {words : List String} {gap cs : List Char} :
    IsGap gap → Layout words cs → Layout (word :: words) (gap ++ word.toList ++ cs)

/-- A name that is not reserved. -/
structure IsPlain (name : String) : Prop where
  isName : IsName name.toList
  isIdentifier : Kind.ofWord name = .identifier

instance (name : String) : Decidable (IsPlain name) :=
  decidable_of_iff (IsName name.toList ∧ Kind.ofWord name = .identifier)
    ⟨fun h => ⟨h.1, h.2⟩, fun h => ⟨h.1, h.2⟩⟩

/-- The words that name captures: none, or names in parentheses. -/
def captureWords : Option (List String) → List String
  | none => []
  | some names => "(" :: (names.intersperse "," ++ [")"])

section

variable {word : String} {words : List String} {cs tail : List Char} {kind : Kind}

/-- A word of a row is read: the lexer goes from before the row to behind the word. -/
structure TakesWord (source : String) (before tail : List Char) (word : String)
    (words : List String) (cs read rest : List Char) (u : Token) : Prop where
  split : cs = read ++ rest
  word_le : word.toList.length ≤ read.length
  layout : Layout words rest
  next : (inside source before (cs ++ tail)).next =
    (.ok u, inside source (before ++ read) (rest ++ tail))
  text : u.text = word
  stop : u.stop = (Position.after (before ++ read)).offset

/-- The first word of a row is read. -/
theorem Layout.takes (h : Layout (word :: words) cs)
    (hword : ∀ rest, Layout words rest → Spells word.toList kind (rest ++ tail))
    (source : String) (before : List Char) :
    ∃ read rest u, TakesWord source before tail word words cs read rest u ∧ u.kind = kind := by
  cases h with
  | @cons _ _ gap rest hgap hrest =>
      refine ⟨gap ++ word.toList, rest, spelled (before ++ gap) word.toList kind,
        ⟨rfl, by simp, hrest, ?_, String.ofList_toList, ?_⟩, rfl⟩
      · rw [List.append_assoc (gap ++ word.toList), next_inside hgap (hword rest hrest),
          List.append_assoc before]
      · rw [spelled, List.append_assoc]

theorem Layout.takes_mark (h : Layout (word :: words) cs) (hmark : IsMark word kind)
    (source : String) (before tail : List Char) :
    ∃ read rest u, TakesWord source before tail word words cs read rest u ∧ u.kind = kind :=
  h.takes (fun _ _ => hmark.spells _) source before

/-- A row that begins with a bracket or a comma ends a name. -/
theorem Layout.ends (h : Layout (word :: words) cs) (hmark : IsMark word kind)
    (tail : List Char) :
    ∃ d ds, cs ++ tail = d :: ds ∧ EndsName d := by
  rcases hmark.single with ⟨c, hword, hc⟩
  cases h with
  | @cons _ _ gap _ hgap _ =>
      cases gap with
      | nil => exact ⟨c, _ ++ tail, by rw [hword]; rfl, hc⟩
      | cons d gap => exact ⟨d, _, rfl, endsName_of_isBlank (hgap d List.mem_cons_self).1⟩

/-- A name in front of a bracket or a comma is read. -/
theorem Layout.takes_name {name : String} (h : Layout (name :: word :: words) cs)
    (hname : IsName name.toList) (hmark : IsMark word kind) (source : String)
    (before tail : List Char) :
    ∃ read rest u, TakesWord source before tail name (word :: words) cs read rest u ∧
      u.kind = Kind.ofWord name := by
  refine h.takes (fun rest hrest => ?_) source before
  rcases hrest.ends hmark tail with ⟨d, ds, hds, hd⟩
  have hspells := spells_word hname hd ds
  rw [String.ofList_toList] at hspells
  rw [hds]
  exact hspells

end

end Lexer

namespace Parse

open Lexer

variable {α β : Type} {env : Env} {lx lx' mx : Lexer} {u v : Token}

/-! ### Where a parser arrives -/

/-- From a lexer on, a parser yields something and leaves another lexer. -/
def Arrives (env : Env) (lx : Lexer) (p : Parse α) (a : α) (mx : Lexer) : Prop :=
  ∀ s : State, s.At lx → s.Sound env.source →
    ∃ t, p env s = .ok a t ∧ t.At mx ∧ t.Sound env.source

theorem arrives_pure (a : α) : Arrives env lx (pure a) a lx := fun s hat hs => ⟨s, rfl, hat, hs⟩

theorem Arrives.bind {p : Parse α} {f : α → Parse β} {a : α} {b : β}
    (h : Arrives env lx p a mx) (hf : Arrives env mx (f a) b lx') :
    Arrives env lx (p >>= f) b lx' := by
  intro s hat hs
  rcases h s hat hs with ⟨t, hrun, hat', hs'⟩
  rw [bind_run, hrun]
  exact hf t hat' hs'

theorem arrives_current (hnext : lx.next = (.ok u, lx')) : Arrives env lx current u lx :=
  fun s hat hs => ⟨s.filled, by rw [current_run, hat.token_ok hs hnext], hat.filled hs, hs.filled⟩

theorem arrives_check (kind : Kind) (hnext : lx.next = (.ok u, lx')) :
    Arrives env lx (check kind) (decide (u.kind = kind)) lx :=
  fun s hat hs => ⟨s.filled, by rw [check_run, hat.token_ok hs hnext], hat.filled hs, hs.filled⟩

theorem arrives_consume (hnext : lx.next = (.ok u, lx')) (hend : u.isEnd = false) :
    Arrives env lx consume u lx' :=
  fun s hat hs => ⟨s.advanced, by rw [consume_run, hat.token_ok hs hnext],
    hat.advanced hs hnext hend, hs.advanced⟩

theorem arrives_languages : Arrives env lx languages env.languages lx :=
  fun s hat hs => ⟨s, rfl, hat, hs⟩

/-- Looking one token ahead. -/
theorem arrives_peekNext (hnext : lx.next = (.ok u, lx')) (hend : u.isEnd = false)
    (hnext' : lx'.next = (.ok v, mx)) : Arrives env lx (peekKind 1) v.kind lx := by
  intro s hat hs
  have htoken := hat.token_ok hs hnext
  have hadvanced := (hat.advanced hs hnext hend).token_ok hs.advanced hnext'
  rw [State.token, State.tokenAt_advanced, State.cursor_advanced (by rw [htoken]; exact hend)]
    at hadvanced
  have hreads : s.Reads { s with buffer := s.buffer.fill (s.cursor + 1) } := ⟨_, rfl⟩
  exact ⟨_, by rw [peekKind_run, hadvanced], hat.reads hs hreads, hs.reads hreads⟩

/-- A test whose answer is known. -/
theorem Arrives.ite_check {p q : Parse α} {a : α} (kind : Kind) (hnext : lx.next = (.ok u, lx'))
    (hp : u.kind = kind → Arrives env lx p a mx) (hq : u.kind ≠ kind → Arrives env lx q a mx) :
    Arrives env lx (check kind >>= fun b => if b then p else q) a mx := by
  refine (arrives_check kind hnext).bind ?_
  by_cases hkind : u.kind = kind
  · rw [decide_eq_true hkind]
    exact hp hkind
  · rw [decide_eq_false hkind]
    exact hq hkind

theorem arrives_expectClosing {kind : Kind} (opening : Token) (hnext : lx.next = (.ok u, lx'))
    (hkind : u.kind = kind) (hend : u.isEnd = false) :
    Arrives env lx (expectClosing opening kind) u lx' :=
  .ite_check kind hnext (fun _ => arrives_consume hnext hend) fun hne => absurd hkind hne

/-! ### Captures -/

/-- One round of reading the names of captures. -/
def captureRound (acc : List String) : Parse (List String ⊕ List String) := do
  if ← check .identifier then
    let name ← consume
    if ← check .comma then
      let _ ← consume
      return .inl (acc ++ [name.text])
    else return .inr (acc ++ [name.text])
  else return .inr acc

theorem isEnd_of_kind {kind : Kind} (h : u.kind = kind) (hkind : kind ≠ .endOfInput) :
    u.isEnd = false := by
  rw [Token.isEnd, h, decide_eq_false hkind]

theorem Arrives.iterate_next {step : α → Parse (α ⊕ β)} {a next : α} {b : β} {n : Nat}
    (h : Arrives env lx (step a) (.inl next) mx)
    (hrest : Arrives env mx (iterate step n next) b lx') :
    Arrives env lx (iterate step (n + 1) a) b lx' := by
  intro s hat hs
  rcases h s hat hs with ⟨t, hrun, hat', hs'⟩
  rw [iterate_succ_run, hrun]
  exact hrest t hat' hs'

theorem Arrives.iterate_done {step : α → Parse (α ⊕ β)} {a : α} {b : β} {n : Nat}
    (h : Arrives env lx (step a) (.inr b) mx) : Arrives env lx (iterate step (n + 1) a) b mx := by
  intro s hat hs
  rcases h s hat hs with ⟨t, hrun, hat', hs'⟩
  exact ⟨t, by rw [iterate_succ_run, hrun], hat', hs'⟩

/-- The round over the last name stops in front of what is no comma. -/
theorem arrives_lastCapture {v : Token} {nx : Lexer} (hnext : lx.next = (.ok u, mx))
    (hkind : u.kind = .identifier) (hnext' : mx.next = (.ok v, nx)) (hcomma : v.kind ≠ .comma)
    (acc : List String) : Arrives env lx (captureRound acc) (.inr (acc ++ [u.text])) mx := by
  refine .ite_check _ hnext (fun _ => ?_) fun hne => absurd hkind hne
  refine (arrives_consume hnext (isEnd_of_kind hkind (by decide))).bind ?_
  exact .ite_check _ hnext' (fun heq => absurd heq hcomma) fun _ => arrives_pure _

/-- The round over a name with a comma behind it takes both. -/
theorem arrives_nextCapture {v : Token} {nx : Lexer} (hnext : lx.next = (.ok u, mx))
    (hkind : u.kind = .identifier) (hnext' : mx.next = (.ok v, nx)) (hcomma : v.kind = .comma)
    (acc : List String) : Arrives env lx (captureRound acc) (.inl (acc ++ [u.text])) nx := by
  refine .ite_check _ hnext (fun _ => ?_) fun hne => absurd hkind hne
  refine (arrives_consume hnext (isEnd_of_kind hkind (by decide))).bind ?_
  refine .ite_check _ hnext' (fun _ => ?_) fun hne => absurd hcomma hne
  exact (arrives_consume hnext' (isEnd_of_kind hcomma (by decide))).bind (arrives_pure _)

/-- Names with commas between them are captured, up to the parenthesis that closes. White space
    may stand between any two words of the layout, so the text is described by its words and not
    by its characters. -/
theorem arrives_names {names words : List String} (hnames : ∀ name ∈ names, IsPlain name)
    {cs : List Char} (h : Layout (names.intersperse "," ++ ")" :: words) cs)
    (before tail : List Char) :
    ∃ read rest, cs = read ++ rest ∧ names.length ≤ read.length ∧ Layout (")" :: words) rest ∧
      ∀ n acc, names.length < n → Arrives env (inside env.source before (cs ++ tail))
        (iterate captureRound n acc) (acc ++ names)
        (inside env.source (before ++ read) (rest ++ tail)) := by
  -- By induction on the names. A comma is behind each of them except for the last.
  induction names generalizing cs before with
  | nil =>
      refine ⟨[], cs, rfl, Nat.le_refl _, h, fun n acc hn => ?_⟩
      obtain ⟨n, rfl⟩ : ∃ k, n = k + 1 := ⟨n - 1, by omega⟩
      rcases h.takes_mark .closing env.source before tail with
        ⟨_, _, u, htakes, hkind⟩
      rw [List.append_nil, List.append_nil]
      refine .iterate_done (.ite_check _ htakes.next (fun hne => ?_) fun _ => arrives_pure _)
      rw [hkind] at hne
      cases hne
  | cons name names ih =>
      have hplain := hnames name List.mem_cons_self
      have hpos : 0 < name.toList.length := by
        cases hword : name.toList with
        | nil =>
            have hstart := hplain.isName.start
            rw [hword] at hstart
            cases hstart
        | cons => simp
      cases names with
      | nil =>
          rcases Layout.takes_name h hplain.isName .closing env.source before tail
            with ⟨read, rest, u, htakes, hkind⟩
          rw [hplain.isIdentifier] at hkind
          rcases htakes.layout.takes_mark .closing env.source (before ++ read) tail
            with ⟨_, _, v, hclose, hkind'⟩
          have hle := htakes.word_le
          refine ⟨read, rest, htakes.split, by rw [List.length_singleton]; omega, htakes.layout,
            fun n acc hn => ?_⟩
          obtain ⟨n, rfl⟩ : ∃ k, n = k + 1 := ⟨n - 1, by omega⟩
          have hround : Arrives env _ _ _ _ := arrives_lastCapture htakes.next hkind hclose.next
            (by rw [hkind']; decide) acc
          rw [htakes.text] at hround
          exact .iterate_done hround
      | cons second names =>
          rcases Layout.takes_name h hplain.isName .comma env.source before tail
            with ⟨read, rest, u, htakes, hkind⟩
          rw [hplain.isIdentifier] at hkind
          rcases htakes.layout.takes_mark .comma env.source (before ++ read) tail
            with ⟨read', rest', v, hcomma, hkind'⟩
          rcases ih (fun name hname => hnames name (List.mem_cons_of_mem _ hname)) hcomma.layout
            (before ++ read ++ read') with ⟨more, left, hsplit, hlength, hlayout, hgoes⟩
          have hle := htakes.word_le
          refine ⟨read ++ read' ++ more, left, ?_, ?_, hlayout, fun n acc hn => ?_⟩
          · rw [htakes.split, hcomma.split, hsplit]
            simp only [List.append_assoc]
          · simp only [List.length_append, List.length_cons] at hlength ⊢
            omega
          · obtain ⟨n, rfl⟩ : ∃ k, n = k + 1 := ⟨n - 1, by omega⟩
            have hrest := hgoes n (acc ++ [name]) (by simp only [List.length_cons] at hn ⊢; omega)
            rw [List.append_assoc acc, List.singleton_append] at hrest
            simp only [List.append_assoc] at hrest ⊢
            have hround : Arrives env _ _ _ _ :=
              arrives_nextCapture htakes.next hkind hcomma.next hkind' acc
            rw [htakes.text] at hround
            simp only [List.append_assoc] at hround
            exact .iterate_next hround hrest

/-- What is captured in front of a brace: the names in parentheses, or nothing where there are no
    parentheses. -/
theorem arrives_captures {names : Option (List String)}
    (hnames : ∀ name ∈ names.getD [], IsPlain name) {before cs tail : List Char}
    (h : Layout (captureWords names ++ ["\x7b"]) cs)
    (hsource : env.source.toList = before ++ (cs ++ tail)) :
    ∃ read rest, cs = read ++ rest ∧ Layout ["\x7b"] rest ∧
      Arrives env (inside env.source before (cs ++ tail)) captures (names.getD [])
        (inside env.source (before ++ read) (rest ++ tail)) := by
  cases names with
  | none =>
      rcases h.takes_mark .brace env.source before tail with ⟨_, _, u, htakes, hkind⟩
      refine ⟨[], cs, rfl, h, ?_⟩
      rw [List.append_nil]
      refine .ite_check _ htakes.next (fun hne => ?_) fun _ => arrives_pure _
      rw [hkind] at hne
      cases hne
  | some names =>
      have hlayout : Layout ("(" :: (names.intersperse "," ++ ")" :: ["\x7b"])) cs := by
        simpa [captureWords] using h
      rcases hlayout.takes_mark .opening env.source before tail with
        ⟨read, rest, u, htakes, hkind⟩
      rcases arrives_names (show ∀ name ∈ names, IsPlain name from hnames) htakes.layout
        (before ++ read) tail with ⟨read', rest', hsplit, hlength, hlayout', hgoes⟩
      rcases hlayout'.takes_mark .closing env.source (before ++ read ++ read') tail with
        ⟨read'', rest'', v, hcloses, hkind'⟩
      refine ⟨read ++ read' ++ read'', rest'', ?_, hcloses.layout, ?_⟩
      · rw [htakes.split, hsplit, hcloses.split]
        simp only [List.append_assoc]
      · refine .ite_check _ htakes.next (fun _ => ?_) fun hne => absurd hkind hne
        refine (arrives_consume htakes.next (isEnd_of_kind hkind (by decide))).bind ?_
        -- There is a byte of the text for each name at least, so the budget lasts.
        have hbudget : names.length < env.source.utf8ByteSize + 2 := by
          have hsize := Position.length_le_byteCount env.source.toList
          rw [← byteSize_eq, hsource, htakes.split, hsplit] at hsize
          simp only [List.length_append] at hsize
          omega
        have hloop : Arrives env _ (loop [] captureRound) _ _ := fun s hat hs => by
          rw [loop_run]
          exact hgoes _ [] hbudget s hat hs
        refine hloop.bind ?_
        have hcloses' := hcloses.next
        refine (arrives_expectClosing u hcloses' hkind' (isEnd_of_kind hkind' (by decide))).bind ?_
        rw [← List.append_assoc before, ← List.append_assoc before]
        exact arrives_pure _

end Parse

end PolyScript
