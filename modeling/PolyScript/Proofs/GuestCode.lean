import PolyScript.Proofs.HandlerOrder
import PolyScript.Proofs.Header
import PolyScript.Proofs.NextLine

/-!
# Blocks of Guest Code

Guest code is captured as it stands. What may stand in a block is decided by a scan that
counts braces outside of quoted strings (`BraceScan`); nothing else about the code
matters, although the dispatcher has read some of it as tokens by then. The handler for
blocks is the first one that is asked at the tag of a language, so nothing but the
window of the dispatcher is read too far. The brace that ends the block is found in the
text itself, and the lexer is set there, so all that has been read too far is
forgotten.

## Main definitions

* `BraceScan`: The scan for the end of a block.
* `BraceScan.Encloses`: What a block can hold.

## Theorems

* `Parse.guestCodeAt?_of_encloses`: The brace that ends a block is found.
* `Parse.arrives_codeBlock`: A block is read, and its code is as it stands.
* `Registry.candidates_language`: Which handler is asked first at the tag of a language.
* `code_block_verbatim`: A block, and the lines behind it.
-/

namespace PolyScript

/-! ### The scan -/

/-- A scan for the end of guest code: how many braces are open, and the quote of the
    string that is open, with whether its next character is escaped. -/
structure BraceScan where
  depth : Nat
  quote : Option (Char × Bool)
  deriving DecidableEq

namespace BraceScan

/-- The scan after one more character. -/
def step (s : BraceScan) (c : Char) : BraceScan :=
  match s.quote with
  | some (quote, true) => { s with quote := some (quote, false) }
  | some (quote, false) =>
    if c = '\\' then { s with quote := some (quote, true) }
    else if c = quote ∨ (c = '\n' ∧ quote ≠ '\x60') then { s with quote := none }
    else s
  | none =>
    if c = '"' ∨ c = '\'' ∨ c = '\x60' then { s with quote := some (c, false) }
    else if c = '\x7b' then { s with depth := s.depth + 1 }
    else if c = '\x7d' then { s with depth := s.depth - 1 }
    else s

/-- The scan from behind the brace that begins a block. -/
def after (cs : List Char) : BraceScan := cs.foldl step ⟨1, none⟩

/-- Code that a block can hold. No brace in it closes the block, and none is open at its
    end, nor is a string. -/
structure Encloses (code : List Char) : Prop where
  inside : ∀ cs, cs <+: code → (after cs).depth ≠ 0
  closed : (after code).depth = 1
  unquoted : (after code).quote = none

end BraceScan

namespace Parse

open Lexer

/-- The scan finds the brace behind the code. The search keeps a depth and a quote of its own,
    and they stay in step with those of the scan, character by character. -/
theorem guestCode_of_scan (s : BraceScan) {cs : List Char} (tail : List Char)
    (hinside : ∀ ds, ds <+: cs → (ds.foldl BraceScan.step s).depth ≠ 0)
    (hclosed : (cs.foldl BraceScan.step s).depth = 1)
    (hunquoted : (cs.foldl BraceScan.step s).quote = none) :
    guestCode (s.depth - 1) (s.quote.map Prod.fst) (s.quote.any Prod.snd)
      (cs ++ '\x7d' :: tail) = some cs := by
  -- By induction on the code. The scan counts the brace of the block itself, and so it is one
  -- deeper than the search.
  induction cs generalizing s with
  | nil =>
      rcases s with ⟨depth, quote⟩
      cases hclosed
      cases hunquoted
      rfl
  | cons c cs ih =>
      have hnext := ih (s.step c)
        (fun ds hds => hinside (c :: ds) (List.cons_prefix_cons.2 ⟨rfl, hds⟩)) hclosed hunquoted
      have hopen : s.depth ≠ 0 := hinside [] List.nil_prefix
      have hstep : (s.step c).depth ≠ 0 :=
        hinside [c] (List.cons_prefix_cons.2 ⟨rfl, List.nil_prefix⟩)
      rcases s with ⟨_ | depth, quote⟩
      · exact absurd rfl hopen
      rw [List.cons_append]
      cases quote with
      | some quoted =>
          rcases quoted with ⟨quote, _ | _⟩
          · simp only [BraceScan.step] at hnext
            change guestCode depth (some quote) false (c :: (cs ++ '\x7d' :: tail)) = _
            rw [guestCode]
            split_ifs at hnext ⊢ with hescape hends
            all_goals exact congrArg (Option.map (c :: ·)) hnext
          · exact congrArg (Option.map (c :: ·)) hnext
      | none =>
          simp only [BraceScan.step] at hnext hstep
          change guestCode depth none false (c :: (cs ++ '\x7d' :: tail)) = _
          rw [guestCode.eq_def]
          simp only
          split_ifs at hnext hstep ⊢ with hquote hopens hcloses
          · exact congrArg (Option.map (c :: ·)) hnext
          · exact congrArg (Option.map (c :: ·)) hnext
          · -- The block itself would be closed here.
            cases depth with
            | zero => exact absurd rfl hstep
            | succ depth => exact congrArg (Option.map (c :: ·)) hnext
          · exact congrArg (Option.map (c :: ·)) hnext

/-- The brace that ends a block is found. -/
theorem guestCodeAt?_of_encloses {source code : String} {before tail : List Char}
    (hsource : source.toList = before ++ (code.toList ++ '\x7d' :: tail))
    (hcode : BraceScan.Encloses code.toList) :
    guestCodeAt? source (Position.after before).offset =
      some (code, Position.after (before ++ code.toList ++ ['\x7d'])) := by
  have hscan := guestCode_of_scan ⟨1, none⟩ tail hcode.inside hcode.closed hcode.unquoted
  change guestCode 0 none false (code.toList ++ '\x7d' :: tail) = _ at hscan
  rw [guestCodeAt?, Position.offset_after, hsource, Text.splitBytes?_append]
  simp only [hscan, Option.map_some, String.ofList_toList]

/-! ### Reading a block -/

variable {env : Env} {tag language code : String} {names : Option (List String)}
  {before cs tail : List Char}

/-- The lexer of a sound state that is set to a place. -/
theorem State.Sound.resetTo_eq {s : State} (hs : s.Sound env.source)
    (hmode : s.buffer.lexer.sizeMode = false) (hsource : env.source.toList = before ++ tail) :
    s.buffer.lexer.resetTo (Position.after before) = inside env.source before tail := by
  have hcursor : (s.buffer.lexer.resetTo (Position.after before)).cursor =
      ⟨tail, Position.after before⟩ :=
    resetTo_cursor (c := ⟨tail, Position.after before⟩)
      ⟨before, by rw [hs.buffer.source_eq, hsource], rfl⟩
  have hsame : (s.buffer.lexer.resetTo (Position.after before)).source = env.source :=
    hs.buffer.source_eq
  have hoff : (s.buffer.lexer.resetTo (Position.after before)).sizeMode = false := hmode
  generalize s.buffer.lexer.resetTo (Position.after before) = lx at *
  rcases lx with ⟨source, cursor, sizeMode⟩
  cases hcursor
  cases hsame
  cases hoff
  rfl

/-- The body of a block is taken from the text, and reading goes on behind it. -/
theorem arrives_guestBody (hbrace : Layout ["\x7b"] cs)
    (hsource : env.source.toList = before ++ (cs ++ (code.toList ++ '\x7d' :: tail)))
    (hcode : BraceScan.Encloses code.toList) (language : String) (names : List String)
    (p : Position) :
    Arrives env (inside env.source before (cs ++ (code.toList ++ '\x7d' :: tail)))
      (guestBody language names p) (some (.codeBlock language names code p))
      (inside env.source (before ++ cs ++ code.toList ++ ['\x7d']) tail) := by
  rcases hbrace.takes_mark .brace env.source before (code.toList ++ '\x7d' :: tail) with
    ⟨read, rest, u, htakes, hkind⟩
  obtain rfl : rest = [] := by
    cases htakes.layout
    rfl
  obtain rfl : cs = read := by rw [htakes.split, List.append_nil]
  have hfound : guestCodeAt? env.source u.stop =
      some (code, Position.after (before ++ cs ++ code.toList ++ ['\x7d'])) := by
    rw [htakes.stop]
    exact guestCodeAt?_of_encloses (by rw [hsource, List.append_assoc]) hcode
  -- The buffer is restarted behind the brace, where the lexer stands with nothing read.
  intro s hat hs
  have htoken := hat.token_ok hs htakes.next
  have hend := isEnd_of_kind hkind (by decide)
  refine ⟨{ s.advanced with
    buffer := s.advanced.buffer.restart s.advanced.cursor
      (Position.after (before ++ cs ++ code.toList ++ ['\x7d'])) }, ?_, ?_, ?_⟩
  · rw [guestBody_run language names p (by rw [htoken]; exact hkind), htoken, hfound]
  · have hadvanced := hat.advanced hs htakes.next hend
    have hreset := hs.advanced.at_restart
      (Position.after (before ++ cs ++ code.toList ++ ['\x7d']))
    have hsource' : env.source.toList = before ++ cs ++ code.toList ++ ['\x7d'] ++ tail := by
      rw [hsource]
      simp
    rw [hs.advanced.resetTo_eq hadvanced.mode hsource'] at hreset
    exact hreset
  · exact hs.guest (by rw [htoken]; exact hkind) (by rw [htoken]; exact hfound)

/-- The tags of the languages are names. -/
theorem isName_of_resolve? (h : (LanguageTable.ofList Language.defaults).resolve? tag =
    some language) : IsName tag.toList := by
  have hall : ∀ entry ∈ (LanguageTable.ofList Language.defaults).names,
      IsName entry.1.toList := by decide +kernel
  exact hall _ (mem_of_lookup_eq_some h)

/-- All languages have blocks. -/
theorem constructFor?_of_resolve? (h : (LanguageTable.ofList Language.defaults).resolve? tag =
    some language) {next : Kind} (hnext : next = .leftParen ∨ next = .leftBrace) :
    (LanguageTable.ofList Language.defaults).constructFor? tag next false = some .codeBlock := by
  have hall : ∀ entry ∈ (LanguageTable.ofList Language.defaults).names,
      ∀ next ∈ [Kind.leftParen, Kind.leftBrace],
        (LanguageTable.ofList Language.defaults).constructFor? entry.1 next false =
          some .codeBlock := by decide +kernel
  exact hall _ (mem_of_lookup_eq_some h) next (by simpa using hnext)

section

variable {header : List Char}

/-- The words behind a tag begin with a parenthesis or a brace. -/
theorem first_of_captureWords (names : Option (List String)) :
    ∃ word words kind, captureWords names ++ ["\x7b"] = word :: words ∧ IsMark word kind ∧
      (kind = .leftParen ∨ kind = .leftBrace) := by
  cases names with
  | none => exact ⟨_, _, _, rfl, .brace, .inr rfl⟩
  | some names => exact ⟨_, _, _, rfl, .opening, .inl rfl⟩

/-- The tag at the beginning of a text is read. -/
theorem next_tag {source : String}
    (htag : (LanguageTable.ofList Language.defaults).resolve? tag = some language)
    (hheader : Layout (captureWords names ++ ["\x7b"]) header)
    (hsource : source.toList = tag.toList ++ (header ++ tail)) :
    ∃ u, (Lexer.ofSource source).next = (.ok u, inside source tag.toList (header ++ tail)) ∧
      u.kind = .language ∧ u.text = tag ∧ u.position = Position.start := by
  rcases first_of_captureWords names with ⟨word, words, kind, hwords, hmark, -⟩
  rw [hwords] at hheader
  rcases hheader.ends hmark tail with ⟨d, ds, hds, hd⟩
  have hspells := spells_word (isName_of_resolve? htag) hd ds
  rw [String.ofList_toList, ofWord_of_resolve? htag, ← hds] at hspells
  have hnext := next_inside (nofun : IsGap []) hspells source []
  refine ⟨spelled [] tag.toList .language, ?_, rfl, String.ofList_toList, rfl⟩
  rw [Lexer.ofSource, hsource]
  exact hnext

/-- In front of a tag, names and a brace the look-ahead for guest code succeeds. -/
theorem arrives_codeBlockAhead (hlanguages : env.languages = .ofList Language.defaults)
    (htag : (LanguageTable.ofList Language.defaults).resolve? tag = some language)
    (hheader : Layout (captureWords names ++ ["\x7b"]) header)
    (hsource : env.source.toList = tag.toList ++ (header ++ tail)) :
    Arrives env (Lexer.ofSource env.source) codeBlockAhead true (Lexer.ofSource env.source) := by
  rcases next_tag htag hheader hsource with ⟨u, hnext, hkind, htext, -⟩
  rcases first_of_captureWords names with ⟨word, words, kind, hwords, hmark, hbrace⟩
  rw [hwords] at hheader
  rcases hheader.takes_mark hmark env.source tag.toList tail with ⟨_, _, v, htakes, hkind'⟩
  unfold codeBlockAhead
  refine (arrives_current hnext).bind ?_
  refine (arrives_peekNext hnext (isEnd_of_kind hkind (by decide)) htakes.next).bind ?_
  refine arrives_languages.bind ?_
  rw [hlanguages, htext, hkind, hkind', constructFor?_of_resolve? htag hbrace]
  exact arrives_pure true

/-- A block is read, and its code is as it stands. -/
theorem arrives_codeBlock (hlanguages : env.languages = .ofList Language.defaults)
    (htag : (LanguageTable.ofList Language.defaults).resolve? tag = some language)
    (hnames : ∀ name ∈ names.getD [], IsPlain name)
    (hheader : Layout (captureWords names ++ ["\x7b"]) header)
    (hcode : BraceScan.Encloses code.toList)
    (hsource : env.source.toList = tag.toList ++ (header ++ (code.toList ++ '\x7d' :: tail))) :
    Arrives env (Lexer.ofSource env.source) codeBlock
      (some (.codeBlock language (names.getD []) code Position.start))
      (inside env.source (tag.toList ++ header ++ code.toList ++ ['\x7d']) tail) := by
  rcases next_tag htag hheader hsource with ⟨u, hnext, hkind, htext, hplace⟩
  rcases arrives_captures hnames hheader hsource with ⟨read, rest, hsplit, hbrace, hcaptures⟩
  have hsource' : env.source.toList =
      tag.toList ++ read ++ (rest ++ (code.toList ++ '\x7d' :: tail)) := by
    rw [hsource, hsplit]
    simp
  have hbody := arrives_guestBody hbrace hsource' hcode language (names.getD []) Position.start
  rw [codeBlock_eq]
  -- Tag, names and brace are read one after the other; from the brace on the code is copied.
  refine (arrives_codeBlockAhead hlanguages htag hheader hsource).bind ?_
  refine (arrives_current hnext).bind (arrives_languages.bind ?_)
  have hresolve : env.languages.resolveAt u.text u.position = .ok language := by
    rw [hlanguages, htext, LanguageTable.resolveAt, htag]
  rw [hresolve]
  refine (arrives_consume hnext (isEnd_of_kind hkind (by decide))).bind (hcaptures.bind ?_)
  rw [hplace, hsplit, ← List.append_assoc tag.toList]
  exact hbody

end

end Parse

/-! ### Which handler is asked -/

/-- A handler that is filed under a kind, and takes any token of it, is asked first at such a
    token if no others of its priority or above are for this kind or look at later tokens. -/
theorem Registry.candidates_head {kind : Kind} {construct : Construct} {priority : Int}
    (hfiled : ∃ block ∈ select (ofSettings Settings.defaults).handlers
        (filed kind (ofSettings Settings.defaults).byLeadingKind ++
          (ofSettings Settings.defaults).unanchored),
      (block.settings.enabled && !block.settings.fallback) = true ∧
        block.settings.priority = priority ∧
          ∃ p ∈ block.settings.patterns, p.offset = 0 ∧ p.kind = kind ∧ p.value = none)
    (hothers : ∀ h ∈ (ofSettings Settings.defaults).handlers.toList,
      priority ≤ h.settings.priority →
        (h.settings.patterns.any fun p => 0 < p.offset || p.kind = kind) = true →
          h.settings.construct = construct)
    {first : Token} (hfirst : first.kind = kind) (rest : List Token) : ∃ settings others,
      (ofSettings Settings.defaults).candidates (first :: rest) =
        Handler.builtin settings :: others ∧ settings.construct = construct := by
  have hbuiltin := isBuiltin_ofSettings Settings.defaults
  rcases hfiled with ⟨block, hfiled, henabled, hpriority, p, hp, hoffset, hkind, hvalue⟩
  have haccepts : p.accepts first = true := by
    simp [TokenPattern.accepts, hkind, hvalue, hfirst]
  -- The handler is a candidate. What is left is that none of other constructs comes before it.
  have hblock : block ∈ (ofSettings Settings.defaults).candidates (first :: rest) := by
    have hhandles : block.canHandle first = true := by
      rcases hbuiltin block (mem_of_mem_select hfiled) with ⟨settings, rfl⟩
      exact List.any_eq_true.2 ⟨p, hp, by rw [haccepts, Bool.or_true]⟩
    have hmatches : block.settings.matchesWindow (first :: rest) = true :=
      List.any_eq_true.2 ⟨p, hp, by rw [hoffset]; exact haccepts⟩
    simp only [candidates, List.mem_mergeSort, List.mem_filter, isCandidate, hfirst]
    exact ⟨hfiled, by rw [henabled, hhandles, hmatches]; rfl⟩
  cases hcandidates : (ofSettings Settings.defaults).candidates (first :: rest) with
  | nil => rw [hcandidates] at hblock; cases hblock
  | cons handler others =>
      have hasked : handler ∈ (ofSettings Settings.defaults).candidates (first :: rest) := by
        rw [hcandidates]
        exact List.mem_cons_self
      rcases mem_candidates hasked with ⟨hmem, hhandles⟩
      rcases hbuiltin handler hmem with ⟨settings, rfl⟩
      refine ⟨settings, others, rfl, hothers _ hmem ?_ ?_⟩
      · have hordered := List.pairwise_mergeSort
          (fun a b c : Handler =>
            HandlerSettings.triedBefore_trans a.settings b.settings c.settings)
          (fun a b : Handler => HandlerSettings.triedBefore_total a.settings b.settings)
          ((select (ofSettings Settings.defaults).handlers
            (filed first.kind (ofSettings Settings.defaults).byLeadingKind ++
              (ofSettings Settings.defaults).unanchored)).filter
                (isCandidate first (first :: rest)))
        change List.Pairwise _
          ((ofSettings Settings.defaults).candidates (first :: rest)) at hordered
        rw [hcandidates] at hblock hordered
        rcases List.mem_cons.1 hblock with rfl | hlater
        · exact Int.le_of_eq hpriority.symm
        · have hbefore := (List.pairwise_cons.1 hordered).1 block hlater
          rw [HandlerSettings.triedBefore, hpriority] at hbefore
          split at hbefore
          · exact Int.le_of_lt (of_decide_eq_true hbefore)
          · omega
      -- What is asked before it has a pattern for this kind or one without a first token.
      · rcases List.any_eq_true.1 hhandles with ⟨q, hq, hpasses⟩
        refine List.any_eq_true.2 ⟨q, hq, ?_⟩
        simp only [TokenPattern.accepts, Bool.or_eq_true, Bool.and_eq_true, decide_eq_true_eq,
          hfirst] at hpasses ⊢
        exact hpasses.imp id fun h => h.1.symm

/-- At the tag of a language the handler for blocks of guest code is asked first. -/
theorem Registry.candidates_language {first : Token} (hfirst : first.kind = .language)
    (rest : List Token) : ∃ settings others,
      (ofSettings Settings.defaults).candidates (first :: rest) =
        Handler.builtin settings :: others ∧ settings.construct = .codeBlock :=
  candidates_head (priority := 95) (by decide +kernel) (by decide +kernel) hfirst rest

namespace Parse

open Lexer

variable {env : Env} {s : State} {lx mx lx' mx' : Lexer} {u v : Token}

/-- What the handler that is asked first makes of a statement, if it does not decline. -/
theorem dispatch_head {construct : Construct}
    (hfirst : ∀ rest, ∃ settings others,
      (Registry.ofSettings Settings.defaults).candidates (s.token :: rest) =
        Handler.builtin settings :: others ∧ settings.construct = construct) (g : Grammar) :
    ∃ settings r, settings.construct = construct ∧ s.Reads r ∧ ∀ env a t,
      nested ((Handler.builtin settings).parse g) env r = .ok (some a) t →
        dispatch (Registry.ofSettings Settings.defaults) g env s = conclude a env t := by
  rcases dispatch_run (Registry.ofSettings Settings.defaults) g s with ⟨r, hreads, -, hasked⟩
  rcases tokensFrom_head s (Registry.windowSize_pos Settings.defaults) with ⟨rest, hwindow⟩
  rcases hfirst rest with ⟨settings, others, hcandidates, hconstruct⟩
  refine ⟨settings, r, hconstruct, hreads, fun env a t hnested => ?_⟩
  rw [hasked, hwindow]
  simp only [hcandidates, List.cons_append]
  rw [tryHandlers, bind_run, hnested]
  rfl

/-- A statement that begins with the tag of a language is a block of guest code, if it
    reads as one. -/
theorem dispatch_codeBlock {g : Grammar} {a : Statement} (hnext : lx.next = (.ok u, lx'))
    (hkind : u.kind = .language) (hblock : Arrives env lx codeBlock (some a) mx)
    (hnext' : mx.next = (.ok v, mx')) (hterminator : v.kind.isTerminator = true) (hat : s.At lx)
    (hs : s.Sound env.source) {depth : Nat}
    (hdepth : env.guard.enter s.depth u.position = .ok depth) :
    ∃ t, dispatch (Registry.ofSettings Settings.defaults) g env s = .ok a t ∧ t.At mx ∧
      t.Sound env.source := by
  have htoken := hat.token_ok hs hnext
  have hfirst : s.token.kind = .language := by rw [htoken]; exact hkind
  -- The handler for code blocks is the first that is asked, and it accepts.
  rcases dispatch_head (Registry.candidates_language hfirst) g with
    ⟨settings, r, hconstruct, hreads, hasked⟩
  have hat' := hat.reads hs hreads
  have hs' := hs.reads hreads
  have htoken' : r.token = u := hreads.token_eq.trans htoken
  have hsame : r.depth = s.depth := by
    rcases hreads with ⟨_, rfl⟩
    rfl
  have hparse : (Handler.builtin settings).parse g = codeBlock := by
    simp only [Handler.builtin, hconstruct, Construct.keyword?, Handler.rule]
  rcases hblock (r.filled.atDepth depth) (hat'.filled hs')
    ⟨hs'.filled.buffer, hs'.filled.cursor_le, hs'.filled.cursor_lt⟩ with ⟨t, hrun, ht, hsound⟩
  have hnested : nested ((Handler.builtin settings).parse g) env r =
      .ok (some a) (t.atDepth (Guard.exit t.depth)) := by
    rw [nested_run, hsame, htoken', hdepth, hparse]
    simp only [hrun]
  have hafter : (t.atDepth (Guard.exit t.depth)).token = v := ht.token_ok hsound hnext'
  have hsound' : (t.atDepth (Guard.exit t.depth)).Sound env.source :=
    ⟨hsound.buffer, hsound.cursor_le, hsound.cursor_lt⟩
  have hat'' : (t.atDepth (Guard.exit t.depth)).At mx := ht
  rw [hasked env a _ hnested, conclude_run, hafter, hterminator]
  cases (t.atDepth (Guard.exit t.depth)).isRelaxed with
  | true => exact ⟨_, rfl, hat'', hsound'⟩
  | false => exact ⟨_, rfl, hat''.filled hsound', hsound'.filled⟩

/-- The lexer behind the newline that follows some lines. -/
theorem next_newline {source : String} {lines rest : List Char}
    (hsource : source.toList = lines ++ '\n' :: rest) :
    ∃ u mx, (inside source lines ('\n' :: rest)).next = (.ok u, mx) ∧ u.kind = .newline ∧
      mx.Within source ∧ mx.sizeMode = false ∧
      mx.cursor = skipBlank true false rest (Position.after (lines ++ ['\n'])) := by
  have hwithin : (inside source lines ('\n' :: rest)).Within source :=
    ⟨rfl, lines, by rw [hsource]; rfl, rfl⟩
  have hnext : (inside source lines ('\n' :: rest)).next =
      (.ok ⟨.newline, "\n", Position.after lines, (Position.after lines).offset + 1⟩,
        ⟨source, skipBlank true false rest ((Position.after lines).advance '\n'), false⟩) := rfl
  rw [← Position.after_concat] at hnext
  exact ⟨_, _, hnext, rfl, hwithin.next_ok hnext, rfl, rfl⟩

end Parse

open Parse in
/-- Under the default settings, the tag of a language, names in parentheses or none, and a
    brace begin a block of guest code. If its code is such that the next brace outside
    of it closes the block, then the block holds this code as it stands, whatever else
    the code may be, and the lines behind it are read as they are by themselves. -/
theorem code_block_verbatim (tag language header code rest : String)
    (names : Option (List String)) (p : Program)
    (htag : (LanguageTable.ofList Language.defaults).resolve? tag = some language)
    (hnames : ∀ name ∈ names.getD [], Lexer.IsPlain name)
    (hheader : Lexer.Layout (Lexer.captureWords names ++ ["\x7b"]) header.toList)
    (hcode : BraceScan.Encloses code.toList)
    (hparse : (Parser.ofSettings Settings.defaults).parse rest = .ok p)
    (hplain : statementsHaveCode p.statements = false) :
    (Parser.ofSettings Settings.defaults).parse
        (tag ++ header ++ code ++ "\x7d" ++ "\n" ++ rest) =
      .ok ⟨.codeBlock language (names.getD []) code Position.start ::
        p.statements.map (Statement.shift
          ⟨(tag ++ header ++ code ++ "\x7d").toList.count '\n' + 1,
            (tag ++ header ++ code ++ "\x7d").utf8ByteSize + 1⟩)⟩ := by
  have hbuiltin := Registry.isBuiltin_ofSettings Settings.defaults
  have htidy : Tidy rest := tidy_of_run hbuiltin rfl hparse hplain
  rcases ok_of_run hparse with ⟨_, hprogram, -⟩
  rcases rounds_of_program hprogram with ⟨hrounds, hlength⟩
  have hlines : (tag ++ header ++ code ++ "\x7d").toList =
      tag.toList ++ header.toList ++ code.toList ++ ['\x7d'] := by simp
  have htext : (tag ++ header ++ code ++ "\x7d" ++ "\n" ++ rest).toList =
      (tag ++ header ++ code ++ "\x7d").toList ++ '\n' :: rest.toList := by simp
  have hsize : (tag ++ header ++ code ++ "\x7d" ++ "\n" ++ rest).utf8ByteSize =
      (tag ++ header ++ code ++ "\x7d").utf8ByteSize + 1 + rest.utf8ByteSize := by
    rw [String.utf8ByteSize_append, String.utf8ByteSize_append]
    rfl
  rw [byteSize_eq (tag ++ header ++ code ++ "\x7d")] at hsize ⊢
  generalize tag ++ header ++ code ++ "\x7d" ++ "\n" ++ rest = context at *
  generalize (tag ++ header ++ code ++ "\x7d").toList = lines at *
  subst hlines
  -- The block is read.
  have hsource : context.toList =
      tag.toList ++ (header.toList ++ (code.toList ++ '\x7d' :: '\n' :: rest.toList)) := by
    rw [htext]
    simp
  have hblock : Arrives ((Parser.ofSettings Settings.defaults).env context) _ _ _ _ :=
    arrives_codeBlock rfl htag hnames hheader hcode hsource
  rcases next_tag htag hheader hsource with ⟨u, hnext, hkind, -⟩
  rcases Parse.next_newline htext with ⟨v, mx, hnewline, hkind', hwithin, hmode, hcursor⟩
  have hat := State.at_initial context
  have hs := State.sound_initial context
  have htoken : (State.initial context).token = u := hat.token_ok hs hnext
  rcases dispatch_codeBlock (g := Grammar.delay fun _ => Grammar.level
      (Registry.ofSettings Settings.defaults) (4 * context.utf8ByteSize + 7)) hnext hkind hblock
    hnewline (by rw [hkind']; rfl) (hat.filled hs) hs.filled rfl with ⟨t, hrun, ht, hsound⟩
  have hkept : (State.initial context).Kept t :=
    (State.Reads.kept (c := 0) (State.initial context).reads_filled).trans
      ((Grammar.made_level hbuiltin (4 * context.utf8ByteSize + 8)).statement.kept_ok hrun)
  -- The lines behind it are read.
  rcases rounds_lastLines htext htidy
    (show 4 * rest.utf8ByteSize + 8 ≤ 4 * context.utf8ByteSize + 8 by omega)
    (statementsHaveCode_eq_false.1 hplain) hrounds
    (ht.advanced hsound hnewline (isEnd_of_kind hkind' (by decide))) hwithin hsound.advanced
    hcursor hmode (hkept.trans t.kept_advanced) with ⟨t', hrest, hclean⟩
  have hskip : skipSeparators ((Parser.ofSettings Settings.defaults).env context)
      (State.initial context) = .ok () (State.initial context).filled :=
    (skipSeparators_iff hat ⟨rfl, [], rfl, rfl⟩ hs).2 (.stop (by rw [htoken, hkind]; rfl))
  have hall := Rounds.next (g := (Parser.ofSettings Settings.defaults).grammar context) hskip
    (by rw [State.token_filled, htoken, hkind]; decide) hrun (hrest.of_skip fun w hw =>
      (skipSeparators_iff ht ⟨rfl, _, htext, rfl⟩ hsound).2
        (.step (by rw [ht.token_ok hsound hnewline, hkind']; rfl) (skips_of_skipSeparators hw)))
  have hprogram' := program_of_rounds hall (by
    rw [List.length_cons, List.length_map]
    change _ ≤ context.utf8ByteSize + 1
    change _ ≤ rest.utf8ByteSize + 1 at hlength
    omega)
  have hsettled : (Parser.ofSettings Settings.defaults).parse context = _ := run_of_ok hprogram'
  rw [hclean] at hsettled
  exact hsettled

open Lexer in
/-- A block with a stray character in its code, a bracket that is not closed, and a brace
    in quotes. -/
theorem code_block_verbatim_stray :
    let parse := (Parser.ofSettings Settings.defaults).parse
    (LanguageTable.ofList Language.defaults).resolve? "py" = some "python" ∧
      (∀ name ∈ ["a", "b"], IsPlain name) ∧
      Layout (captureWords (some ["a", "b"]) ++ ["\x7b"]) " (a, b) \x7b".toList ∧
      BraceScan.Encloses "$ [ '\x7d' ".toList ∧
      ∃ p, parse "if a \x7b 1 \x7d" = .ok p ∧ statementsHaveCode p.statements = false ∧
        p.statements ≠ [] ∧
        parse "py (a, b) \x7b$ [ '\x7d' \x7d\nif a \x7b 1 \x7d" =
          .ok ⟨.codeBlock "python" ["a", "b"] "$ [ '\x7d' " Position.start ::
            p.statements.map (Statement.shift ⟨1, 21⟩)⟩ := by
  have htag : (LanguageTable.ofList Language.defaults).resolve? "py" = some "python" := by
    decide +kernel
  have hnames : ∀ name ∈ ["a", "b"], IsPlain name := by decide +kernel
  have hspace : IsGap [' '] := fun c hc => by
    rw [List.mem_singleton.1 hc]
    decide
  have hnone : IsGap [] := nofun
  have hheader : Layout (captureWords (some ["a", "b"]) ++ ["\x7b"]) " (a, b) \x7b".toList :=
    .cons hspace (.cons hnone (.cons hnone (.cons hspace (.cons hnone (.cons hspace .nil)))))
  have hcode : BraceScan.Encloses "$ [ '\x7d' ".toList := by
    have hinside : ∀ n < 9, (BraceScan.after ("$ [ '\x7d' ".toList.take n)).depth ≠ 0 := by
      decide +kernel
    refine ⟨fun cs hcs => ?_, by decide +kernel, by decide +kernel⟩
    rw [List.prefix_iff_eq_take.1 hcs]
    exact hinside _ (Nat.lt_succ_of_le hcs.length_le)
  have hrest : (match (Parser.ofSettings Settings.defaults).parse "if a \x7b 1 \x7d" with
      | .ok p => !statementsHaveCode p.statements && !p.statements.isEmpty
      | .error _ => false) = true := by decide +kernel
  -- What the rest of the text is parsed into is settled by a parse of its own.
  split at hrest
  case h_2 => cases hrest
  case h_1 p hparse =>
    simp only [Bool.not_eq_true', Bool.and_eq_true, List.isEmpty_eq_false_iff] at hrest
    have hblock := code_block_verbatim "py" "python" " (a, b) \x7b" "$ [ '\x7d' " "if a \x7b 1 \x7d"
      (some ["a", "b"]) p htag hnames hheader hcode hparse hrest.1
    have htext : "py" ++ " (a, b) \x7b" ++ "$ [ '\x7d' " ++ "\x7d" ++ "\n" ++ "if a \x7b 1 \x7d" =
        "py (a, b) \x7b$ [ '\x7d' \x7d\nif a \x7b 1 \x7d" := by decide +kernel
    have hlines :
        ("py" ++ " (a, b) \x7b" ++ "$ [ '\x7d' " ++ "\x7d").toList.count '\n' + 1 = 1 := by
      decide +kernel
    have hbytes : ("py" ++ " (a, b) \x7b" ++ "$ [ '\x7d' " ++ "\x7d").utf8ByteSize + 1 = 21 := by
      decide +kernel
    rw [htext, hlines, hbytes] at hblock
    exact ⟨htag, hnames, hheader, hcode, p, hparse, hrest.1, hrest.2, hblock⟩

end PolyScript
