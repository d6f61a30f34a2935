import PolyScript.Proofs.Reprinted

/-!
# Printed Segments Are Read Back

A segment is read back if its value and its size are and if its specifiers remain apart. The
size is read in size mode, and what follows it with that mode off, whatever it was before. So
the mode in which the specifiers are read depends on whether there is a size.

## Main definitions

* `Parse.ReprintsSize`: The size of a segment, if it has one, and the modes around it.
* `Parse.RegainsSegment`: A segment is read back from pieces.
* `Parse.ReprintsSegment`: A segment is printed as pieces and read back from them.

## Theorems

* `Parse.regainsSegment`, `Parse.reprintsSegment`: A segment with its value, its size and its
  specifiers.
* `Parse.consumes_bitstring`: The segments of a bit string.
-/

namespace PolyScript

namespace Parse

variable {P : Parser} {env : Env} {depth n : Nat} {m m' m'' : Bool} {ps qs us vs : List Piece}
  {p q : Piece} {e : Expr} {position : Position} {inPattern : Bool} {w : Word}

/-! ### Values -/

theorem regains_value_literal (h : LiteralWord e w) (hkind : w.kind = .number ∨ w.kind = .string) :
    Regains P depth m e [.fixed w] m (segmentValue · inPattern) EndsPart := by
  rintro source n us - -
  refine (consumes_current (Piece.suits_fixed w m)).bind fun t ht => ?_
  have hword : t.kind = w.kind := ht.kind
  rw [hword]
  rcases hkind with hkind | hkind
  · rw [hkind]
    exact consumes_fixed_literal h
  · rw [hkind]
    exact consumes_fixed_literal h

/-- A negative number is read back as the value of a segment, from its sign and its numeral. -/
theorem regains_value_negative (h : LiteralWord e w) (hkind : w.kind = .number) :
    Regains P depth m (.unary .negate e position) [.mark .minus "-", .fixed w] m
      (segmentValue · inPattern) EndsPart := by
  rintro source n us - -
  have hsuits := Piece.suits_mark .minus "-" m
  refine (consumes_current hsuits).bind fun t ht => ?_
  have hminus : t.kind = .minus := ht.kind
  rw [hminus]
  refine (consumes_peekNext hsuits (by decide) (Piece.suits_fixed w m)).bind ?_
  rintro _ rfl
  rw [Piece.kind_fixed, if_pos hkind]
  refine (consumes_consume hsuits (by decide)).bind fun _ _ => ?_
  refine (consumes_fixed_literal h).bind fun a ha => consumes_pure ?_
  rw [SameSkeleton, Expr.skeleton, Expr.skeleton, ha]

/-- In a pattern a name is taken as it stands. -/
theorem regains_value_name {name : String} (hkind : Kind.ofWord name = .identifier) :
    Regains P depth m (.identifier name position) [.name m name] m (segmentValue · true)
      EndsPart := by
  intro source n us _ hus
  rcases hus with ⟨q, vs, rfl, hq, hends⟩
  have hsuits := Piece.suits_name m name
  have hproper : (Piece.name m name).kind ≠ .endOfInput := (Lexer.ofWord_proper name).1
  refine (consumes_current hsuits).bind fun t ht => ?_
  have hidentifier : t.kind = .identifier := ht.kind.trans hkind
  rw [hidentifier]
  refine (consumes_peekNext hsuits hproper (suits_of_mode hq m)).bind ?_
  rintro _ rfl
  have hdot : q.kind ≠ .dot := by
    rintro heq
    rw [heq] at hends
    cases hends
  rw [if_neg hdot]
  exact consumes_identifier hsuits hproper rfl

theorem regains_value_underscore :
    Regains P depth m (.identifier "_" position) [.name m "_"] m (segmentValue · true)
      EndsPart := by
  rintro source n us - -
  have hsuits := Piece.suits_name m "_"
  refine (consumes_current hsuits).bind fun t ht => ?_
  have hunderscore : t.kind = .underscore := ht.kind
  rw [hunderscore]
  exact (consumes_consume hsuits (Lexer.ofWord_proper "_").1).bind fun _ _ => consumes_pure rfl

theorem Regains.value_reference {Follow : List Piece → Prop} {name : String}
    (hname : inPattern = false ∧ Kind.ofWord name = .identifier ∨ Kind.ofWord name = .language)
    (h : Regains P depth m e (.name m name :: ps) m' reference Follow) :
    Regains P depth m e (.name m name :: ps) m' (segmentValue · inPattern) Follow := by
  intro source n us hn hus
  refine (consumes_current (Piece.suits_name m name)).bind fun t ht => ?_
  have hkind : t.kind = Kind.ofWord name := ht.kind
  rw [hkind]
  rcases hname with ⟨rfl, hname⟩ | hname
  · rw [hname]
    exact h source n us hn hus
  · rw [hname]
    exact h source n us hn hus

theorem Regains.value_grouped {Follow : List Piece → Prop}
    (h : Regains P depth m e (.mark .leftParen "(" :: ps) m' grouped Follow) :
    Regains P depth m e (.mark .leftParen "(" :: ps) m' (segmentValue · inPattern) Follow := by
  intro source n us hn hus
  refine (consumes_current (Piece.suits_mark _ _ _)).bind fun t ht => ?_
  rw [ht.kind]
  exact h source n us hn hus

/-! ### Sizes -/

theorem regains_size_literal (h : LiteralWord e w) (hkind : w.kind = .number) :
    Regains P depth m e [.fixed w] m segmentSize EndsPart := by
  rintro source n us - -
  refine (consumes_current (Piece.suits_fixed w m)).bind fun t ht => ?_
  have hnumber : t.kind = .number := ht.kind.trans hkind
  rw [hnumber]
  exact consumes_fixed_literal h

theorem Regains.size_reference {Follow : List Piece → Prop} {name : String}
    (hname : isMemberName (Kind.ofWord name) = true)
    (h : Regains P depth m e (.name m name :: ps) m' reference Follow) :
    Regains P depth m e (.name m name :: ps) m' segmentSize Follow := by
  intro source n us hn hus
  refine (consumes_current (Piece.suits_name m name)).bind fun t ht => ?_
  have hkind : t.kind = Kind.ofWord name := ht.kind
  rw [hkind]
  rcases isMemberName_cases hname with hname | hname
  · rw [hname]
    exact h source n us hn hus
  · rw [hname]
    exact h source n us hn hus

theorem Regains.size_grouped {Follow : List Piece → Prop}
    (h : Regains P depth m e (.mark .leftParen "(" :: ps) m' grouped Follow) :
    Regains P depth m e (.mark .leftParen "(" :: ps) m' segmentSize Follow := by
  intro source n us hn hus
  refine (consumes_current (Piece.suits_mark _ _ _)).bind fun t ht => ?_
  rw [ht.kind]
  exact h source n us hn hus

/-- The size of a segment behind its value. It begins in size mode and turns it off. -/
inductive ReprintsSize (P : Parser) (depth : Nat) :
    Option Expr → Bool → Option (List Piece) → Bool → Prop
  | none {m : Bool} : ReprintsSize P depth none m none m
  | some {e : Expr} {m m' : Bool} {ps : List Piece} :
    ReprintsBy segmentSize EndsPart P depth e true ps m' →
    ReprintsSize P depth (some e) m (some ps) false

theorem endsPart_lists (groups : List (List SpecifierAtom)) (hus : EndsListed .bitClose us) :
    EndsPart (groups.flatMap (SpecifierAtom.clause m) ++ us) := by
  rcases hus with ⟨q, vs, rfl, hq, hkind⟩
  rcases lists_head (m := m) groups q vs with ⟨p, ws, hhead, rfl | rfl⟩
  · exact ⟨_, ws, hhead, rfl, rfl⟩
  · refine ⟨p, ws, hhead, hq, ?_⟩
    rcases hkind with hkind | hkind <;>
      · rw [hkind]
        rfl

/-- The rest of a segment behind its value. -/
theorem ReprintsSize.endsPart {size : Option Expr} {sizes : Option (List Piece)}
    (h : ReprintsSize P depth size m sizes m') (hus : EndsPart us) :
    EndsPart (sizePieces sizes ++ us) := by
  cases h with
  | none => exact hus
  | some _ => exact ⟨_, _, rfl, rfl, rfl⟩

/-- The clause for a size takes the colon and the size, or nothing where no colon is ahead. -/
theorem ReprintsSize.consumes {size : Option Expr} {sizes : Option (List Piece)}
    (h : ReprintsSize P depth size m sizes m') (source : String)
    (hn : (sizePieces sizes).length ≤ n) (hus : EndsPart us)
    (hcolon : ∀ q ∈ us.head?, q.kind ≠ .colon) :
    Consumes (P.env source) depth m (sizePieces sizes ++ us) m' us
      (sizeClause (Grammar.level P.registry n))
      fun a => skeletonSize true a = skeletonSize true size := by
  cases h with
  | none =>
      rcases hus with ⟨q, vs, rfl, hq, -⟩
      exact .ite_check .colon (suits_of_mode hq m) (fun heq => absurd heq (hcolon q rfl))
        fun _ => consumes_pure rfl
  | @some e m m' ps he =>
      simp only [sizePieces, List.length_cons] at hn
      rw [sizePieces, List.cons_append]
      refine .ite_check .colon (Piece.suits_mark _ _ _) (fun _ => ?_) fun hne => absurd rfl hne
      refine (consumes_consume (Piece.suits_mark _ _ _) (by decide)).bind fun _ _ => ?_
      -- The mode is on for the size alone, whatever it is in front of the colon.
      have hread := he.regains source n us (by omega) hus
      refine (Consumes.inSizeMode hread).bind fun a ha => consumes_pure ?_
      rw [skeletonSize, skeletonSize, ha]

/-! ### Segments -/

/-- A segment is read back from pieces. -/
structure RegainsSegment (P : Parser) (depth : Nat) (inPattern : Bool) (s : BitSegment)
    (m : Bool) (ps : List Piece) (m' : Bool) : Prop where
  begins : Begins m ps
  regains : ∀ source n us, ps.length ≤ n → EndsListed .bitClose us →
    Consumes (P.env source) depth m (ps ++ us) m' us
      (segment (Grammar.level P.registry n) inPattern)
      fun a => a.skeleton true = s.skeleton true

/-- A segment is printed as pieces and read back from them. -/
structure ReprintsSegment (P : Parser) (depth : Nat) (inPattern : Bool) (s : BitSegment)
    (m : Bool) (ps : List Piece) (m' : Bool) : Prop
    extends RegainsSegment P depth inPattern s m ps m' where
  prints : Lexer.Prints (SourcePrinter.segmentText s).toList ps

/-- The specifiers may be given in any number of lists. -/
theorem regainsSegment {size : Option Expr} {sizes : Option (List Piece)}
    {groups : List (List SpecifierAtom)}
    (hvalue : ReprintsBy (segmentValue · inPattern) EndsPart P depth e m ps m')
    (hsize : ReprintsSize P depth size m' sizes m'')
    (hatoms : ∀ atoms ∈ groups, ∀ a ∈ atoms, a.Fits m'') :
    RegainsSegment P depth inPattern
      (.mk e size (size.any fun e => !e.isNumber)
        (groups.flatten.flatMap SpecifierAtom.specifiers) position)
      m (ps ++ (sizePieces sizes ++ groups.flatMap (SpecifierAtom.clause m''))) m'' where
  begins := hvalue.begins.append _
  regains := by
    intro source n us hn hus
    simp only [List.length_append] at hn
    rw [List.append_assoc, List.append_assoc]
    refine (hvalue.regains source n _ (by omega) (hsize.endsPart (endsPart_lists groups hus))).bind
      fun a ha => ?_
    rcases hus with ⟨q, vs, rfl, hq, hkind⟩
    have hother : q.kind ≠ .colon ∧ q.kind ≠ .minus ∧ q.kind ≠ .slash := by
      rcases hkind with hkind | hkind <;> rw [hkind] <;> decide
    -- No colon follows that could be taken for the one of a size.
    have hcolon : ∀ p ∈ (groups.flatMap (SpecifierAtom.clause m'') ++ q :: vs).head?,
        p.kind ≠ .colon := by
      rcases lists_head (m := m'') groups q vs with ⟨p, ws, hhead, hp⟩
      rw [hhead]
      rintro _ ⟨⟩
      rcases hp with rfl | rfl
      · decide
      · exact hother.1
    refine (hsize.consumes source (by omega) (endsPart_lists groups ⟨q, vs, rfl, hq, hkind⟩)
      hcolon).bind fun b hb => ?_
    refine (consumes_specifierLists hatoms (suits_of_mode hq m'') hother.1 hother.2.1
      hother.2.2).bind ?_
    rintro _ rfl
    refine consumes_pure ?_
    rw [BitSegment.skeleton, BitSegment.skeleton, ha, hb, dynamic_of_skeletonSize hb]

/-- The printer gives the specifiers in one list. -/
theorem reprintsSegment {size : Option Expr} {sizes : Option (List Piece)}
    {atoms : List SpecifierAtom}
    (hvalue : ReprintsBy (segmentValue · inPattern) EndsPart P depth e m ps m')
    (hsize : ReprintsSize P depth size m' sizes m'') (hatoms : ∀ a ∈ atoms, a.Fits m'')
    (hapart : atoms.IsChain (SpecifierAtom.Apart m'')) :
    ReprintsSegment P depth inPattern
      (.mk e size (size.any fun e => !e.isNumber) (atoms.flatMap SpecifierAtom.specifiers) position)
      m (ps ++ (sizePieces sizes ++ SpecifierAtom.clause m'' atoms)) m'' where
  toRegainsSegment := by
    have hgroups : ∀ group ∈ [atoms], ∀ a ∈ group, a.Fits m'' := List.forall_mem_singleton.2 hatoms
    simpa only [List.flatten_singleton, List.flatMap_singleton] using
      regainsSegment hvalue hsize hgroups
  prints := by
    refine prints_segment hvalue.printsAs.prints ?_ hatoms hapart rfl
    cases hsize with
    | none => exact .none
    | some he => exact .some he.printsAs.prints

/-- The pieces of a list of segments are read as these segments, up to the closing bracket. By
    induction on the list, one round for each segment. -/
theorem consumes_segmentList {ss : List BitSegment}
    (h : Listed (RegainsSegment P depth inPattern) ss m ps m') (source : String)
    (hn : ps.length ≤ n) :
    Consumes (P.env source) depth m (ps ++ Piece.mark .bitClose ">>" :: us) m'
      (.mark .bitClose ">>" :: us) (segmentList (Grammar.level P.registry n) inPattern)
      fun acc => skeletonSegments true acc = skeletonSegments true ss := by
  have hbegins : ∀ s m qs m', (RegainsSegment P depth inPattern s m qs m' ∧
      qs.length ≤ ps.length) → Begins m qs := fun _ _ _ _ hs => hs.1.begins
  have hadd : ∀ {s m qs m' us} (acc : List BitSegment),
      (RegainsSegment P depth inPattern s m qs m' ∧ qs.length ≤ ps.length) →
      EndsListed .bitClose us → Consumes (P.env source) depth m (qs ++ us) m' us
        (segment (Grammar.level P.registry n) inPattern) fun next =>
        (acc ++ [next]).map (BitSegment.skeleton true) =
          acc.map (BitSegment.skeleton true) ++ [s.skeleton true] := by
    intro s m qs m' us acc hs hus
    refine (hs.1.regains source n us (Nat.le_trans hs.2 hn) hus).mono fun a ha => ?_
    rw [List.map_append, List.map_singleton, ha]
  -- A list without segments is over at its bracket; else each round reads a segment and what
  -- stands behind it.
  by_cases hne : ss = []
  · subst hne
    cases h
    refine (consumes_skipNewlines (Piece.suits_mark _ _ _) (by decide)).bind fun _ _ => ?_
    exact .ite_check .bitClose (Piece.suits_mark _ _ _) (fun _ => consumes_pure rfl)
      fun hne => absurd rfl hne
  · have hall := (begins_listed (Listed.bounded h) hne hbegins).append
      (.mark .bitClose ">>" :: us)
    refine hall.skipNewlines.bind fun _ _ => hall.other_check rfl ?_
    refine Consumes.mono (V := fun acc => acc.map (BitSegment.skeleton true) =
      ([] : List BitSegment).map (BitSegment.skeleton true) ++
        ss.map (BitSegment.skeleton true)) (.loop fun k hk => ?_) fun acc hacc => by
          rw [skeletonSegments_eq, skeletonSegments_eq, hacc]
          rfl
    rw [List.length_append] at hk
    refine consumes_rounds (Listed.bounded h) hne hbegins (fun s m qs m' vs acc hs hvs => ?_)
      (fun s m qs m' acc hs => ?_) (by omega) []
    · refine (hadd acc hs ⟨_, _, rfl, rfl, .inl rfl⟩).bind fun next hnext => ?_
      refine (consumes_skipNewlines (Piece.suits_mark _ _ _) (by decide)).bind fun _ _ => ?_
      refine .ite_check .comma (Piece.suits_mark _ _ _) (fun _ => ?_) fun hne => absurd rfl hne
      refine (consumes_consume (Piece.suits_mark _ _ _) (by decide)).bind fun _ _ => ?_
      exact hvs.skipNewlines.bind fun _ _ => hvs.other_check rfl (consumes_pure ⟨_, rfl, hnext⟩)
    · refine (hadd acc hs ⟨_, _, rfl, rfl, .inr rfl⟩).bind fun next hnext => ?_
      refine (consumes_skipNewlines (Piece.suits_mark _ _ _) (by decide)).bind fun _ _ => ?_
      exact .ite_check .comma (Piece.suits_mark _ _ _) (fun heq => absurd heq (by decide))
        fun _ => consumes_pure ⟨_, rfl, hnext⟩

/-- Segments in double angle brackets. -/
theorem consumes_bitstring {ss : List BitSegment} (hguard : P.guard.Admits depth)
    (h : Listed (RegainsSegment P (depth + 1) inPattern) ss m ps m') (source : String)
    (hn : ps.length ≤ n) :
    Consumes (P.env source) depth m
      (.mark .bitOpen "<<" :: (ps ++ Piece.mark .bitClose ">>" :: us)) m' us
      (bitstring (Grammar.level P.registry n) inPattern)
      fun r => skeletonSegments true r.1 = skeletonSegments true ss := by
  refine (consumes_expect (Piece.suits_mark _ _ _) rfl (by decide)).bind fun opening _ => ?_
  refine .nested hguard ?_
  refine (consumes_segmentList h source hn).bind fun acc hacc => ?_
  refine (consumes_current (Piece.suits_mark _ _ _)).bind fun found hfound => ?_
  have hclosed : (decide (found.kind = .bitClose) || decide (found.kind = .endOfInput)) = true := by
    rw [hfound.kind]
    rfl
  rw [if_pos hclosed]
  exact (consumes_expectClosing opening (Piece.suits_mark _ _ _) rfl (by decide)).bind
    fun _ _ => consumes_pure hacc

/-- A bitstring is read back from its segments between double brackets. -/
theorem regains_bitstring {ss : List BitSegment} (hguard : P.guard.Admits depth)
    (h : Listed (RegainsSegment P (depth + 1) false) ss m ps m') (Follow : List Piece → Prop) :
    Regains P depth m (.bitstring ss position)
      (.mark .bitOpen "<<" :: (ps ++ [Piece.mark .bitClose ">>"])) m' primary Follow := by
  intro source n us hn _
  simp only [List.length_cons, List.length_append] at hn
  simp only [List.cons_append, List.append_assoc, List.nil_append]
  refine (consumes_current (Piece.suits_mark _ _ _)).bind fun t ht => ?_
  rw [ht.kind]
  refine (consumes_bitstring hguard h source (by omega)).bind fun r hr => consumes_pure ?_
  rw [SameSkeleton, Expr.skeleton, Expr.skeleton, hr]

end Parse

end PolyScript
