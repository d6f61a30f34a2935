import Mathlib.Data.List.Forall2
import Mathlib.Data.List.Perm.Subperm
import PolyScript.Proofs.Lookup
import PolyScript.Value.Basic

/-!
# Loose Equality

Loose equality compares numbers by what they denote and containers part by part. On values
whose objects have each key once it is an equivalence, except that a pattern that denotes no
number does not equal itself.

Between two floating point numbers equality is one of patterns, between an integer and a
floating point number one of denotations. The two agree because a number has one pattern: the
significand of a finite number has its topmost bit wherever the exponent leaves a choice. So
two patterns that denote one integer are the same, apart from the two zeros.

Objects are compared by their sizes and by looking up the keys of one in the other. That the
other has no further keys follows by counting, and counting needs that no key comes twice.

## Main definitions

* `Value.KeysOnce`: The objects of a value have each key once.
* `Value.NaNFree`: The floating point numbers of a value denote something.

## Theorems

* `Double.eq_of_toInt`: Two numbers that equal one integer are equal.
* `Value.looseEq_refl`, `Value.looseEq_symm`, `Value.looseEq_trans`: Loose equality is an
  equivalence.
* `Value.looseEq_laws`: Where it is one.
-/

namespace PolyScript

/-! ### Lists -/

section Lists

variable {α β γ : Type} {as : List α} {bs : List β}

theorem forall₂_imp_of_mem {r s : α → β → Prop} (h : List.Forall₂ r as bs)
    (himp : ∀ a ∈ as, ∀ b ∈ bs, r a b → s a b) : List.Forall₂ s as bs := by
  induction h with
  | nil => exact .nil
  | cons hfirst _ ih =>
      refine .cons (himp _ List.mem_cons_self _ List.mem_cons_self hfirst) (ih fun a ha b hb => ?_)
      exact himp a (List.mem_cons_of_mem _ ha) b (List.mem_cons_of_mem _ hb)

/-- Lists related item by item are related across a third one, where the relations compose on the
    items of the first. -/
theorem forall₂_trans_of_mem {r : α → β → Prop} {s : β → γ → Prop} {t : α → γ → Prop}
    {cs : List γ} (h : List.Forall₂ r as bs) (h' : List.Forall₂ s bs cs)
    (htrans : ∀ a ∈ as, ∀ b c, r a b → s b c → t a c) : List.Forall₂ t as cs := by
  induction h generalizing cs with
  | nil =>
      cases h'
      exact .nil
  | cons hfirst _ ih =>
      cases h' with
      | cons hfirst' hrest' =>
          exact .cons (htrans _ List.mem_cons_self _ _ hfirst hfirst')
            (ih hrest' fun a ha => htrans a (List.mem_cons_of_mem _ ha))

end Lists

/-! ### Numbers -/

namespace Double

theorem eq_self {d : Double} (h : d.isNaN = false) : d.eq d = true := by
  simp [eq, h]

theorem eq_symm {a b : Double} (h : a.eq b = true) : b.eq a = true := by
  simp only [eq, Bool.and_eq_true, Bool.or_eq_true, Bool.not_eq_true', decide_eq_true_eq] at h ⊢
  rcases h with ⟨⟨ha, hb⟩, hab⟩
  exact ⟨⟨hb, ha⟩, hab.imp Eq.symm And.symm⟩

theorem eq_trans {a b c : Double} (h : a.eq b = true) (h' : b.eq c = true) : a.eq c = true := by
  simp only [eq, Bool.and_eq_true, Bool.or_eq_true, Bool.not_eq_true', decide_eq_true_eq] at h h' ⊢
  rcases h with ⟨⟨ha, -⟩, hab⟩
  rcases h' with ⟨⟨-, hc⟩, hbc⟩
  refine ⟨⟨ha, hc⟩, ?_⟩
  rcases hab with rfl | ⟨hzero, hb⟩
  · exact hbc
  · rcases hbc with rfl | ⟨-, hzero'⟩
    · exact .inr ⟨hzero, hb⟩
    · exact .inr ⟨hzero, hzero'⟩

/-- How far the exponent is above the least one. -/
def scale (d : Double) : Nat := d.biased - 1

theorem exponent_eq (d : Double) : d.exponent = (d.scale : Int) - 1074 := by
  unfold exponent scale
  split <;> omega

theorem fraction_lt (d : Double) : d.fraction < 2 ^ 52 := Nat.mod_lt _ (by decide)

theorem significand_lt (d : Double) : d.significand < 2 ^ 53 := by
  have := d.fraction_lt
  unfold significand
  split <;> omega

/-- Above the least exponent, the topmost bit of the significand is set. -/
theorem le_significand {d : Double} (h : 0 < d.scale) : 2 ^ 52 ≤ d.significand := by
  unfold scale at h
  unfold significand
  rw [if_neg (by omega)]
  omega

/-- A pattern is its sign and its two fields. -/
theorem bits_eq (d : Double) : d.bits.toNat =
    (if d.isNegative then 2 ^ 63 else 0) + d.biased * 2 ^ 52 + d.fraction := by
  have hbits := d.bits.toNat_lt
  unfold isNegative biased fraction
  split <;> rename_i h <;> rw [decide_eq_true_eq] at h <;> omega

/-- A number is determined by its sign, its significand and its exponent. -/
theorem eq_of_parts {a b : Double} (hsign : a.isNegative = b.isNegative)
    (hsignificand : a.significand = b.significand) (hscale : a.scale = b.scale) : a = b := by
  have hbits : a.bits.toNat = b.bits.toNat := by
    have ha := a.fraction_lt
    have hb := b.fraction_lt
    rw [bits_eq, bits_eq, hsign]
    unfold significand at hsignificand
    unfold scale at hscale
    split at hsignificand <;> split at hsignificand <;> omega
  cases a
  cases b
  exact congrArg mk (UInt64.toNat_inj.1 hbits)

/-- Two products with powers of two are equal only if their factors are, where factors are
    bounded, and large if the power is not the least. -/
theorem scaled_inj {m m' k k' : Nat} (h : m * 2 ^ k = m' * 2 ^ k') (hm : m < 2 ^ 53)
    (hm' : m' < 2 ^ 53) (hk : 0 < k → 2 ^ 52 ≤ m) (hk' : 0 < k' → 2 ^ 52 ≤ m') :
    m = m' ∧ k = k' := by
  -- A larger power on one side makes for a factor beyond the bound on the other.
  have hle : ∀ {m m' k k' : Nat}, m * 2 ^ k = m' * 2 ^ k' → m < 2 ^ 53 →
      (0 < k' → 2 ^ 52 ≤ m') → k' ≤ k := by
    intro m m' k k' h hm hk'
    by_contra hlt
    obtain ⟨e, rfl⟩ := Nat.exists_eq_add_of_lt (Nat.lt_of_not_le hlt)
    have hpow : 2 ^ (k + e + 1) = 2 ^ (e + 1) * 2 ^ k := by
      rw [← Nat.pow_add]
      congr 1
      omega
    rw [hpow, ← Nat.mul_assoc] at h
    have hfactor : m = m' * 2 ^ (e + 1) := Nat.eq_of_mul_eq_mul_right (Nat.two_pow_pos k) h
    have htwo : m' * 2 ≤ m' * 2 ^ (e + 1) :=
      Nat.mul_le_mul_left m' (Nat.le_self_pow (Nat.succ_ne_zero e) 2)
    have hlarge := hk' (Nat.succ_pos _)
    omega
  have hsame : k = k' := Nat.le_antisymm (hle h.symm hm' hk) (hle h hm hk')
  subst hsame
  exact ⟨Nat.eq_of_mul_eq_mul_right (Nat.two_pow_pos k) h, rfl⟩

/-- What a number that equals an integer is made of: it is finite, its significand and exponent
    make the integer, and unless it is zero it has the sign of it. -/
theorem of_toInt? {d : Double} {n : Int} (h : d.toInt? = some n) :
    d.isFinite = true ∧ d.significand * 2 ^ d.scale = n.natAbs * 2 ^ 1074 ∧
      (n ≠ 0 → d.isNegative = decide (n < 0)) := by
  -- The sign is that of the integer, unless this is zero.
  have hsign : ∀ N : Nat, n = (if d.isNegative then -(N : Int) else N) →
      n.natAbs = N ∧ (n ≠ 0 → d.isNegative = decide (n < 0)) := by
    intro N hn
    cases hneg : d.isNegative
    · rw [hneg, if_neg Bool.false_ne_true] at hn
      exact ⟨by omega, fun _ => (decide_eq_false (by omega)).symm⟩
    · rw [hneg, if_pos rfl] at hn
      exact ⟨by omega, fun _ => (decide_eq_true (by omega)).symm⟩
  unfold toInt? at h
  rw [exponent_eq] at h
  cases hfinite : d.isFinite
  · rw [hfinite] at h
    cases h
  · simp only [hfinite, Bool.not_true, Bool.false_eq_true, if_false] at h
    refine ⟨rfl, ?_⟩
    -- With an exponent that is not negative the number is an integer; with a negative one the
    -- significand has to be a multiple of the power.
    split at h
    · rcases hsign _ (Option.some.inj h).symm with ⟨habs, hneg⟩
      refine ⟨?_, hneg⟩
      rw [habs, Nat.mul_assoc, ← Nat.pow_add]
      congr 2
      omega
    · rw [Option.ite_none_right_eq_some] at h
      rcases hsign _ (Option.some.inj h.2).symm with ⟨habs, hneg⟩
      refine ⟨?_, hneg⟩
      have hwhole := Nat.div_mul_cancel (Nat.dvd_of_mod_eq_zero h.1)
      rw [habs]
      generalize hunit : (2 : Nat) ^ (-((d.scale : Int) - 1074)).toNat = unit at *
      have hpow : 2 ^ 1074 = unit * 2 ^ d.scale := by
        rw [← hunit, ← Nat.pow_add]
        congr 1
        omega
      rw [hpow, ← Nat.mul_assoc, hwhole]

theorem isNaN_of_isFinite {d : Double} (h : d.isFinite = true) : d.isNaN = false := by
  simp only [isFinite, decide_eq_true_eq] at h
  simp [isNaN, h]

theorem isZero_of_significand {d : Double} (h : d.significand = 0) : d.isZero = true := by
  unfold significand at h
  unfold isZero
  split at h
  · simp [*]
  · omega

theorem toInt?_of_isZero {d : Double} (h : d.isZero = true) : d.toInt? = some 0 := by
  simp only [isZero, Bool.and_eq_true, decide_eq_true_eq] at h
  have hfinite : d.isFinite = true := decide_eq_true (by omega)
  have hsignificand : d.significand = 0 := by rw [significand, if_pos h.1, h.2]
  unfold toInt?
  simp only [hfinite, hsignificand, Nat.zero_mul, Nat.zero_mod, Nat.zero_div, if_true]
  cases d.isNegative <;> simp

/-- Two numbers that equal one integer are equal. -/
theorem eq_of_toInt {a b : Double} {n : Int} (ha : a.toInt? = some n) (hb : b.toInt? = some n) :
    a.eq b = true := by
  rcases of_toInt? ha with ⟨hafinite, hasize, hasign⟩
  rcases of_toInt? hb with ⟨hbfinite, hbsize, hbsign⟩
  rcases scaled_inj (hasize.trans hbsize.symm) a.significand_lt b.significand_lt le_significand
    le_significand with ⟨hsignificand, hscale⟩
  simp only [eq, isNaN_of_isFinite hafinite, isNaN_of_isFinite hbfinite, Bool.not_false,
    Bool.true_and, Bool.or_eq_true, Bool.and_eq_true, decide_eq_true_eq]
  by_cases hzero : n = 0
  -- Zero has two patterns, which differ in their signs.
  · rw [hzero, Int.natAbs_zero, Nat.zero_mul] at hasize hbsize
    have hscaled : ∀ {d : Double}, d.significand * 2 ^ d.scale = 0 → d.isZero = true := fun h =>
      isZero_of_significand
        ((Nat.mul_eq_zero.1 h).resolve_right (Nat.ne_of_gt (Nat.two_pow_pos _)))
    exact .inr ⟨hscaled hasize, hscaled hbsize⟩
  · exact .inl (eq_of_parts ((hasign hzero).trans (hbsign hzero).symm) hsignificand hscale)

/-- Equal numbers equal the same integers. -/
theorem toInt?_of_eq {a b : Double} {n : Int} (h : a.eq b = true) (ha : a.toInt? = some n) :
    b.toInt? = some n := by
  simp only [eq, Bool.and_eq_true, Bool.or_eq_true, decide_eq_true_eq] at h
  rcases h.2 with rfl | ⟨hazero, hbzero⟩
  · exact ha
  · rw [toInt?_of_isZero hbzero, ← ha, toInt?_of_isZero hazero]

end Double

/-! ### Values -/

namespace Value

/-- The objects of a value, at any depth, have each key once. -/
inductive KeysOnce : Value → Prop
  | nil : KeysOnce nil
  | boolean (value : Bool) : KeysOnce (boolean value)
  | integer (value : Int) : KeysOnce (integer value)
  | float (value : Double) : KeysOnce (float value)
  | string (value : String) : KeysOnce (string value)
  | bytes (value : List UInt8) : KeysOnce (bytes value)
  | array {items : List Value} : (∀ v ∈ items, KeysOnce v) → KeysOnce (array items)
  | object {members : List (String × Value)} : (members.map Prod.fst).Nodup →
    (∀ m ∈ members, KeysOnce m.2) → KeysOnce (object members)

/-- The floating point numbers of a value, at any depth, denote something. -/
inductive NaNFree : Value → Prop
  | nil : NaNFree nil
  | boolean (value : Bool) : NaNFree (boolean value)
  | integer (value : Int) : NaNFree (integer value)
  | float {value : Double} : value.isNaN = false → NaNFree (float value)
  | string (value : String) : NaNFree (string value)
  | bytes (value : List UInt8) : NaNFree (bytes value)
  | array {items : List Value} : (∀ v ∈ items, NaNFree v) → NaNFree (array items)
  | object {members : List (String × Value)} : (∀ m ∈ members, NaNFree m.2) →
    NaNFree (object members)

/-! What a value equals, by its form. -/

theorem itemsEqWith_iff {loose : Bool} {as bs : List Value} : itemsEqWith loose as bs = true ↔
    List.Forall₂ (fun a b => eqWith loose a b = true) as bs := by
  induction as generalizing bs with
  | nil => cases bs <;> simp [itemsEqWith]
  | cons a as ih =>
      cases bs with
      | nil => simp [itemsEqWith]
      | cons b bs => rw [itemsEqWith, Bool.and_eq_true, ih, List.forall₂_cons]

theorem membersIn_iff {loose : Bool} {as bs : List (String × Value)} :
    membersIn loose bs as = true ↔
      ∀ m ∈ as, ∃ w, bs.lookup m.1 = some w ∧ eqWith loose m.2 w = true := by
  induction as with
  | nil => simp [membersIn]
  | cons m as ih =>
      rw [membersIn, Bool.and_eq_true, ih, List.forall_mem_cons]
      cases bs.lookup m.1 <;> simp

theorem looseEq_integer {n : Int} {v : Value} : (integer n).looseEq v = true ↔
    v = integer n ∨ ∃ d, v = float d ∧ d.toInt? = some n := by
  cases v <;> simp [looseEq, eqWith, eq_comm]

theorem looseEq_float {d : Double} {v : Value} : (float d).looseEq v = true ↔
    (∃ d', v = float d' ∧ d.eq d' = true) ∨ ∃ n, v = integer n ∧ d.toInt? = some n := by
  cases v <;> simp [looseEq, eqWith]

theorem looseEq_array {items : List Value} {v : Value} : (array items).looseEq v = true ↔
    ∃ items', v = array items' ∧
      List.Forall₂ (fun a b => looseEq a b = true) items items' := by
  cases v <;> simp [looseEq, eqWith, itemsEqWith_iff]

theorem looseEq_object {members : List (String × Value)} {v : Value} :
    (object members).looseEq v = true ↔ ∃ members', v = object members' ∧
      members.length = members'.length ∧
      ∀ m ∈ members, ∃ w, members'.lookup m.1 = some w ∧ looseEq m.2 w = true := by
  cases v <;> simp [looseEq, eqWith, membersIn_iff]

/-- Any other value equals itself alone. -/
theorem looseEq_plain {a b : Value}
    (h : match a with | nil | boolean _ | string _ | bytes _ => True | _ => False) :
    a.looseEq b = true ↔ b = a := by
  cases a with
  | nil | boolean | string | bytes => cases b <;> simp [looseEq, eqWith, eq_comm]
  | integer | float | array | object => exact h.elim

/-! ### An equivalence -/

/-- A value without patterns that denote no number equals itself. -/
theorem looseEq_refl {v : Value} (hkeys : v.KeysOnce) (hnan : v.NaNFree) :
    v.looseEq v = true := by
  induction hkeys with
  | nil | boolean | string | bytes => exact (looseEq_plain trivial).2 rfl
  | integer n => exact looseEq_integer.2 (.inl rfl)
  | float d =>
      cases hnan with
      | float hd => exact looseEq_float.2 (.inl ⟨d, rfl, Double.eq_self hd⟩)
  | array _ ih =>
      cases hnan with
      | array hitems =>
          refine looseEq_array.2 ⟨_, rfl, ?_⟩
          exact List.forall₂_same.2 fun v hv => ih v hv (hitems v hv)
  | object hnodup _ ih =>
      cases hnan with
      | object hmembers =>
          exact looseEq_object.2 ⟨_, rfl, rfl, fun m hm =>
            ⟨m.2, lookup_of_mem hnodup hm, ih m hm (hmembers m hm)⟩⟩

/-- Loose equality is symmetric where the keys of objects are distinct. Objects are compared
    member by member from the left and have the same number of members, so the keys of one side
    are those of the other. -/
theorem looseEq_symm {a b : Value} (ha : a.KeysOnce) (hb : b.KeysOnce)
    (h : a.looseEq b = true) : b.looseEq a = true := by
  induction ha generalizing b with
  | nil | boolean | string | bytes =>
      rw [looseEq_plain trivial] at h
      rw [h]
      exact (looseEq_plain trivial).2 rfl
  | integer n =>
      rcases looseEq_integer.1 h with rfl | ⟨d, rfl, hd⟩
      · exact looseEq_integer.2 (.inl rfl)
      · exact looseEq_float.2 (.inr ⟨n, rfl, hd⟩)
  | float d =>
      rcases looseEq_float.1 h with ⟨d', rfl, hd⟩ | ⟨n, rfl, hd⟩
      · exact looseEq_float.2 (.inl ⟨d, rfl, Double.eq_symm hd⟩)
      · exact looseEq_integer.2 (.inr ⟨d, rfl, hd⟩)
  | array _ ih =>
      rcases looseEq_array.1 h with ⟨items', rfl, hitems⟩
      cases hb with
      | array hkeys =>
          exact looseEq_array.2 ⟨_, rfl, (forall₂_imp_of_mem hitems
            fun a ha b hb hab => ih a ha (hkeys b hb) hab).flip⟩
  | @object members hnodup _ ih =>
      rcases looseEq_object.1 h with ⟨members', rfl, hlength, hmembers⟩
      cases hb with
      | object hnodup' hkeys =>
          refine looseEq_object.2 ⟨members, rfl, hlength.symm, fun m hm => ?_⟩
          -- As many keys, all of them found, so no key is new.
          have hsub : members.map Prod.fst ⊆ members'.map Prod.fst := fun key hkey => by
            rcases List.mem_map.1 hkey with ⟨n, hn, rfl⟩
            rcases hmembers n hn with ⟨w, hw, -⟩
            exact lookup_isSome_iff.1 (by rw [hw]; rfl)
          have hperm := (List.subperm_of_subset hnodup hsub).perm_of_length_le (by simp [hlength])
          have hkey := hperm.mem_iff.2 (List.mem_map_of_mem hm)
          rcases List.mem_map.1 hkey with ⟨n, hn, hname⟩
          rcases hmembers n hn with ⟨w, hw, hloose⟩
          have hfound := lookup_of_mem hnodup' hm
          rw [← hname, hw] at hfound
          cases hfound
          refine ⟨n.2, ?_, ih n hn (hkeys m hm) hloose⟩
          rw [← hname]
          exact lookup_of_mem hnodup hn

/-- Loose equality is transitive. The members of an object are found by key, so the middle one
    may list them in any order, and only its neighbor on the left needs distinct keys. -/
theorem looseEq_trans {a b c : Value} (ha : a.KeysOnce) (h : a.looseEq b = true)
    (h' : b.looseEq c = true) : a.looseEq c = true := by
  -- By induction on the first value. The second and third have the same shape, up to numbers of
  -- either type.
  induction ha generalizing b c with
  | nil | boolean | string | bytes =>
      rw [looseEq_plain trivial] at h
      rw [h] at h'
      exact h'
  | integer n =>
      rcases looseEq_integer.1 h with rfl | ⟨d, rfl, hd⟩
      · exact h'
      · rcases looseEq_float.1 h' with ⟨d', rfl, hd'⟩ | ⟨n', rfl, hd'⟩
        · exact looseEq_integer.2 (.inr ⟨d', rfl, Double.toInt?_of_eq hd' hd⟩)
        · rw [hd] at hd'
          cases hd'
          exact looseEq_integer.2 (.inl rfl)
  | float d =>
      rcases looseEq_float.1 h with ⟨d', rfl, hd⟩ | ⟨n, rfl, hd⟩
      · rcases looseEq_float.1 h' with ⟨e, rfl, he⟩ | ⟨n, rfl, he⟩
        · exact looseEq_float.2 (.inl ⟨e, rfl, Double.eq_trans hd he⟩)
        · exact looseEq_float.2 (.inr ⟨n, rfl, Double.toInt?_of_eq (Double.eq_symm hd) he⟩)
      · rcases looseEq_integer.1 h' with rfl | ⟨e, rfl, he⟩
        · exact looseEq_float.2 (.inr ⟨n, rfl, hd⟩)
        · exact looseEq_float.2 (.inl ⟨e, rfl, Double.eq_of_toInt hd he⟩)
  | array _ ih =>
      rcases looseEq_array.1 h with ⟨items, rfl, hitems⟩
      rcases looseEq_array.1 h' with ⟨items', rfl, hitems'⟩
      exact looseEq_array.2 ⟨items', rfl, forall₂_trans_of_mem hitems hitems'
        fun a ha _ _ hab hbc => ih a ha hab hbc⟩
  | object hnodup _ ih =>
      rcases looseEq_object.1 h with ⟨members, rfl, hlength, hmembers⟩
      rcases looseEq_object.1 h' with ⟨members', rfl, hlength', hmembers'⟩
      -- Each member of the first has one in the second and this one in the third; their number is
      -- the same.
      refine looseEq_object.2 ⟨members', rfl, hlength.trans hlength', fun m hm => ?_⟩
      rcases hmembers m hm with ⟨v, hv, hmv⟩
      rcases hmembers' _ (mem_of_lookup_eq_some hv) with ⟨w, hw, hvw⟩
      exact ⟨w, hw, ih m hm hmv hvw⟩

/-- What equals itself has no patterns that denote no number. -/
theorem naNFree_of_looseEq_self {v : Value} (hkeys : v.KeysOnce) (h : v.looseEq v = true) :
    v.NaNFree := by
  induction hkeys with
  | nil => exact .nil
  | boolean b => exact .boolean b
  | integer n => exact .integer n
  | string text => exact .string text
  | bytes data => exact .bytes data
  | float d =>
      rcases looseEq_float.1 h with ⟨d', hd', heq⟩ | ⟨n, hn, -⟩
      · cases hd'
        rw [Double.eq, Bool.and_eq_true, Bool.and_eq_true, Bool.not_eq_true'] at heq
        exact .float heq.1.1
      · cases hn
  | array _ ih =>
      rcases looseEq_array.1 h with ⟨items, hsame, hitems⟩
      cases hsame
      exact .array fun v hv => ih v hv (List.forall₂_same.1 hitems v hv)
  | object hnodup _ ih =>
      rcases looseEq_object.1 h with ⟨members, hsame, -, hmembers⟩
      cases hsame
      refine .object fun m hm => ih m hm ?_
      -- Where keys come once, what is found under the key is the member itself.
      rcases hmembers m hm with ⟨w, hw, hself⟩
      rw [lookup_of_mem hnodup hm] at hw
      cases hw
      exact hself

/-- On values whose objects have each key once, loose equality is symmetric and transitive,
    and the values that equal themselves are those without patterns that denote no number. -/
theorem looseEq_laws :
    (∀ a b : Value, a.KeysOnce → b.KeysOnce → a.looseEq b = true → b.looseEq a = true) ∧
    (∀ a b c : Value, a.KeysOnce → a.looseEq b = true → b.looseEq c = true →
      a.looseEq c = true) ∧
    ∀ v : Value, v.KeysOnce → (v.looseEq v = true ↔ v.NaNFree) := by
  refine ⟨?_, ?_, ?_⟩
  · intro a b ha hb h
    exact looseEq_symm ha hb h
  · intro a b c ha h h'
    exact looseEq_trans ha h h'
  · intro v hkeys
    exact ⟨naNFree_of_looseEq_self hkeys, looseEq_refl hkeys⟩

/-- A chain from an integer through a floating point number to an integer, the two zeros next to
    it, and the members of the objects in another order. -/
theorem looseEq_laws_nested :
    let two : Double := ⟨0x4000000000000000⟩
    let negativeZero : Double := ⟨0x8000000000000000⟩
    let a := array [integer 2, object [("x", integer 0), ("y", float ⟨0⟩)]]
    let b := array [float two, object [("y", float negativeZero), ("x", float negativeZero)]]
    let c := array [integer 2, object [("x", float ⟨0⟩), ("y", integer 0)]]
    (a.KeysOnce ∧ b.KeysOnce ∧ a.looseEq b = true ∧ b.looseEq c = true) ∧
      b.looseEq a = true ∧ a.looseEq c = true ∧ (a.looseEq a = true ↔ a.NaNFree) := by
  intro two negativeZero a b c
  -- The objects have two members each, under keys that differ.
  have hpair : ∀ (n : Value) (k l : String) (v w : Value), k ≠ l → n.KeysOnce → v.KeysOnce →
      w.KeysOnce → (array [n, object [(k, v), (l, w)]]).KeysOnce := by
    intro n k l v w hkeys hn hv hw
    refine .array (List.forall_mem_cons.2 ⟨hn, List.forall_mem_singleton.2 (.object ?_ ?_)⟩)
    · simp [hkeys]
    · exact List.forall_mem_cons.2 ⟨hv, List.forall_mem_singleton.2 hw⟩
  have ha : a.KeysOnce := hpair _ _ _ _ _ (by decide) (.integer 2) (.integer 0) (.float _)
  have hb : b.KeysOnce := hpair _ _ _ _ _ (by decide) (.float two) (.float _) (.float _)
  have hab : a.looseEq b = true := by decide +kernel
  have hbc : b.looseEq c = true := by decide +kernel
  exact ⟨⟨ha, hb, hab, hbc⟩, looseEq_laws.1 a b ha hb hab,
    looseEq_laws.2.1 a b c ha hab hbc, looseEq_laws.2.2 a ha⟩

end Value

end PolyScript
