import PolyScript.Proofs.LayerDocuments
import PolyScript.Proofs.Overlays
import PolyScript.Proofs.Records

/-!
# Settings That Fit

Fields that hold numbers have a range, and parameters are an object whose members are
sorted. Decoding keeps to both: a number outside the range of its field is refused, and a
document that is sorted gives sorted parameters. The documents of layers are sorted, and so
is what comes of laying them over the defaults; so all settings that are ever loaded fit.

## Main definitions

* `Settings.Fits`: Numbers fit their fields, and parameters are sorted.

## Theorems

* `Settings.fits_of_ofJson`: Settings that a sorted document describes fit.
* `Settings.load_eq_ok_iff`: What is loaded.
* `Settings.fits_of_load`: Settings that were loaded fit.
-/

namespace PolyScript

open Decode

/-- An integer that fits thirty-two bits. -/
def Decode.FitsInt32 (n : Int) : Prop := -(2 ^ 31) ≤ n ∧ n < 2 ^ 31

instance (n : Int) : Decidable (FitsInt32 n) := inferInstanceAs (Decidable (_ ∧ _))

/-- The settings of a handler whose numbers fit their fields and whose parameters are
    sorted. -/
structure HandlerSettings.Fits (h : HandlerSettings) : Prop where
  priority : FitsInt32 h.priority
  order : FitsInt32 h.order
  fallbackPriority : ∀ n ∈ h.fallbackPriority, FitsInt32 n
  patterns : ∀ p ∈ h.patterns, p.offset < 2 ^ 64
  params : (Json.object h.params).IsSorted

/-- Settings whose numbers fit their fields and whose parameters are sorted. -/
structure Settings.Fits (s : Settings) : Prop where
  maxDepth : s.maxDepth < 2 ^ 64
  defaultFallbackPriority : FitsInt32 s.defaultFallbackPriority
  handlers : ∀ h ∈ s.handlers, h.Fits

theorem Settings.fits_defaults : defaults.Fits := by
  refine ⟨by decide, by decide, fun h hmem => ?_⟩
  have hall : ∀ h ∈ HandlerSettings.defaults, FitsInt32 h.priority ∧ FitsInt32 h.order ∧
      (∀ n ∈ h.fallbackPriority, FitsInt32 n) ∧ (∀ p ∈ h.patterns, p.offset < 2 ^ 64) ∧
      h.params.isEmpty = true := by decide
  rcases hall h hmem with ⟨hpriority, horder, hfallbackPriority, hpatterns, hparams⟩
  refine ⟨hpriority, horder, hfallbackPriority, hpatterns, ?_⟩
  rw [List.isEmpty_iff.1 hparams]
  exact .object List.Pairwise.nil (List.forall_mem_nil _)

/-! ### Decoding -/

namespace Decode

theorem fitsInt32_of_int32 {j : Json} {n : Int} (h : int32? j = some n) : FitsInt32 n := by
  unfold int32? at h
  split at h
  · rcases Option.ite_none_right_eq_some.1 h with ⟨hfits, heq⟩
    exact Option.some.inj heq ▸ hfits
  · cases h

theorem lt_of_size {j : Json} {n : Nat} (h : size? j = some n) : n < 2 ^ 64 := by
  unfold size? at h
  split at h
  · rcases Option.ite_none_right_eq_some.1 h with ⟨hfits, heq⟩
    rw [← Option.some.inj heq]
    omega
  · cases h

/-- What holds of the default and of all that is decoded holds of an optional field. -/
theorem of_optional {α : Type} {P : α → Prop} {default value : α} {decode : Json → Option α}
    {field : Option Json} (h : optional default decode field = some value) (hdefault : P default)
    (hdecode : ∀ j ∈ field, decode j = some value → P value) : P value := by
  cases field with
  | none => exact Option.some.inj h ▸ hdefault
  | some j => exact hdecode j rfl h

/-- What holds of all items that are decoded. -/
theorem forall_of_list {α : Type} {P : α → Prop} {decode : Json → Option α} {j : Json}
    {xs : List α} (h : list? decode j = some xs) (hj : j.IsSorted)
    (hdecode : ∀ {item x}, item.IsSorted → decode item = some x → P x) : ∀ x ∈ xs, P x := by
  cases hj with
  | @array items hitems =>
      have hall := list?_array_eq_some_iff.1 h
      clear h
      induction hall with
      | nil => exact List.forall_mem_nil _
      | cons hx _ ih =>
          rcases List.forall_mem_cons.1 hitems with ⟨hfirst, hrest⟩
          exact List.forall_mem_cons.2 ⟨hdecode hfirst hx, ih hrest⟩
  | null | bool | int | float | string | object => cases h

end Decode

theorem TokenPattern.offset_lt_of_ofJson {j : Json} {p : TokenPattern}
    (h : TokenPattern.ofJson? j = some p) : p.offset < 2 ^ 64 := by
  rcases TokenPattern.exists_describedBy h with ⟨members, hp, -⟩
  exact of_optional (P := fun n => n < 2 ^ 64) hp.offset (by decide) fun _ _ => lt_of_size

/-- A handler that is read from a sorted document has numbers in the ranges of their types, and
    sorted parameters. -/
theorem HandlerSettings.fits_of_ofJson {j : Json} {h : HandlerSettings} (hj : j.IsSorted)
    (hh : HandlerSettings.ofJson? j = some h) : h.Fits := by
  -- Each field was decoded from a member, or has its default.
  rcases HandlerSettings.exists_describedBy hh with ⟨members, hd, hsorted⟩
  have hvalue : ∀ {name j}, j ∈ members.lookup name → j.IsSorted := fun hj' =>
    hsorted hj _ (mem_of_lookup_eq_some hj')
  constructor
  · exact of_optional hd.priority (by decide) fun _ _ => fitsInt32_of_int32
  · exact of_optional hd.order (by decide) fun _ _ => fitsInt32_of_int32
  · refine of_optional (P := fun value => ∀ n ∈ value, FitsInt32 n) hd.fallbackPriority
      (by simp) fun j _ hn n hmem => ?_
    unfold nullable at hn
    split at hn
    · rw [← Option.some.inj hn] at hmem
      cases hmem
    · rcases Option.map_eq_some_iff.1 hn with ⟨m, hm, heq⟩
      rw [← heq] at hmem
      cases hmem
      exact fitsInt32_of_int32 hm
  · exact of_optional (P := fun ps => ∀ p ∈ ps, p.offset < 2 ^ 64) hd.patterns
      (List.forall_mem_nil _) fun j hj hps =>
        forall_of_list hps (hvalue hj) fun _ => TokenPattern.offset_lt_of_ofJson
  · refine of_optional (P := fun params => (Json.object params).IsSorted) hd.params
      (.object List.Pairwise.nil (List.forall_mem_nil _)) fun j hj hparams => ?_
    cases j with
    | object params => exact Option.some.inj hparams ▸ hvalue hj
    | null | bool | int | float | string | array => cases hparams

/-- Settings that a sorted document describes fit. -/
theorem Settings.fits_of_ofJson {j : Json} {s : Settings} (hj : j.IsSorted)
    (h : Settings.ofJson? j = some s) : s.Fits := by
  rcases Settings.exists_describedBy h with ⟨members, hd, hsorted⟩
  constructor
  · exact of_optional (P := fun n => n < 2 ^ 64) hd.maxDepth fits_defaults.maxDepth
      fun _ _ => lt_of_size
  · exact of_optional hd.defaultFallbackPriority fits_defaults.defaultFallbackPriority
      fun _ _ => fitsInt32_of_int32
  · exact of_optional (P := fun hs => ∀ h ∈ hs, h.Fits) hd.handlers fits_defaults.handlers
      fun j' hj' hhs => forall_of_list (P := HandlerSettings.Fits) hhs
        (hsorted hj _ (mem_of_lookup_eq_some hj')) HandlerSettings.fits_of_ofJson

/-! ### Loading -/

namespace Settings

/-- Layers laid over a sorted document give a sorted document. -/
theorem isSorted_of_applyLayers {k : Nat} {layers : List Layer} {base merged : Json}
    (hbase : base.IsSorted) (h : applyLayers k layers base = .ok merged) : merged.IsSorted := by
  induction layers generalizing k base with
  | nil =>
      cases h
      exact hbase
  | cons layer rest ih =>
      rw [applyLayers] at h
      split at h
      · cases h
      · rename_i overlay hread
        exact ih ((Layer.of_read hread).1.laidOver hbase) h

/-- What is loaded: the settings that the defaults with all layers laid over them describe,
    if they are valid. -/
theorem load_eq_ok_iff {layers : List Layer} {s : Settings} : load layers = .ok s ↔
    ∃ merged, applyLayers 1 layers defaults.toJson.sorted = .ok merged ∧
      ofJson? merged = some s ∧ s.validate = .ok () := by
  constructor
  · intro h
    unfold load at h
    split at h
    · cases h
    · rename_i merged hmerged
      split at h
      · cases h
      · rename_i t ht
        unfold validated at h
        split at h
        · cases h
          exact ⟨merged, hmerged, ht, ‹_›⟩
        · cases h
  · rintro ⟨merged, hmerged, hs, hvalid⟩
    simp only [load, hmerged, hs, validated, hvalid]

/-- Settings that were loaded fit. -/
theorem fits_of_load {layers : List Layer} {s : Settings} (h : load layers = .ok s) :
    s.Fits := by
  rcases load_eq_ok_iff.1 h with ⟨merged, hmerged, hs, -⟩
  exact fits_of_ofJson (isSorted_of_applyLayers (Json.isSorted_sorted _) hmerged) hs

end Settings

end PolyScript
