import Mathlib.Data.Set.Basic
import ConstantCatalog.Proofs.Availability.Version
import ConstantCatalog.Proofs.Text.Split

/-! # What a tag demands

An alternative keeps one version only, the greatest of those it names, and the least version without
extensions is sought among the alternatives that have none. Neither loses anything: whatever version
is there together with whatever extensions, they meet some alternative as it is kept if and only if
they meet every term of some alternative as it stands in the tag. -/

namespace ConstantCatalog
set_option autoImplicit false
open Text

/-! ## Read off the tag -/

/-- An alternative of the tag, which is not blank and stands between commas. -/
def IsAlternative (text tag : List Char) : Prop :=
  text ≠ [] ∧ ∃ part, StandsBetween ',' part tag ∧ trim part = text

def IsTerm (t text : List Char) : Prop :=
  ∃ ps, SplitsInto " with ".toList text ps ∧ ∃ p ∈ ps, trim p = t

/-- No version that the text names is later than the given one, and the extensions are there. -/
structure TermsMetBy (text : List Char) (major minor : UInt32) (extensions : Set String) :
    Prop where
  versions : ∀ t v, IsTerm t text → Version.ofTerm? t = some v → v.Within major minor
  extensions : ∀ t, IsTerm t text → Version.ofTerm? t = none → String.ofList t ∈ extensions

/-- A version and extensions with which the tag says that the constant is provided. -/
def Suffices (tag : String) (major minor : UInt32) (extensions : Set String) : Prop :=
  ∃ text, IsAlternative text tag.toList ∧ TermsMetBy text major minor extensions

/-! ## Alternatives -/

namespace Alternative

/-- What the alternative keeps is no later than the version and among the extensions. -/
structure MetBy (r : Alternative) (major minor : UInt32) (extensions : Set String) : Prop where
  version : ∀ v ∈ r.version, v.Within major minor
  extensions : ∀ e ∈ r.extensions, e ∈ extensions

theorem mem_terms_iff {t text : List Char} : t ∈ terms text ↔ IsTerm t text := by
  constructor
  · intro h
    obtain ⟨p, hp, rfl⟩ := List.mem_map.mp h
    exact ⟨pieces ' ' "with ".toList text, splitsInto_pieces _ _ _, p, hp, rfl⟩
  · rintro ⟨ps, hps, p, hp, rfl⟩
    have hpieces : pieces ' ' "with ".toList text = ps := pieces_eq_iff.mpr hps
    rw [terms, hpieces]
    exact List.mem_map_of_mem hp

/-- Even a text without any separator is a term. -/
theorem terms_ne_nil (text : List Char) : terms text ≠ [] := by
  intro h
  have hsplit := splitsInto_pieces ' ' "with ".toList text
  rw [List.map_eq_nil_iff.mp h] at hsplit
  cases hsplit

section Terms
variable {ts : List (List Char)}

theorem mem_extensions_ofTerms {e : String} : e ∈ (ofTerms ts).extensions ↔
    ∃ t ∈ ts, Version.ofTerm? t = none ∧ String.ofList t = e := by
  simp only [ofTerms, List.mem_map, List.mem_filter, Option.isNone_iff_eq_none, and_assoc]

theorem within_version_ofTerms {major minor : UInt32} :
    (∀ v ∈ (ofTerms ts).version, v.Within major minor) ↔
      ∀ t ∈ ts, ∀ v, Version.ofTerm? t = some v → v.Within major minor := by
  have hpatch : ∀ v ∈ ts.filterMap Version.ofTerm?, v.patch = 0 := by
    intro v hv
    obtain ⟨t, -, ht⟩ := List.mem_filterMap.mp hv
    exact Version.patch_of_ofTerm? ht
  refine (Version.within_max?_iff hpatch).trans ?_
  constructor
  · intro h t ht v hv
    exact h v (List.mem_filterMap.mpr ⟨t, ht, hv⟩)
  · intro h v hv
    obtain ⟨t, ht, htv⟩ := List.mem_filterMap.mp hv
    exact h t ht v htv

theorem metBy_ofTerms_iff {text : List Char} {major minor : UInt32} {extensions : Set String} :
    (ofTerms (terms text)).MetBy major minor extensions ↔
      TermsMetBy text major minor extensions := by
  constructor
  · intro h
    refine ⟨?_, ?_⟩
    · intro t v ht hv
      exact within_version_ofTerms.mp h.version t (mem_terms_iff.mpr ht) v hv
    · intro t ht hnone
      exact h.extensions _ (mem_extensions_ofTerms.mpr ⟨t, mem_terms_iff.mpr ht, hnone, rfl⟩)
  · intro h
    refine ⟨within_version_ofTerms.mpr ?_, ?_⟩
    · intro t ht v hv
      exact h.versions t v (mem_terms_iff.mp ht) hv
    · intro e he
      obtain ⟨t, ht, hnone, rfl⟩ := mem_extensions_ofTerms.mp he
      exact h.extensions t (mem_terms_iff.mp ht) hnone

/-- An alternative without extensions has a version. -/
theorem exists_version_ofTerms (hne : ts ≠ []) (h : (ofTerms ts).extensions = []) :
    ∃ v, (ofTerms ts).version = some v := by
  obtain ⟨t, ht⟩ := List.exists_mem_of_ne_nil ts hne
  cases hv : Version.ofTerm? t with
  | none =>
    have hmem : String.ofList t ∈ (ofTerms ts).extensions :=
      mem_extensions_ofTerms.mpr ⟨t, ht, hv, rfl⟩
    rw [h] at hmem
    cases hmem
  | some v =>
    rw [← Option.ne_none_iff_exists']
    intro hnone
    have hmem : v ∈ ts.filterMap Version.ofTerm? := List.mem_filterMap.mpr ⟨t, ht, hv⟩
    rw [List.max?_eq_none_iff.mp hnone] at hmem
    cases hmem

end Terms

end Alternative

/-! ## Tags -/

namespace Availability
variable {tag : String} {major minor : UInt32}

theorem mem_alternativeTexts_iff {text : List Char} :
    text ∈ (ofTag tag).alternativeTexts ↔ IsAlternative text tag.toList := by
  rw [alternativeTexts, ofTag, String.toList_ofList, map_trim_splitOn_trim (by decide),
    List.mem_filter, decide_eq_true_iff, List.mem_map, and_comm]
  simp only [mem_splitOn_iff]
  rfl

theorem mem_alternatives_iff {r : Alternative} : r ∈ (ofTag tag).alternatives ↔
    ∃ text, IsAlternative text tag.toList ∧ Alternative.ofTerms (Alternative.terms text) = r := by
  simp only [alternatives, List.mem_map, mem_alternativeTexts_iff]

theorem exists_metBy_iff {extensions : Set String} :
    (∃ r ∈ (ofTag tag).alternatives, r.MetBy major minor extensions) ↔
      Suffices tag major minor extensions := by
  constructor
  · rintro ⟨r, hr, hmet⟩
    obtain ⟨text, htext, rfl⟩ := mem_alternatives_iff.mp hr
    exact ⟨text, htext, Alternative.metBy_ofTerms_iff.mp hmet⟩
  · rintro ⟨text, htext, hmet⟩
    exact ⟨_, mem_alternatives_iff.mpr ⟨text, htext, rfl⟩, Alternative.metBy_ofTerms_iff.mpr hmet⟩

theorem mentions_iff {e : String} : (ofTag tag).mentions e = true ↔ ∃ text t,
    IsAlternative text tag.toList ∧ IsTerm t text ∧ Version.ofTerm? t = none ∧
      String.ofList t = e := by
  rw [mentions, List.any_eq_true]
  constructor
  · rintro ⟨r, hr, he⟩
    obtain ⟨text, htext, rfl⟩ := mem_alternatives_iff.mp hr
    obtain ⟨t, ht, hnone, heq⟩ :=
      Alternative.mem_extensions_ofTerms.mp (List.contains_iff_mem.mp he)
    exact ⟨text, t, htext, Alternative.mem_terms_iff.mp ht, hnone, heq⟩
  · rintro ⟨text, t, htext, ht, hnone, heq⟩
    refine ⟨_, mem_alternatives_iff.mpr ⟨text, htext, rfl⟩, List.contains_iff_mem.mpr ?_⟩
    exact Alternative.mem_extensions_ofTerms.mpr ⟨t, Alternative.mem_terms_iff.mpr ht, hnone, heq⟩

/-! ## The least version -/

def coreVersions (a : Availability) : List Version :=
  (a.alternatives.filter (·.extensions.isEmpty)).filterMap (·.version)

theorem coreVersion?_eq (a : Availability) : a.coreVersion? = a.coreVersions.min? := rfl

theorem mem_coreVersions_iff {a : Availability} {v : Version} : v ∈ a.coreVersions ↔
    ∃ r ∈ a.alternatives, r.extensions = [] ∧ r.version = some v := by
  simp only [coreVersions, List.mem_filterMap, List.mem_filter, List.isEmpty_iff, and_assoc]

theorem patch_of_mem_coreVersions {v : Version} (h : v ∈ (ofTag tag).coreVersions) :
    v.patch = 0 := by
  obtain ⟨r, hr, -, hv⟩ := mem_coreVersions_iff.mp h
  obtain ⟨text, -, rfl⟩ := mem_alternatives_iff.mp hr
  obtain ⟨t, -, ht⟩ := List.mem_filterMap.mp (List.max?_mem hv)
  exact Version.patch_of_ofTerm? ht

theorem suffices_empty_iff :
    Suffices tag major minor ∅ ↔ ∃ v ∈ (ofTag tag).coreVersions, v.Within major minor := by
  rw [← exists_metBy_iff]
  constructor
  · rintro ⟨r, hr, hmet⟩
    have hnil : r.extensions = [] := List.eq_nil_iff_forall_not_mem.mpr hmet.extensions
    obtain ⟨text, -, rfl⟩ := mem_alternatives_iff.mp hr
    obtain ⟨v, hv⟩ := Alternative.exists_version_ofTerms (Alternative.terms_ne_nil text) hnil
    exact ⟨v, mem_coreVersions_iff.mpr ⟨_, hr, hnil, hv⟩, hmet.version v hv⟩
  · rintro ⟨v, hv, hwithin⟩
    obtain ⟨r, hr, hnil, hversion⟩ := mem_coreVersions_iff.mp hv
    refine ⟨r, hr, ?_, ?_⟩
    · intro w hw
      rw [hversion] at hw
      cases hw
      exact hwithin
    · intro e he
      rw [hnil] at he
      cases he

theorem suffices_empty_of_mem {v : Version} (h : v ∈ (ofTag tag).coreVersions) :
    Suffices tag v.major v.minor ∅ := by
  have hpatch := patch_of_mem_coreVersions h
  exact suffices_empty_iff.mpr ⟨v, h, (Version.within_iff_le_of_patch hpatch hpatch).mpr
    (Std.le_refl v)⟩

theorem coreVersion?_eq_some_iff {v : Version} : (ofTag tag).coreVersion? = some v ↔
    v.patch = 0 ∧ Suffices tag v.major v.minor ∅ ∧
      ∀ major minor, Suffices tag major minor ∅ → v.Within major minor := by
  rw [coreVersion?_eq, List.min?_eq_some_iff]
  constructor
  · rintro ⟨hmem, hleast⟩
    have hpatch := patch_of_mem_coreVersions hmem
    refine ⟨hpatch, suffices_empty_of_mem hmem, ?_⟩
    intro major minor h
    obtain ⟨w, hw, hwithin⟩ := suffices_empty_iff.mp h
    rw [Version.within_iff_le (patch_of_mem_coreVersions hw)] at hwithin
    rw [Version.within_iff_le hpatch]
    exact Std.le_trans (hleast w hw) hwithin
  · rintro ⟨hpatch, hsuffices, hleast⟩
    have hle : ∀ w ∈ (ofTag tag).coreVersions, v ≤ w := by
      intro w hw
      rw [← Version.within_iff_le_of_patch hpatch (patch_of_mem_coreVersions hw)]
      exact hleast w.major w.minor (suffices_empty_of_mem hw)
    obtain ⟨w, hw, hwithin⟩ := suffices_empty_iff.mp hsuffices
    rw [Version.within_iff_le_of_patch (patch_of_mem_coreVersions hw) hpatch] at hwithin
    obtain rfl : w = v := Std.le_antisymm hwithin (hle w hw)
    exact ⟨hw, hle⟩

theorem coreVersion?_eq_none_iff : (ofTag tag).coreVersion? = none ↔
    ∀ major minor, ¬ Suffices tag major minor ∅ := by
  rw [coreVersion?_eq, List.min?_eq_none_iff, List.eq_nil_iff_forall_not_mem]
  constructor
  · intro h major minor hsuffices
    obtain ⟨v, hv, -⟩ := suffices_empty_iff.mp hsuffices
    exact h v hv
  · intro h v hv
    exact h v.major v.minor (suffices_empty_of_mem hv)

/-- What is kept of a tag says what the tag says. -/
theorem ofTag_exact (tag : String) :
    (∀ major minor extensions, (∃ r ∈ (ofTag tag).alternatives, r.MetBy major minor extensions) ↔
      Suffices tag major minor extensions) ∧
    (∀ v, (ofTag tag).coreVersion? = some v ↔ v.patch = 0 ∧ Suffices tag v.major v.minor ∅ ∧
      ∀ major minor, Suffices tag major minor ∅ → v.Within major minor) ∧
    ((ofTag tag).coreVersion? = none ↔ ∀ major minor, ¬ Suffices tag major minor ∅) ∧
    ∀ e, (ofTag tag).mentions e = true ↔ ∃ text t, IsAlternative text tag.toList ∧
      IsTerm t text ∧ Version.ofTerm? t = none ∧ String.ofList t = e :=
  ⟨fun _ _ _ => exists_metBy_iff, fun _ => coreVersion?_eq_some_iff, coreVersion?_eq_none_iff,
    fun _ => mentions_iff⟩

/-- Of versions joined by `with` all must be reached, of alternatives one is enough. -/
example : (ofTag "VK_VERSION_1_2 with VK_VERSION_1_1, VK_VERSION_1_3").coreVersion? =
    some ⟨1, 2, 0⟩ := by
  decide +kernel

end Availability

end ConstantCatalog
