import ConstantCatalog.Proofs.Availability.Meaning

/-! # Names in a tag

Every alternative of a tag names a version or an extension, and one that names versions only counts
for the least version. Names of extensions are trimmed, hold no comma and are no versions, but they
may be empty: blank pieces are dropped between commas and are kept between the separators of terms.
An empty name comes from two separators with nothing but blanks between them and from nothing
else. -/

namespace ConstantCatalog
set_option autoImplicit false
open Text

/-- Somewhere between two separators of terms there are blanks only, or there is nothing. -/
def HasGap (text : List Char) : Prop :=
  ∃ before gap after, SplitsInto " with ".toList text (before ++ gap :: after) ∧
    before ≠ [] ∧ after ≠ [] ∧ ∀ c ∈ gap, isBlank c = true

section Alternative
variable {t text tag : List Char}

theorem IsAlternative.unpadded (h : IsAlternative text tag) : Unpadded text := by
  obtain ⟨-, part, -, rfl⟩ := h
  exact unpadded_trim part

theorem IsAlternative.notMem_comma (h : IsAlternative text tag) : ',' ∉ text := by
  obtain ⟨-, part, hpart, rfl⟩ := h
  exact fun hmem => hpart.1 ((isInfix_trim part).subset hmem)

theorem IsTerm.unpadded (h : IsTerm t text) : Unpadded t := by
  obtain ⟨ps, -, p, -, rfl⟩ := h
  exact unpadded_trim p

theorem IsTerm.isInfix (h : IsTerm t text) : t <:+: text := by
  obtain ⟨ps, hps, p, hp, rfl⟩ := h
  exact (isInfix_trim p).trans (hps.isInfix_of_mem hp)

theorem IsAlternative.isTerm_nil_iff (h : IsAlternative text tag) :
    IsTerm [] text ↔ HasGap text := by
  have hends := h.unpadded
  constructor
  · rintro ⟨ps, hps, p, hp, htrim⟩
    have hblank := trim_eq_nil_iff.mp htrim
    obtain ⟨before, after, rfl⟩ := List.append_of_mem hp
    obtain ⟨x, y, htext, hx, hy⟩ := hps.exists_sides
    -- A separator begins and ends with a blank, so that with a blank piece it would pad the text.
    have hbefore : before ≠ [] := by
      intro hnil
      obtain ⟨-, rfl⟩ := hx.resolve_right fun hne => hne.1 hnil
      rcases hy with ⟨-, rfl⟩ | ⟨-, rest, rfl⟩
      · have hp : p = text := by simpa using htext.symm
        exact hends.not_blank_prefix h.1 (hp ▸ hblank) (List.prefix_refl text)
      · refine hends.not_blank_prefix (t := p ++ [' ']) (by simp) ?_
          ⟨"with ".toList ++ rest, by rw [htext]; simp⟩
        rw [List.forall_mem_append]
        exact ⟨hblank, List.forall_mem_singleton.mpr rfl⟩
    have hafter : after ≠ [] := by
      intro hnil
      obtain ⟨-, rfl⟩ := hy.resolve_right fun hne => hne.1 hnil
      obtain ⟨-, rest, rfl⟩ := hx.resolve_left fun hnil => hbefore hnil.1
      refine hends.not_blank_suffix (t := ' ' :: p) (by simp) ?_
        ⟨rest ++ " with".toList, by rw [htext]; simp⟩
      rw [List.forall_mem_cons]
      exact ⟨rfl, hblank⟩
    exact ⟨before, p, after, hps, hbefore, hafter, hblank⟩
  · rintro ⟨before, gap, after, hps, -, -, hblank⟩
    exact ⟨_, hps, gap, by simp, trim_eq_nil_iff.mpr hblank⟩

end Alternative

namespace Alternative
variable {text tag : List Char}

/-- The alternative asks for something, and no name of an extension is mistaken. -/
structure Named (r : Alternative) : Prop where
  demanding : r.version ≠ none ∨ r.extensions ≠ []
  unpadded : ∀ e ∈ r.extensions, Unpadded e.toList
  notMem_comma : ∀ e ∈ r.extensions, ',' ∉ e.toList
  noVersions : ∀ e ∈ r.extensions, Version.ofTerm? e.toList = none

theorem named_ofTerms (h : IsAlternative text tag) : (ofTerms (terms text)).Named where
  demanding := by
    rw [or_iff_not_imp_right, not_not]
    intro hnil
    obtain ⟨v, hv⟩ := exists_version_ofTerms (terms_ne_nil text) hnil
    rw [hv]
    exact Option.some_ne_none v
  unpadded := by
    intro e he
    obtain ⟨t, ht, -, rfl⟩ := mem_extensions_ofTerms.mp he
    rw [String.toList_ofList]
    exact (mem_terms_iff.mp ht).unpadded
  notMem_comma := by
    intro e he
    obtain ⟨t, ht, -, rfl⟩ := mem_extensions_ofTerms.mp he
    rw [String.toList_ofList]
    exact fun hmem => h.notMem_comma ((mem_terms_iff.mp ht).isInfix.subset hmem)
  noVersions := by
    intro e he
    obtain ⟨t, -, hnone, rfl⟩ := mem_extensions_ofTerms.mp he
    rwa [String.toList_ofList]

theorem extensions_ofTerms_eq_nil (h : ∀ t, IsTerm t text → Version.ofTerm? t ≠ none) :
    (ofTerms (terms text)).extensions = [] := by
  rw [List.eq_nil_iff_forall_not_mem]
  intro e he
  obtain ⟨t, ht, hnone, -⟩ := mem_extensions_ofTerms.mp he
  exact h t (mem_terms_iff.mp ht) hnone

end Alternative

namespace Availability
variable {tag : String} {text : List Char}

theorem mentions_empty_iff :
    (ofTag tag).mentions "" = true ↔ ∃ text, IsAlternative text tag.toList ∧ HasGap text := by
  rw [mentions_iff]
  constructor
  · rintro ⟨text, t, htext, ht, -, hempty⟩
    obtain rfl : t = [] := String.ofList_eq_empty_iff.mp hempty
    exact ⟨text, htext, htext.isTerm_nil_iff.mp ht⟩
  · rintro ⟨text, htext, hgap⟩
    exact ⟨text, [], htext, htext.isTerm_nil_iff.mpr hgap, rfl, rfl⟩

/-- An alternative of versions alone is among those of which the least version is taken. -/
theorem exists_coreVersion?_le (htext : IsAlternative text tag.toList)
    (h : ∀ t, IsTerm t text → Version.ofTerm? t ≠ none) : ∃ own least,
      (Alternative.ofTerms (Alternative.terms text)).version = some own ∧
        (ofTag tag).coreVersion? = some least ∧ least ≤ own := by
  have hnil := Alternative.extensions_ofTerms_eq_nil h
  obtain ⟨own, hown⟩ := Alternative.exists_version_ofTerms (Alternative.terms_ne_nil text) hnil
  have hmem : own ∈ (ofTag tag).coreVersions :=
    mem_coreVersions_iff.mpr ⟨_, mem_alternatives_iff.mpr ⟨text, htext, rfl⟩, hnil, hown⟩
  cases hleast : (ofTag tag).coreVersion? with
  | none => exact absurd (suffices_empty_of_mem hmem) (coreVersion?_eq_none_iff.mp hleast _ _)
  | some least =>
    rw [coreVersion?_eq, List.min?_eq_some_iff] at hleast
    exact ⟨own, least, hown, rfl, hleast.2 own hmem⟩

/-- What every alternative of a tag names. A name is empty only where terms are missing between two
separators. -/
theorem alternatives_named (tag : String) :
    (∀ r ∈ (ofTag tag).alternatives, r.Named) ∧
    ((ofTag tag).mentions "" = true ↔ ∃ text, IsAlternative text tag.toList ∧ HasGap text) ∧
    ∀ text, IsAlternative text tag.toList → (∀ t, IsTerm t text → Version.ofTerm? t ≠ none) →
      ∃ own least, (Alternative.ofTerms (Alternative.terms text)).version = some own ∧
        (ofTag tag).coreVersion? = some least ∧ least ≤ own := by
  refine ⟨?_, mentions_empty_iff, fun text => exists_coreVersion?_le⟩
  intro r hr
  obtain ⟨text, htext, rfl⟩ := mem_alternatives_iff.mp hr
  exact Alternative.named_ofTerms htext

/-- A separator that is written twice leaves an extension without a name. -/
theorem repeated_separator_names_nothing :
    (ofTag "VK_A with  with VK_B").alternatives = [⟨none, ["VK_A", "", "VK_B"]⟩] ∧
      (ofTag "VK_A with  with VK_B").mentions "" = true := by
  decide +kernel

end Availability

end ConstantCatalog
