import Mathlib.Data.List.Forall2
import ConstantCatalog.Proofs.Availability.Version
import ConstantCatalog.Proofs.Text.Split

/-! # Alternatives that are read back

A tag that is put together from alternatives is read as these alternatives, wherever the version
stands in each of them. A word never holds the blank that a separator of terms starts with, so that
even an extension called `with` is told from the separators around it. -/

namespace ConstantCatalog
set_option autoImplicit false
open Text

/-- A text that neither blanks nor commas divide. -/
structure IsWord (t : List Char) : Prop where
  ne_nil : t ≠ []
  unbroken : ∀ c ∈ t, isBlank c = false ∧ c ≠ ','

theorem isWord_iff {t : List Char} :
    IsWord t ↔ t ≠ [] ∧ t.all (fun c => !isBlank c && c != ',') = true := by
  simp only [List.all_eq_true, Bool.and_eq_true, Bool.not_eq_true', bne_iff_ne]
  exact ⟨fun h => ⟨h.ne_nil, h.unbroken⟩, fun h => ⟨h.1, h.2⟩⟩

instance (t : List Char) : Decidable (IsWord t) :=
  decidable_of_iff' _ isWord_iff

theorem IsWord.unpadded {t : List Char} (h : IsWord t) : Unpadded t where
  head := fun c hc => (h.unbroken c (List.mem_of_head? hc)).1
  last := fun c hc => (h.unbroken c (List.mem_of_getLast? hc)).1

theorem Version.isWord_term (v : Version) : IsWord v.term where
  ne_nil := BlockText.ne_nil_of_isIdentifier v.isIdentifier_term
  unbroken := by
    intro c hc
    refine ⟨BlockText.isBlank_of_isIdentifier v.isIdentifier_term hc, ?_⟩
    rintro rfl
    exact BlockText.notMem_of_isIdentifier v.isIdentifier_term rfl hc

/-! ## Alternatives -/

namespace Alternative

/-- The alternative needs something, and the names of its extensions are told from versions. -/
structure Writable (r : Alternative) : Prop where
  demanding : r.version ≠ none ∨ r.extensions ≠ []
  patch : ∀ v ∈ r.version, v.patch = 0
  words : ∀ e ∈ r.extensions, IsWord e.toList
  noVersions : ∀ e ∈ r.extensions, Version.ofTerm? e.toList = none

instance (r : Alternative) : Decidable r.Writable :=
  decidable_of_iff ((r.version ≠ none ∨ r.extensions ≠ []) ∧ (∀ v ∈ r.version, v.patch = 0) ∧
      (∀ e ∈ r.extensions, IsWord e.toList) ∧
      ∀ e ∈ r.extensions, Version.ofTerm? e.toList = none)
    ⟨fun h => ⟨h.1, h.2.1, h.2.2.1, h.2.2.2⟩,
      fun h => ⟨h.demanding, h.patch, h.words, h.noVersions⟩⟩

/-- The terms of an alternative are its extensions, in their order, and its version at any place
among them. -/
inductive HasTerms : Alternative → List (List Char) → Prop
  | plain (es : List String) : HasTerms ⟨none, es⟩ (es.map String.toList)
  | versioned (v : Version) (es es' : List String) :
      HasTerms ⟨some v, es ++ es'⟩ (es.map String.toList ++ v.term :: es'.map String.toList)

def IsWritten (r : Alternative) (text : List Char) : Prop :=
  ∃ ts, HasTerms r ts ∧ " with ".toList.intercalate ts = text

section Names
variable {es : List String} (h : ∀ e ∈ es, Version.ofTerm? e.toList = none)
include h

theorem filterMap_ofTerm?_names : (es.map String.toList).filterMap Version.ofTerm? = [] := by
  rw [List.filterMap_eq_nil_iff, List.forall_mem_map]
  exact h

theorem filter_names : (es.map String.toList).filter (fun t => (Version.ofTerm? t).isNone) =
    es.map String.toList := by
  rw [List.filter_eq_self, List.forall_mem_map]
  intro e he
  rw [h e he]
  rfl

end Names

variable {r : Alternative} {ts : List (List Char)} {text : List Char}

theorem HasTerms.ne_nil (hts : HasTerms r ts) (h : r.Writable) : ts ≠ [] := by
  cases hts with
  | plain es =>
    have hes : es ≠ [] := h.demanding.resolve_left fun hnone => hnone rfl
    exact fun hnil => hes (List.map_eq_nil_iff.mp hnil)
  | versioned v es es' => exact List.append_ne_nil_of_right_ne_nil _ (List.cons_ne_nil _ _)

theorem HasTerms.isWord (hts : HasTerms r ts) (h : r.Writable) : ∀ t ∈ ts, IsWord t := by
  cases hts with
  | plain es => exact List.forall_mem_map.mpr h.words
  | versioned v es es' =>
    obtain ⟨hes, hes'⟩ := List.forall_mem_append.mp h.words
    rw [List.forall_mem_append, List.forall_mem_cons, List.forall_mem_map, List.forall_mem_map]
    exact ⟨hes, v.isWord_term, hes'⟩

theorem HasTerms.ofTerms_eq (hts : HasTerms r ts) (h : r.Writable) : ofTerms ts = r := by
  have hback : ∀ es : List String, (es.map String.toList).map String.ofList = es := by
    intro es
    rw [List.map_map]
    exact List.map_id'' (fun e => String.ofList_toList) es
  cases hts with
  | plain es =>
    rw [ofTerms, filterMap_ofTerm?_names h.noVersions, filter_names h.noVersions, hback]
    rfl
  | versioned v es es' =>
    obtain ⟨hes, hes'⟩ := List.forall_mem_append.mp h.noVersions
    have hv : Version.ofTerm? v.term = some v := Version.ofTerm?_term (h.patch v rfl)
    have hversions : (es.map String.toList ++ v.term :: es'.map String.toList).filterMap
        Version.ofTerm? = [v] := by
      rw [List.filterMap_append, List.filterMap_cons_some hv, filterMap_ofTerm?_names hes,
        filterMap_ofTerm?_names hes', List.nil_append]
    have hextensions : (es.map String.toList ++ v.term :: es'.map String.toList).filter
        (fun t => (Version.ofTerm? t).isNone) = es.map String.toList ++ es'.map String.toList := by
      rw [List.filter_append, List.filter_cons, hv, filter_names hes, filter_names hes']
      rfl
    rw [ofTerms, hversions, hextensions, List.map_append, hback, hback]
    rfl

theorem terms_intercalate (hne : ts ≠ []) (h : ∀ t ∈ ts, IsWord t) :
    terms (" with ".toList.intercalate ts) = ts := by
  have hblank : ∀ t ∈ ts, ' ' ∉ t := by
    intro t ht hmem
    have hfalse := ((h t ht).unbroken ' ' hmem).1
    cases hfalse
  have hpieces : pieces ' ' "with ".toList (" with ".toList.intercalate ts) = ts :=
    pieces_intercalate hne hblank
  rw [terms, hpieces, List.map_congr_left fun t ht => (h t ht).unpadded.trim_eq, List.map_id']

theorem IsWritten.ofTerms_terms (ht : IsWritten r text) (h : r.Writable) :
    ofTerms (terms text) = r := by
  obtain ⟨ts, hts, rfl⟩ := ht
  rw [terms_intercalate (hts.ne_nil h) (hts.isWord h), hts.ofTerms_eq h]

theorem IsWritten.ne_nil (ht : IsWritten r text) (h : r.Writable) : text ≠ [] := by
  obtain ⟨ts, hts, rfl⟩ := ht
  exact intercalate_ne_nil (hts.ne_nil h) fun t hmem => (hts.isWord h t hmem).ne_nil

theorem IsWritten.unpadded (ht : IsWritten r text) (h : r.Writable) : Unpadded text := by
  obtain ⟨ts, hts, rfl⟩ := ht
  apply unpadded_intercalate
  intro t hmem
  have hword := hts.isWord h t hmem
  exact ⟨hword.ne_nil, hword.unpadded⟩

theorem IsWritten.notMem_comma (ht : IsWritten r text) (h : r.Writable) : ',' ∉ text := by
  obtain ⟨ts, hts, rfl⟩ := ht
  apply notMem_intercalate (by decide)
  intro t hmem hcomma
  exact ((hts.isWord h t hmem).unbroken ',' hcomma).2 rfl

end Alternative

/-! ## Tags -/

namespace Availability

/-- A tag in which the alternatives are written one after the other. -/
def IsTagOf (tag : String) (rs : List Alternative) : Prop :=
  ∃ texts, List.Forall₂ Alternative.IsWritten rs texts ∧
    String.ofList (", ".toList.intercalate texts) = tag

variable {rs : List Alternative} {texts : List (List Char)}

/-- What holds of every writable alternative as it is written holds of every text. -/
theorem forall_of_isWritten {P : List Char → Prop} (h : ∀ r ∈ rs, r.Writable)
    (ht : List.Forall₂ Alternative.IsWritten rs texts)
    (hP : ∀ {r text}, Alternative.IsWritten r text → r.Writable → P text) :
    ∀ text ∈ texts, P text := by
  induction ht with
  | nil => exact List.forall_mem_nil P
  | cons hr _ ih =>
    obtain ⟨hwritable, hrest⟩ := List.forall_mem_cons.mp h
    exact List.forall_mem_cons.mpr ⟨hP hr hwritable, ih hrest⟩

theorem map_ofTerms_of_isWritten (h : ∀ r ∈ rs, r.Writable)
    (ht : List.Forall₂ Alternative.IsWritten rs texts) :
    texts.map (fun text => .ofTerms (Alternative.terms text)) = rs := by
  induction ht with
  | nil => rfl
  | cons hr _ ih =>
    obtain ⟨hwritable, hrest⟩ := List.forall_mem_cons.mp h
    rw [List.map_cons, hr.ofTerms_terms hwritable, ih hrest]

section Clean
variable (h : ∀ text ∈ texts, text ≠ [] ∧ ',' ∉ text ∧ Unpadded text)
include h

theorem trim_intercalate :
    trim (", ".toList.intercalate texts) = ", ".toList.intercalate texts := by
  have hends : ∀ text ∈ texts, text ≠ [] ∧ Unpadded text := by
    intro text ht
    obtain ⟨hne, -, hunpadded⟩ := h text ht
    exact ⟨hne, hunpadded⟩
  exact (unpadded_intercalate hends).trim_eq

theorem alternativeTexts_intercalate :
    (ofTag (String.ofList (", ".toList.intercalate texts))).alternativeTexts = texts := by
  rw [alternativeTexts, ofTag, String.toList_ofList, String.toList_ofList, trim_intercalate h]
  by_cases hnil : texts = []
  · rw [hnil]
    rfl
  · have hblank : ∀ d ∈ [' '], isBlank d = true := List.forall_mem_singleton.mpr rfl
    have hpieces : ((", ".toList.intercalate texts).splitOn ',').map trim = texts :=
      map_trim_splitOn_intercalate rfl hblank hnil fun text ht => (h text ht).2
    rw [hpieces, List.filter_eq_self]
    intro text ht
    exact decide_eq_true (h text ht).1

end Clean

/-- A tag gives back the alternatives it was written for, and is kept as it was written. -/
theorem ofTag_written {tag : String} (h : ∀ r ∈ rs, r.Writable) (htag : IsTagOf tag rs) :
    (ofTag tag).alternatives = rs ∧ (ofTag tag).tag = tag ∧ (ofTag tag).text = tag := by
  obtain ⟨texts, ht, rfl⟩ := htag
  have hclean : ∀ text ∈ texts, text ≠ [] ∧ ',' ∉ text ∧ Unpadded text :=
    forall_of_isWritten h ht fun hr hwritable =>
      ⟨hr.ne_nil hwritable, hr.notMem_comma hwritable, hr.unpadded hwritable⟩
  have hkept : (ofTag (String.ofList (", ".toList.intercalate texts))).tag =
      String.ofList (", ".toList.intercalate texts) := by
    rw [ofTag, String.toList_ofList, trim_intercalate hclean]
  refine ⟨?_, hkept, hkept⟩
  rw [alternatives, alternativeTexts_intercalate hclean, map_ofTerms_of_isWritten h ht]

/-- The latest version that can be named, with extensions called `with` beside separators. -/
theorem ofTag_written_with :
    (ofTag "VK_A with VK_VERSION_4294967295_0 with with, with with with").alternatives =
      [⟨some ⟨4294967295, 0, 0⟩, ["VK_A", "with"]⟩, ⟨none, ["with", "with"]⟩] ∧
    (ofTag "VK_A with VK_VERSION_4294967295_0 with with, with with with").tag =
      "VK_A with VK_VERSION_4294967295_0 with with, with with with" ∧
    (ofTag "VK_A with VK_VERSION_4294967295_0 with with, with with with").text =
      "VK_A with VK_VERSION_4294967295_0 with with, with with with" := by
  have hfirst : Alternative.HasTerms ⟨some ⟨4294967295, 0, 0⟩, ["VK_A", "with"]⟩
      ["VK_A".toList, "VK_VERSION_4294967295_0".toList, "with".toList] :=
    .versioned ⟨4294967295, 0, 0⟩ ["VK_A"] ["with"]
  have hsecond : Alternative.HasTerms ⟨none, ["with", "with"]⟩ ["with".toList, "with".toList] :=
    .plain ["with", "with"]
  refine ofTag_written ?_ ⟨_, .cons ⟨_, hfirst, rfl⟩ (.cons ⟨_, hsecond, rfl⟩ .nil), ?_⟩
  · decide +kernel
  · decide +kernel

end Availability

end ConstantCatalog
