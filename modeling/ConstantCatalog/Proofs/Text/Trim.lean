import Mathlib.Data.List.DropRight
import Mathlib.Data.List.Infix
import ConstantCatalog.Text.Blank
import ConstantCatalog.Text.Split

/-! # Ends and separators of a text

What trimming, prefixes, cuts and occurrences come to when they are said of the text as a list of
characters, without the functions that find them. -/

namespace ConstantCatalog.Text
set_option autoImplicit false

structure Unpadded (s : List Char) : Prop where
  head : ∀ c ∈ s.head?, isBlank c = false
  last : ∀ c ∈ s.getLast?, isBlank c = false

section DropEndWhile
variable {p : Char → Bool}

theorem dropEndWhile_eq_rdropWhile (p : Char → Bool) (s : List Char) :
    dropEndWhile p s = s.rdropWhile p := rfl

theorem dropEndWhile_prefix (p : Char → Bool) (s : List Char) : dropEndWhile p s <+: s :=
  List.rdropWhile_prefix p s

theorem dropEndWhile_of_getLast {s : List Char} (h : ∀ c ∈ s.getLast?, p c = false) :
    dropEndWhile p s = s := by
  rw [dropEndWhile_eq_rdropWhile, List.rdropWhile_eq_self_iff]
  intro hs
  simp [h _ (List.getLast?_eq_getLast_of_ne_nil hs)]

theorem getLast?_dropEndWhile (p : Char → Bool) (s : List Char) :
    ∀ c ∈ (dropEndWhile p s).getLast?, p c = false := by
  intro c hc
  have hne : dropEndWhile p s ≠ [] := by
    rintro hnil
    rw [hnil] at hc
    cases hc
  have hlast : ¬ p ((dropEndWhile p s).getLast hne) = true := List.rdropWhile_last_not p s hne
  rw [List.getLast?_eq_getLast_of_ne_nil hne] at hc
  rw [← Option.mem_some.mp hc]
  simpa using hlast

theorem dropEndWhile_append_of_all {s t : List Char} (h : ∀ c ∈ t, p c = true) :
    dropEndWhile p (s ++ t) = dropEndWhile p s := by
  rw [dropEndWhile, List.reverse_append, List.dropWhile_append_of_pos (by simpa using h)]
  rfl

end DropEndWhile

theorem dropWhile_of_head {p : Char → Bool} {s : List Char} (h : ∀ c ∈ s.head?, p c = false) :
    s.dropWhile p = s := by
  cases s with
  | nil => rfl
  | cons c s => simp [h c rfl]

theorem head?_dropWhile (p : Char → Bool) (s : List Char) :
    ∀ c ∈ (s.dropWhile p).head?, p c = false := by
  intro c hc
  have hnot := List.head?_dropWhile_not p s
  rw [Option.mem_def.mp hc] at hnot
  simpa using hnot

theorem unpadded_trim (s : List Char) : Unpadded (trim s) where
  head := by
    intro c hc
    obtain ⟨t, ht⟩ := dropEndWhile_prefix isBlank (s.dropWhile isBlank)
    apply head?_dropWhile isBlank s
    rw [← ht]
    exact List.mem_head?_append_of_mem_head? hc
  last := getLast?_dropEndWhile _ _

theorem Unpadded.append {s t : List Char} (hs : Unpadded s) (hsne : s ≠ []) (ht : Unpadded t)
    (htne : t ≠ []) (mid : List Char) : Unpadded (s ++ mid ++ t) where
  head := by
    intro c hc
    apply hs.head
    rwa [List.append_assoc, List.head?_append_of_ne_nil _ hsne] at hc
  last := by
    intro c hc
    apply ht.last
    rwa [List.getLast?_append_of_ne_nil _ htne] at hc

theorem Unpadded.trim_eq {s : List Char} (h : Unpadded s) : trim s = s := by
  rw [trim, dropWhile_of_head h.head, dropEndWhile_of_getLast h.last]

/-- A text that no blank pads begins with no run of blanks. -/
theorem Unpadded.not_blank_prefix {s t : List Char} (h : Unpadded s) (hne : t ≠ [])
    (ht : ∀ c ∈ t, isBlank c = true) : ¬ t <+: s := by
  rintro ⟨rest, rfl⟩
  obtain ⟨c, t, rfl⟩ := List.exists_cons_of_ne_nil hne
  have hhead := h.head c rfl
  rw [ht c List.mem_cons_self] at hhead
  cases hhead

theorem Unpadded.not_blank_suffix {s t : List Char} (h : Unpadded s) (hne : t ≠ [])
    (ht : ∀ c ∈ t, isBlank c = true) : ¬ t <:+ s := by
  rintro ⟨rest, rfl⟩
  have hlast := h.last (t.getLast hne) (by
    rw [List.getLast?_append_of_ne_nil _ hne, List.getLast?_eq_getLast_of_ne_nil hne]
    rfl)
  rw [ht _ (List.getLast_mem hne)] at hlast
  cases hlast

theorem trim_eq_self_iff {s : List Char} : trim s = s ↔ Unpadded s :=
  ⟨fun h => h ▸ unpadded_trim s, Unpadded.trim_eq⟩

theorem isInfix_trim (s : List Char) : trim s <:+: s := by
  have hend := dropEndWhile_prefix isBlank (s.dropWhile isBlank)
  exact hend.isInfix.trans (List.dropWhile_suffix isBlank).isInfix

theorem trim_append_of_all {t : List Char} (h : ∀ c ∈ t, isBlank c = true) (s : List Char) :
    trim (s ++ t) = trim s := by
  rw [trim, List.dropWhile_append]
  split
  · rename_i hs
    have hnil : s.dropWhile isBlank = [] := by simpa using hs
    rw [trim, hnil, List.dropWhile_eq_nil_iff.mpr h]
  · rw [dropEndWhile_append_of_all h]
    rfl

theorem trim_blanks_append {t : List Char} (h : ∀ c ∈ t, isBlank c = true) (s : List Char) :
    trim (t ++ s) = trim s := by
  rw [trim, List.dropWhile_append_of_pos h]
  rfl

theorem trim_eq_nil_iff {s : List Char} : trim s = [] ↔ ∀ c ∈ s, isBlank c = true := by
  constructor
  · intro h
    rw [trim, dropEndWhile_eq_rdropWhile, List.rdropWhile_eq_nil_iff] at h
    apply List.dropWhile_eq_nil_iff.mp
    -- What is left in front would start with a character that is no blank.
    rw [List.eq_nil_iff_forall_not_mem]
    intro c hc
    obtain ⟨d, t, hd⟩ := List.exists_cons_of_ne_nil (List.ne_nil_of_mem hc)
    have hhead := head?_dropWhile isBlank s d (by rw [hd]; rfl)
    rw [h d (by rw [hd]; exact List.mem_cons_self)] at hhead
    cases hhead
  · intro h
    simpa using trim_append_of_all h []

theorem isPrefixOf?_eq_none_iff {t s : List Char} : t.isPrefixOf? s = none ↔ ¬ t <+: s := by
  rw [← Option.not_isSome_iff_eq_none, List.isSome_isPrefixOf?_eq_isPrefixOf,
    List.isPrefixOf_iff_prefix]

theorem cut?_singleton_cons (c d : Char) (s : List Char) : cut? c [] (d :: s) =
    if c = d then some ([], s) else (cut? c [] s).map fun (left, right) => (d :: left, right) := by
  have hfirst : [c].isPrefixOf? (d :: s) = if c == d then some s else none := rfl
  rw [cut?, hfirst]
  by_cases h : c = d <;> simp [h]

/-- A cut at a single character is at its first occurrence. -/
theorem cut?_eq_some_iff {c : Char} {s left right : List Char} :
    cut? c [] s = some (left, right) ↔ s = left ++ c :: right ∧ c ∉ left := by
  induction s generalizing left with
  | nil => simp [cut?]
  | cons d s ih =>
    rw [cut?_singleton_cons]
    cases left with
    | nil =>
      by_cases h : c = d
      · simp [h]
      · simp [h, Ne.symm h]
    | cons e left =>
      by_cases h : c = d
      · simp only [h, if_true]
        constructor
        · intro hcut
          cases hcut
        · rintro ⟨heq, hnot⟩
          exact absurd ((List.cons.inj heq).1 ▸ List.mem_cons_self) hnot
      · simp only [if_neg h, Option.map_eq_some_iff, Prod.exists, Prod.mk.injEq, List.cons.injEq,
          List.cons_append, List.mem_cons, not_or]
        constructor
        · rintro ⟨l, r, hcut, ⟨rfl, rfl⟩, rfl⟩
          obtain ⟨rfl, hnot⟩ := ih.mp hcut
          exact ⟨⟨rfl, rfl⟩, h, hnot⟩
        · rintro ⟨⟨rfl, rfl⟩, -, hnot⟩
          exact ⟨left, right, ih.mpr ⟨rfl, hnot⟩, ⟨rfl, rfl⟩, rfl⟩

/-- The first occurrence of a character cuts a text in one way. -/
theorem append_cons_inj {c : Char} {left right left' right' : List Char} (h : c ∉ left)
    (h' : c ∉ left') (heq : left ++ c :: right = left' ++ c :: right') :
    left = left' ∧ right = right' := by
  have hcut : cut? c [] (left ++ c :: right) = some (left, right) := cut?_eq_some_iff.mpr ⟨rfl, h⟩
  rw [cut?_eq_some_iff.mpr ⟨heq, h'⟩] at hcut
  cases hcut
  exact ⟨rfl, rfl⟩

theorem occursIn_iff {part s : List Char} : occursIn part s = true ↔ part <:+: s := by
  induction s with
  | nil => simp [occursIn]
  | cons c s ih =>
    rw [occursIn, Bool.or_eq_true, ih, List.isPrefixOf_iff_prefix, List.infix_cons_iff]

end ConstantCatalog.Text
