import ConstantCatalog.Proofs.Text.Trim

/-! # Pieces of a text

What the pieces between separators are, said of the text without the functions that cut it: a cut is
made at the first occurrence of the separator, and what follows is cut again. Texts that were joined
by a separator are its pieces as long as none of them holds the character that the separator starts
with, however the separator may overlap with them otherwise. -/

namespace ConstantCatalog.Text
set_option autoImplicit false

/-- The text is cut where the separator stands for the first time. -/
structure CutsAt (sep s left right : List Char) : Prop where
  eq : s = left ++ sep ++ right
  first : ∀ l r, s = l ++ sep ++ r → left.length ≤ l.length

/-- The pieces of a text between the separators that are found from left to right. -/
inductive SplitsInto (sep : List Char) : List Char → List (List Char) → Prop
  | last {s : List Char} (uncut : ¬ sep <:+: s) : SplitsInto sep s [s]
  | cut {s left right : List Char} {ps : List (List Char)} (cuts : CutsAt sep s left right)
      (rest : SplitsInto sep right ps) : SplitsInto sep s (left :: ps)

/-- The part of a text from one separator, or the beginning, to the next separator, or the end. -/
def StandsBetween (c : Char) (part s : List Char) : Prop :=
  c ∉ part ∧ ∃ before after, s = before ++ part ++ after ∧
    (before = [] ∨ before.getLast? = some c) ∧ (after = [] ∨ after.head? = some c)

section Cut
variable {first : Char} {more s left right : List Char}

theorem cut?_eq_none_iff : cut? first more s = none ↔ ¬ (first :: more) <:+: s := by
  induction s with
  | nil => simp [cut?]
  | cons c s ih =>
    rw [cut?, List.infix_cons_iff, not_or, ← ih, ← isPrefixOf?_eq_none_iff]
    cases (first :: more).isPrefixOf? (c :: s) with
    | none => simp
    | some rest => simp

theorem cutsAt_of_eq_append {rest : List Char} (h : s = first :: more ++ rest) :
    CutsAt (first :: more) s left right ↔ left = [] ∧ right = rest := by
  constructor
  · intro hcuts
    have hle := hcuts.first [] rest h
    obtain rfl : left = [] := List.eq_nil_of_length_eq_zero (by simpa using hle)
    exact ⟨rfl, List.append_cancel_left (hcuts.eq.symm.trans h)⟩
  · rintro ⟨rfl, rfl⟩
    exact ⟨h, fun l r _ => Nat.zero_le _⟩

/-- Where no separator starts, the first one is the first one behind. -/
theorem cutsAt_cons_iff {c : Char} (h : ¬ (first :: more) <+: c :: s) :
    CutsAt (first :: more) (c :: s) left right ↔
      ∃ l, left = c :: l ∧ CutsAt (first :: more) s l right := by
  constructor
  · intro hcuts
    cases left with
    | nil => exact absurd ⟨right, hcuts.eq.symm⟩ h
    | cons d left =>
      obtain ⟨rfl, hs⟩ := List.cons.inj hcuts.eq
      refine ⟨left, rfl, hs, ?_⟩
      intro l r hlr
      have hle := hcuts.first (c :: l) r (congrArg (c :: ·) hlr)
      exact Nat.le_of_succ_le_succ hle
  · rintro ⟨left, rfl, hs, hfirst⟩
    refine ⟨congrArg (c :: ·) hs, ?_⟩
    intro l r hlr
    cases l with
    | nil => exact absurd ⟨r, hlr.symm⟩ h
    | cons d l => exact Nat.succ_le_succ (hfirst l r (List.cons.inj hlr).2)

theorem cut?_eq_some_iff_cutsAt :
    cut? first more s = some (left, right) ↔ CutsAt (first :: more) s left right := by
  induction s generalizing left right with
  | nil =>
    refine iff_of_false nofun ?_
    intro hcuts
    simpa using hcuts.eq
  | cons c s ih =>
    rw [cut?]
    cases hprefix : (first :: more).isPrefixOf? (c :: s) with
    | some rest =>
      have hs := (List.isPrefixOf?_eq_some_iff_append_eq.mp hprefix).symm
      rw [cutsAt_of_eq_append hs]
      simp [eq_comm]
    | none =>
      rw [cutsAt_cons_iff (isPrefixOf?_eq_none_iff.mp hprefix)]
      simp only [Option.map_eq_some_iff, Prod.exists, Prod.mk.injEq, ih]
      constructor
      · rintro ⟨l, r, hcuts, rfl, rfl⟩
        exact ⟨l, rfl, hcuts⟩
      · rintro ⟨l, rfl, hcuts⟩
        exact ⟨l, right, hcuts, rfl, rfl⟩

theorem pieces_of_cut?_eq_none (h : cut? first more s = none) : pieces first more s = [s] := by
  rw [pieces]
  split
  · rfl
  · rename_i heq
    rw [h] at heq
    cases heq

theorem pieces_of_cut?_eq_some (h : cut? first more s = some (left, right)) :
    pieces first more s = left :: pieces first more right := by
  rw [pieces]
  split
  · rename_i heq
    rw [h] at heq
    cases heq
  · rename_i heq
    rw [h] at heq
    cases heq
    rfl

theorem splitsInto_pieces (first : Char) (more s : List Char) :
    SplitsInto (first :: more) s (pieces first more s) := by
  fun_induction pieces first more s with
  | case1 s hcut => exact .last (cut?_eq_none_iff.mp hcut)
  | case2 s left right hcut ih => exact .cut (cut?_eq_some_iff_cutsAt.mp hcut) ih

theorem pieces_eq_iff {ps : List (List Char)} :
    pieces first more s = ps ↔ SplitsInto (first :: more) s ps := by
  constructor
  · rintro rfl
    exact splitsInto_pieces first more s
  · intro h
    induction h with
    | last uncut => exact pieces_of_cut?_eq_none (cut?_eq_none_iff.mpr uncut)
    | cut cuts _ ih => rw [pieces_of_cut?_eq_some (cut?_eq_some_iff_cutsAt.mpr cuts), ih]

/-! ## Neighbours -/

theorem SplitsInto.ne_nil {sep : List Char} {ps : List (List Char)} (h : SplitsInto sep s ps) :
    ps ≠ [] := by
  cases h with
  | last _ => exact List.cons_ne_nil _ _
  | cut _ _ => exact List.cons_ne_nil _ _

/-- Every piece but the first follows a separator, and every piece but the last is followed by
one. -/
theorem SplitsInto.exists_sides {sep p : List Char} {before after : List (List Char)}
    (h : SplitsInto sep s (before ++ p :: after)) : ∃ x y, s = x ++ p ++ y ∧
      (before = [] ∧ x = [] ∨ before ≠ [] ∧ sep <:+ x) ∧
      (after = [] ∧ y = [] ∨ after ≠ [] ∧ sep <+: y) := by
  induction before generalizing s with
  | nil =>
    rw [List.nil_append] at h
    cases h with
    | last _ => exact ⟨[], [], by simp, .inl ⟨rfl, rfl⟩, .inl ⟨rfl, rfl⟩⟩
    | @cut _ _ right _ cuts rest =>
      refine ⟨[], sep ++ right, ?_, .inl ⟨rfl, rfl⟩, .inr ⟨rest.ne_nil, List.prefix_append _ _⟩⟩
      rw [cuts.eq, List.nil_append, List.append_assoc]
  | cons q before ih =>
    rw [List.cons_append] at h
    generalize hps : before ++ p :: after = ps at h
    cases h with
    | last _ => simp at hps
    | @cut _ _ right _ cuts rest =>
      subst hps
      obtain ⟨x, y, rfl, hx, hy⟩ := ih rest
      refine ⟨q ++ sep ++ x, y, ?_, .inr ⟨List.cons_ne_nil _ _, ?_⟩, hy⟩
      · rw [cuts.eq]
        simp only [List.append_assoc]
      · rcases hx with ⟨-, rfl⟩ | ⟨-, hx⟩
        · rw [List.append_nil]
          exact List.suffix_append _ _
        · exact hx.trans (List.suffix_append _ _)

theorem SplitsInto.isInfix_of_mem {sep p : List Char} {ps : List (List Char)}
    (h : SplitsInto sep s ps) (hp : p ∈ ps) : p <:+: s := by
  obtain ⟨before, after, rfl⟩ := List.append_of_mem hp
  obtain ⟨x, y, rfl, -, -⟩ := h.exists_sides
  exact List.infix_append _ _ _

/-! ## Joined texts -/

theorem cutsAt_of_notMem (h : first ∉ left) (right : List Char) :
    CutsAt (first :: more) (left ++ first :: more ++ right) left right := by
  refine ⟨rfl, ?_⟩
  intro l r heq
  rw [List.append_assoc, List.append_assoc] at heq
  obtain ⟨mid, rfl, -⟩ | ⟨mid, rfl, hmid⟩ := List.append_eq_append_iff.mp heq
  · simp
  · -- A separator that starts within `left` starts with a character of `left`.
    cases mid with
    | nil => simp
    | cons d mid =>
      obtain ⟨rfl, -⟩ := List.cons.inj hmid
      simp at h

/-- Joined texts are cut as they were joined. -/
theorem pieces_intercalate {ts : List (List Char)} (hne : ts ≠ []) (h : ∀ t ∈ ts, first ∉ t) :
    pieces first more ((first :: more).intercalate ts) = ts := by
  rw [pieces_eq_iff]
  induction ts with
  | nil => exact absurd rfl hne
  | cons t ts ih =>
    obtain ⟨ht, hts⟩ := List.forall_mem_cons.mp h
    by_cases hnil : ts = []
    · rw [hnil, List.intercalate_singleton]
      exact .last fun hinside => ht (hinside.subset List.mem_cons_self)
    · rw [List.intercalate_cons_of_ne_nil hnil]
      exact .cut (cutsAt_of_notMem ht _) (ih hnil hts)

end Cut

section Joined
variable {sep : List Char} {ts : List (List Char)}

theorem intercalate_ne_nil (hts : ts ≠ []) (h : ∀ t ∈ ts, t ≠ []) : sep.intercalate ts ≠ [] := by
  obtain ⟨t, ts', rfl⟩ := List.exists_cons_of_ne_nil hts
  have ht := h t List.mem_cons_self
  by_cases hnil : ts' = []
  · rwa [hnil, List.intercalate_singleton]
  · rw [List.intercalate_cons_of_ne_nil hnil, List.append_assoc]
    exact List.append_ne_nil_of_left_ne_nil ht _

theorem notMem_intercalate {c : Char} (hsep : c ∉ sep) (h : ∀ t ∈ ts, c ∉ t) :
    c ∉ sep.intercalate ts := by
  induction ts with
  | nil => exact List.not_mem_nil
  | cons t ts ih =>
    obtain ⟨ht, hts⟩ := List.forall_mem_cons.mp h
    by_cases hnil : ts = []
    · rwa [hnil, List.intercalate_singleton]
    · rw [List.intercalate_cons_of_ne_nil hnil, List.mem_append, List.mem_append, not_or, not_or]
      exact ⟨⟨ht, hsep⟩, ih hts⟩

theorem unpadded_intercalate (h : ∀ t ∈ ts, t ≠ [] ∧ Unpadded t) :
    Unpadded (sep.intercalate ts) := by
  induction ts with
  | nil => exact ⟨nofun, nofun⟩
  | cons t ts ih =>
    obtain ⟨⟨hne, ht⟩, hts⟩ := List.forall_mem_cons.mp h
    by_cases hnil : ts = []
    · rwa [hnil, List.intercalate_singleton]
    · rw [List.intercalate_cons_of_ne_nil hnil]
      exact ht.append hne (ih hts) (intercalate_ne_nil hnil fun t' ht' => (hts t' ht').1) sep

end Joined

/-! ## Separators of one character -/

/-- A text is put together from the end, one piece after the other. -/
@[elab_as_elim]
theorem separator_induction (c : Char) {P : List Char → Prop} (last : ∀ l, c ∉ l → P l)
    (cut : ∀ l s, c ∉ l → P s → P (l ++ c :: s)) (s : List Char) : P s := by
  -- `l` is what the piece already has of itself before `s`.
  have hbegun : ∀ l, c ∉ l → P (l ++ s) := by
    induction s with
    | nil =>
      intro l hl
      rw [List.append_nil]
      exact last l hl
    | cons d s ih =>
      intro l hl
      by_cases hd : d = c
      · rw [hd]
        exact cut l s hl (ih [] List.not_mem_nil)
      · have hlonger := ih (l ++ [d]) (by simp [hl, Ne.symm hd])
        rwa [List.append_assoc] at hlonger
  exact hbegun [] List.not_mem_nil

variable {c : Char}

theorem mem_splitOn_iff {part s : List Char} : part ∈ s.splitOn c ↔ StandsBetween c part s := by
  constructor
  · intro h
    induction s using separator_induction c with
    | last l hl =>
      rw [List.splitOn_eq_singleton hl, List.mem_singleton] at h
      rw [h]
      exact ⟨hl, [], [], by simp, .inl rfl, .inl rfl⟩
    | cut l s hl ih =>
      rw [List.splitOn_append_cons_self_of_not_mem hl] at h
      rcases List.mem_cons.mp h with rfl | h
      · exact ⟨hl, [], c :: s, rfl, .inl rfl, .inr rfl⟩
      · obtain ⟨hpart, before, after, rfl, hbefore, hafter⟩ := ih h
        refine ⟨hpart, l ++ c :: before, after, by simp, .inr ?_, hafter⟩
        rcases hbefore with rfl | hbefore
        · simp
        · rw [List.getLast?_append, List.getLast?_cons, hbefore]
          rfl
  · rintro ⟨hpart, before, after, rfl, hbefore, hafter⟩
    have hbegins : part ∈ (part ++ after).splitOn c := by
      rcases hafter with rfl | hafter
      · rw [List.append_nil, List.splitOn_eq_singleton hpart]
        exact List.mem_singleton_self part
      · obtain ⟨rest, rfl⟩ := List.head?_eq_some_iff.mp hafter
        rw [List.splitOn_append_cons_self_of_not_mem hpart]
        exact List.mem_cons_self
    rcases hbefore with rfl | hbefore
    · exact hbegins
    · obtain ⟨earlier, rfl⟩ := List.getLast?_eq_some_iff.mp hbefore
      rw [List.append_assoc, List.append_assoc, List.singleton_append,
        List.splitOn_append_cons_self]
      exact List.mem_append_right _ hbegins

/-! ## Blanks around a text -/

section Blanks
variable {t : List Char} (hc : isBlank c = false) (ht : ∀ d ∈ t, isBlank d = true)
include hc ht

theorem notMem_blanks : c ∉ t := by
  intro hmem
  rw [ht c hmem] at hc
  cases hc

theorem map_trim_splitOn_append (s : List Char) :
    ((s ++ t).splitOn c).map trim = (s.splitOn c).map trim := by
  have hnot := notMem_blanks hc ht
  induction s using separator_induction c with
  | last l hl =>
    have hboth : c ∉ l ++ t := by simp [hl, hnot]
    rw [List.splitOn_eq_singleton hl, List.splitOn_eq_singleton hboth, List.map_singleton,
      List.map_singleton, trim_append_of_all ht]
  | cut l s hl ih =>
    rw [List.append_assoc, List.cons_append, List.splitOn_append_cons_self_of_not_mem hl,
      List.splitOn_append_cons_self_of_not_mem hl, List.map_cons, List.map_cons, ih]

theorem map_trim_splitOn_blanks_append (s : List Char) :
    ((t ++ s).splitOn c).map trim = (s.splitOn c).map trim := by
  have hnot := notMem_blanks hc ht
  induction s using separator_induction c with
  | last l hl =>
    have hboth : c ∉ t ++ l := by simp [hl, hnot]
    rw [List.splitOn_eq_singleton hl, List.splitOn_eq_singleton hboth, List.map_singleton,
      List.map_singleton, trim_blanks_append ht]
  | cut l s hl _ =>
    have hboth : c ∉ t ++ l := by simp [hl, hnot]
    rw [← List.append_assoc, List.splitOn_append_cons_self_of_not_mem hl,
      List.splitOn_append_cons_self_of_not_mem hboth, List.map_cons, List.map_cons,
      trim_blanks_append ht]

/-- Blanks that belong to the separator stand in front of every piece but the first. -/
theorem map_trim_splitOn_intercalate {ts : List (List Char)} (hts : ts ≠ [])
    (h : ∀ s ∈ ts, c ∉ s ∧ Unpadded s) :
    (((c :: t).intercalate ts).splitOn c).map trim = ts := by
  induction ts with
  | nil => exact absurd rfl hts
  | cons s ts ih =>
    obtain ⟨⟨hs, hends⟩, hrest⟩ := List.forall_mem_cons.mp h
    by_cases hnil : ts = []
    · rw [hnil, List.intercalate_singleton, List.splitOn_eq_singleton hs, List.map_singleton,
        hends.trim_eq]
    · rw [List.intercalate_cons_of_ne_nil hnil, List.append_assoc, List.cons_append,
        List.splitOn_append_cons_self_of_not_mem hs, List.map_cons, hends.trim_eq,
        map_trim_splitOn_blanks_append hc ht, ih hnil hrest]

end Blanks

theorem exists_eq_append_trim (s : List Char) : ∃ before after, s = before ++ trim s ++ after ∧
    (∀ d ∈ before, isBlank d = true) ∧ ∀ d ∈ after, isBlank d = true := by
  refine ⟨s.takeWhile isBlank, (s.dropWhile isBlank).rtakeWhile isBlank, ?_, ?_, ?_⟩
  · rw [List.append_assoc, trim, dropEndWhile_eq_rdropWhile, List.rdropWhile_append_rtakeWhile,
      List.takeWhile_append_dropWhile]
  · intro d hd
    exact List.mem_takeWhile_imp hd
  · intro d hd
    exact List.mem_rtakeWhile_imp hd

/-- Blanks around a text are blanks around its first and its last piece. -/
theorem map_trim_splitOn_trim (hc : isBlank c = false) (s : List Char) :
    ((trim s).splitOn c).map trim = (s.splitOn c).map trim := by
  obtain ⟨before, after, hs, hbefore, hafter⟩ := exists_eq_append_trim s
  conv_rhs => rw [hs]
  rw [map_trim_splitOn_append hc hafter, map_trim_splitOn_blanks_append hc hbefore]

end ConstantCatalog.Text
