import ConstantCatalog.Text.Lines
import ConstantCatalog.Proofs.Text.Split

/-! # Lines of composed texts

A text is its last line with any number of ended lines before it, and every ended line is found as
it was written but for a carriage return at its end. The lines written into a text are therefore the
lines found in it, as long as none holds a line feed or ends in a carriage return. -/

namespace ConstantCatalog.Text
set_option autoImplicit false

structure IsLine (l : List Char) : Prop where
  noFeed : '\n' ∉ l
  noReturn : l.getLast? ≠ some '\r'

/-- The line without the carriage return that is part of its ending. -/
def dropReturn (l : List Char) : List Char :=
  if l.getLast? = some '\r' then l.dropLast else l

theorem dropReturn_cons_cons (c d : Char) (l : List Char) :
    dropReturn (c :: d :: l) = c :: dropReturn (d :: l) := by
  rw [dropReturn, dropReturn, List.getLast?_cons_cons]
  split <;> rfl

theorem trim_dropReturn (l : List Char) : trim (dropReturn l) = trim l := by
  rw [dropReturn]
  split
  · rename_i hlast
    obtain ⟨s, rfl⟩ := List.getLast?_eq_some_iff.mp hlast
    rw [List.dropLast_concat, trim_append_of_all (List.forall_mem_singleton.mpr rfl)]
  · rfl

/-- A text is put together from the end, one ended line after the other. -/
@[elab_as_elim]
theorem feed_induction {P : List Char → Prop} (last : ∀ l, '\n' ∉ l → P l)
    (feed : ∀ l s, '\n' ∉ l → P s → P (l ++ '\n' :: s)) (s : List Char) : P s :=
  separator_induction '\n' last feed s

theorem lines_cons_of_not_ending {c : Char} {s : List Char} (hfeed : c ≠ '\n')
    (hreturn : c = '\r' → s.head? ≠ some '\n') {l : List Char} {ls : List (List Char)}
    (h : lines s = l :: ls) : lines (c :: s) = (c :: l) :: ls := by
  have hpair : ∀ t, c = '\r' → s = '\n' :: t → False := by
    rintro t hc rfl
    exact hreturn hc rfl
  rw [lines.eq_4 c s hfeed hpair, h]

theorem lines_feed {l : List Char} (h : '\n' ∉ l) (s : List Char) :
    lines (l ++ '\n' :: s) = dropReturn l :: lines s := by
  induction l with
  | nil => rfl
  | cons c l ih =>
    obtain ⟨hc, hl⟩ : '\n' ≠ c ∧ '\n' ∉ l := by simpa using h
    cases l with
    | nil =>
      by_cases hreturn : c = '\r'
      · rw [hreturn]
        rfl
      · have hkeep : dropReturn [c] = [c] := by simp [dropReturn, hreturn]
        rw [hkeep]
        exact lines_cons_of_not_ending (Ne.symm hc) (fun heq => absurd heq hreturn) rfl
    | cons d l =>
      have hd : '\n' ≠ d := fun heq => hl (heq ▸ List.mem_cons_self)
      rw [dropReturn_cons_cons]
      exact lines_cons_of_not_ending (Ne.symm hc) (fun _ => by simpa using Ne.symm hd) (ih hl)

theorem lines_of_notMem {l : List Char} (h : '\n' ∉ l) (hne : l ≠ []) : lines l = [l] := by
  induction l with
  | nil => exact absurd rfl hne
  | cons c l ih =>
    obtain ⟨hc, hl⟩ : '\n' ≠ c ∧ '\n' ∉ l := by simpa using h
    cases l with
    | nil => rw [lines.eq_4 c [] (Ne.symm hc) nofun, lines]
    | cons d l =>
      have hd : '\n' ≠ d := fun heq => hl (heq ▸ List.mem_cons_self)
      exact lines_cons_of_not_ending (Ne.symm hc) (fun _ => by simpa using Ne.symm hd)
        (ih hl (List.cons_ne_nil d l))

theorem lines_append_feed {l : List Char} (h : IsLine l) (s : List Char) :
    lines (l ++ '\n' :: s) = l :: lines s := by
  rw [lines_feed h.noFeed, dropReturn, if_neg h.noReturn]

theorem lines_unlines {ls : List (List Char)} (h : ∀ l ∈ ls, IsLine l) :
    lines (unlines ls) = ls := by
  induction ls with
  | nil => rfl
  | cons l ls ih =>
    have hsplit : unlines (l :: ls) = l ++ '\n' :: unlines ls := by simp [unlines]
    rw [hsplit, lines_append_feed (h l List.mem_cons_self),
      ih fun m hm => h m (List.mem_cons_of_mem l hm)]

theorem dropReturn_concat_return (l : List Char) : dropReturn (l ++ ['\r']) = l := by
  simp [dropReturn]

theorem dropReturn_sublist (l : List Char) : (dropReturn l).Sublist l := by
  rw [dropReturn]
  split
  · exact List.dropLast_sublist l
  · exact List.Sublist.refl l

/-- Whatever holds no line feed can be the lines of a text. -/
theorem exists_lines_eq {ls : List (List Char)} (h : ∀ l ∈ ls, '\n' ∉ l) : ∃ s, lines s = ls := by
  induction ls with
  | nil => exact ⟨[], rfl⟩
  | cons l ls ih =>
    obtain ⟨hl, hls⟩ := List.forall_mem_cons.mp h
    obtain ⟨s, rfl⟩ := ih hls
    -- The return belongs to the ending, so that one at the end of `l` is kept.
    refine ⟨l ++ ['\r'] ++ '\n' :: s, ?_⟩
    rw [lines_feed (by simpa using hl), dropReturn_concat_return]

theorem notMem_of_mem_lines {s : List Char} : ∀ l ∈ lines s, '\n' ∉ l := by
  induction s using feed_induction with
  | last l hl =>
    cases l with
    | nil => exact List.forall_mem_nil _
    | cons c l =>
      rw [lines_of_notMem hl (List.cons_ne_nil c l)]
      exact List.forall_mem_singleton.mpr hl
  | feed l s hl ih =>
    rw [lines_feed hl]
    exact List.forall_mem_cons.mpr ⟨fun hmem => hl ((dropReturn_sublist l).subset hmem), ih⟩

/-! ## Two texts, one behind the other -/

/-- A line feed between two texts keeps their lines apart. -/
theorem lines_join (a b : List Char) : lines (a ++ '\n' :: b) = lines (a ++ ['\n']) ++ lines b := by
  induction a using feed_induction with
  | last l hl =>
    rw [lines_feed hl, lines_feed hl]
    rfl
  | feed l s hl ih =>
    simp only [List.append_assoc, List.cons_append, lines_feed hl, ih]

theorem length_lines_feed (a : List Char) : (lines (a ++ ['\n'])).length = a.count '\n' + 1 := by
  induction a using feed_induction with
  | last l hl =>
    rw [lines_feed hl, List.count_eq_zero.mpr hl]
    rfl
  | feed l s hl ih =>
    rw [List.append_assoc, List.cons_append, lines_feed hl, List.length_cons, ih,
      List.count_append, List.count_eq_zero.mpr hl, List.count_cons_self, Nat.zero_add]

end ConstantCatalog.Text
