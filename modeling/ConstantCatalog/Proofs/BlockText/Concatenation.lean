import ConstantCatalog.Proofs.Text.Lines
import ConstantCatalog.Proofs.BlockText.Numbering
import ConstantCatalog.Proofs.BlockText.Outline

/-! # Texts one behind the other

The reader comes out of a text that it accepts between two blocks, and all that it can take into
the next text is a tag that no block of the first one used. A text that reads on its own has a tag
of its own before each block, so that the blocks of both texts follow one another. A text that does
not read on its own may be saved by the tag left over; without one its complaint stays the same, but
for the lines that now stand before it. -/

namespace ConstantCatalog.BlockText
set_option autoImplicit false
open Text

/-- Behind every tag there is a closing line. -/
def LeavesNoTag (ss : List (List Char)) : Prop :=
  ∀ before s after, ss = before ++ s :: after → IsTag s → ∃ t ∈ after, ['}'] <+: t

/-- No tag is left over by a text that ends with a closing line. -/
theorem leavesNoTag_concat {t : List Char} (h : ['}'] <+: t) (ss : List (List Char)) :
    LeavesNoTag (ss ++ [t]) := by
  intro before s after hsplit htag
  rcases List.eq_nil_or_concat after with rfl | ⟨rest, t', rfl⟩
  · obtain ⟨-, hs⟩ := List.append_inj' hsplit rfl
    obtain ⟨body, rfl, -⟩ := htag
    cases hs
    exact absurd h (IsComment.not_closing ⟨body, rfl⟩)
  · rw [List.concat_eq_append, ← List.cons_append, ← List.append_assoc] at hsplit
    obtain ⟨-, ht⟩ := List.append_inj' hsplit rfl
    cases ht
    exact ⟨t, by simp, h⟩

variable {number : Nat} {blocks : List Block}

/-! ## The tag left over -/

namespace Mode
variable {m next last : Mode} {ss : List (List Char)}

/-- A tag that the reader holds behind a line was there before or is that line. -/
theorem not_closing_of_step {s : List Char} {a : Availability} {completed : Option Block}
    (hstep : m.step number (.ofTrimmed s) = .ok (completed, outside (some a))) :
    ¬ ['}'] <+: s ∧ (m = outside (some a) ∨ IsTag s) := by
  by_cases hne : s = []
  · subst hne
    cases hstep
    exact ⟨by decide, Or.inl rfl⟩
  · by_cases hcomment : IsComment s
    · refine ⟨hcomment.not_closing, ?_⟩
      cases m with
      | inside b openedAt pending d =>
        rw [inside_step_comment hcomment] at hstep
        cases hstep
      | outside pending =>
        rw [outside_step_comment hcomment] at hstep
        cases htag : tagOf? s with
        | some a' => exact Or.inr (isSome_tagOf?_iff.mp (htag ▸ rfl))
        | none =>
          rw [htag, Option.none_or] at hstep
          cases hstep
          exact Or.inl rfl
    · -- Every other line uses up what is pending or closes the block.
      cases isClear_of_step hne hcomment hstep

/-- A tag that the reader holds at the end was there before or stands behind the last closing
line. -/
theorem Runs.exists_tag {a : Availability} (h : m.Runs ss blocks last)
    (hlast : last = outside (some a)) :
    (m = outside (some a) ∧ ∀ t ∈ ss, ¬ ['}'] <+: t) ∨
      ∃ before s after, ss = before ++ s :: after ∧ IsTag s ∧ ∀ t ∈ after, ¬ ['}'] <+: t := by
  induction h with
  | nil m => exact Or.inl ⟨hlast, by simp⟩
  | @cons m next last number s ss completed blocks hstep _ ih =>
    rcases ih hlast with ⟨rfl, hss⟩ | ⟨before, t, after, rfl, htag, hafter⟩
    · obtain ⟨hs, rfl | htag⟩ := not_closing_of_step hstep
      · exact Or.inl ⟨rfl, List.forall_mem_cons.mpr ⟨hs, hss⟩⟩
      · exact Or.inr ⟨[], s, ss, rfl, htag, hss⟩
    · exact Or.inr ⟨s :: before, t, after, rfl, htag, hafter⟩

theorem pending_eq_none {texts : List (List Char)} {pending : Option Availability}
    (h : start.after number texts = .ok (blocks, outside pending))
    (hss : LeavesNoTag (sentences texts)) : pending = none := by
  cases pending with
  | none => rfl
  | some a =>
    rcases (runs_of_after h).exists_tag rfl with ⟨hstart, -⟩ |
      ⟨before, s, after, hsplit, htag, hafter⟩
    · cases hstart
    · obtain ⟨t, ht, hclosing⟩ := hss before s after hsplit htag
      exact absurd hclosing (hafter t ht)

/-- With a tag left over the reader goes past every line that it goes past without one. -/
theorem outside_step_of_start {line : Line} {completed : Option Block}
    (h : start.step number line = .ok (completed, next)) (pending : Option Availability) :
    (outside pending).step number line = .ok (completed, next) ∨
      completed = none ∧ next = start ∧
        (outside pending).step number line = .ok (none, outside pending) := by
  cases line with
  | tag a => exact Or.inl h
  | blank =>
    cases h
    exact Or.inr ⟨rfl, rfl, rfl⟩
  | remark =>
    cases h
    exact Or.inr ⟨rfl, rfl, rfl⟩
  | note d =>
    cases h
    exact Or.inr ⟨rfl, rfl, rfl⟩
  | opening name =>
    obtain ⟨next, hopening, -⟩ := Outcome.map_eq_ok.mp h
    obtain ⟨-, a, hpending, -⟩ := outside_opening_eq_ok_iff.mp hopening
    cases hpending
  | closing name => cases h
  | declaration text => cases h

end Mode

theorem readFrom_outside_of_start {texts : List (List Char)}
    (h : readFrom .start number texts = .ok blocks) (pending : Option Availability) :
    readFrom (.outside pending) number texts = .ok blocks := by
  induction texts generalizing number blocks with
  | nil => exact h
  | cons text texts ih =>
    rw [readFrom] at h ⊢
    cases hstep : Mode.start.step number (.ofText text) with
    | error malformation =>
      rw [hstep] at h
      cases h
    | ok result =>
      obtain ⟨completed, next⟩ := result
      rw [hstep] at h
      -- The tag left over goes with the first tag of this text, before any block needs one.
      rcases Mode.outside_step_of_start hstep pending with hsame | ⟨rfl, rfl, hkept⟩
      · rw [hsame]
        exact h
      · rw [hkept]
        obtain ⟨tail, htail, hblocks⟩ := Outcome.map_eq_ok.mp h
        exact Outcome.map_eq_ok.mpr ⟨tail, ih htail, hblocks⟩

/-! ## Two texts -/

/-- To end the last line of a text changes nothing for the reader. -/
theorem Mode.after_lines_feed (m : Mode) (number : Nat) (a : List Char) :
    m.after number (lines (a ++ ['\n'])) = m.after number (lines a) := by
  have hline : ∀ l, Line.ofText (dropReturn l) = Line.ofText l := by
    intro l
    rw [Line.ofText, trim_dropReturn, Line.ofText]
  induction a using feed_induction generalizing m number with
  | last l hl =>
    rw [lines_feed hl]
    cases l with
    | nil => rfl
    | cons c l =>
      rw [lines_of_notMem hl (List.cons_ne_nil c l), lines]
      simp only [after, hline]
  | feed l s hl ih =>
    rw [List.append_assoc, List.cons_append, lines_feed hl, lines_feed hl]
    simp only [after, hline, ih]

theorem blocksOf_join {a : List Char} {pending : Option Availability}
    (ha : Mode.start.after 1 (lines a) = .ok (blocks, .outside pending)) (b : List Char) :
    blocksOf (a ++ '\n' :: b) =
      (readFrom (.outside pending) (1 + (a.count '\n' + 1)) (lines b)).map (blocks ++ ·) := by
  rw [blocksOf, lines_join, readFrom_append ((Mode.after_lines_feed _ _ a).trans ha),
    length_lines_feed]

/-- A text may begin at a later line. -/
theorem readFrom_start_add (k : Nat) (texts : List (List Char)) :
    readFrom .start (1 + k) texts = (readFrom .start 1 texts).mapError (·.renumber (· + k)) :=
  readFrom_renumber (· + k) .start 1 texts fun n _ => Nat.add_right_comm n 1 k

section Join
variable {a b : List Char} {xs ys : List Block} (ha : blocksOf a = .ok xs)
include ha

theorem blocksOf_join_of_ok (hb : blocksOf b = .ok ys) :
    blocksOf (a ++ '\n' :: b) = .ok (xs ++ ys) := by
  obtain ⟨pending, hafter⟩ := readFrom_eq_ok_iff.mp ha
  have hlater : readFrom .start (1 + (a.count '\n' + 1)) (lines b) = .ok ys := by
    rw [readFrom_start_add, Outcome.mapError_eq_ok]
    exact hb
  rw [blocksOf_join hafter, readFrom_outside_of_start hlater pending]
  rfl

theorem blocksOf_join_of_leavesNoTag (htag : LeavesNoTag (sentences (lines a))) :
    blocksOf (a ++ '\n' :: b) =
      ((blocksOf b).mapError (·.renumber (· + (a.count '\n' + 1)))).map (xs ++ ·) := by
  obtain ⟨pending, hafter⟩ := readFrom_eq_ok_iff.mp ha
  have hstart : Mode.outside pending = .start := by
    rw [Mode.pending_eq_none hafter htag, Mode.start]
  rw [blocksOf_join hafter, hstart, readFrom_start_add, blocksOf]

end Join

/-- Any number of texts that read may stand one behind the other. -/
theorem blocksOf_intercalate {texts : List (List Char)} {parts : List (List Block)}
    (h : List.Forall₂ (fun text blocks => blocksOf text = .ok blocks) texts parts) :
    blocksOf (['\n'].intercalate texts) = .ok parts.flatten := by
  induction h with
  | nil => rfl
  | @cons text blocks texts parts ha htexts ih =>
    cases htexts with
    | nil =>
      rw [List.intercalate_singleton, List.flatten_singleton]
      exact ha
    | cons hb htexts =>
      rw [List.intercalate_cons_of_ne_nil (List.cons_ne_nil _ _), List.append_assoc,
        List.flatten_cons]
      exact blocksOf_join_of_ok ha ih

theorem toList_join (a b : String) : (a ++ "\n" ++ b).toList = a.toList ++ '\n' :: b.toList := by
  simp

/-- The blocks of two texts that read follow one another when the texts stand one behind the other.
If the first text leaves no tag behind its last closing line, the whole has the fault of the second
text, if any, as many lines further down as stand before it. -/
theorem read_join {source a : String} {xs : List Block} (ha : read source a = .ok xs) :
    (∀ b ys, read source b = .ok ys → read source (a ++ "\n" ++ b) = .ok (xs ++ ys)) ∧
    (LeavesNoTag (sentences (lines a.toList)) → ∀ b,
      (∀ f, read source b = .error f → ∃ line malformation,
        f = .malformed source line malformation ∧ read source (a ++ "\n" ++ b) =
          .error (.malformed source (line + (1 + a.toList.count '\n')) malformation)) ∧
      ∀ f, read source (a ++ "\n" ++ b) = .error f → ∃ line malformation,
        read source b = .error (.malformed source line malformation) ∧
          f = .malformed source (line + (1 + a.toList.count '\n')) malformation) := by
  have hblocks := Outcome.mapError_eq_ok.mp ha
  constructor
  · intro b ys hb
    rw [read, toList_join, Outcome.mapError_eq_ok]
    exact blocksOf_join_of_ok hblocks (Outcome.mapError_eq_ok.mp hb)
  · intro htag b
    have hjoin := blocksOf_join_of_leavesNoTag (b := b.toList) hblocks htag
    rw [← toList_join, Nat.add_comm _ 1] at hjoin
    constructor
    · intro f hf
      obtain ⟨c, hc, rfl⟩ := read_eq_error_iff.mp hf
      rw [hc] at hjoin
      exact ⟨c.line, c.malformation, rfl, read_eq_error_iff.mpr ⟨_, hjoin, rfl⟩⟩
    · intro f hf
      obtain ⟨c, hc, rfl⟩ := read_eq_error_iff.mp hf
      rw [hjoin] at hc
      cases hb : blocksOf b.toList with
      | ok ys =>
        rw [hb] at hc
        cases hc
      | error c' =>
        rw [hb] at hc
        cases hc
        exact ⟨c'.line, c'.malformation, read_eq_error_iff.mpr ⟨c', hb, rfl⟩, rfl⟩

/-- A block with a tag behind it. -/
def strayTag : String :=
  ofLines ["// Provided by A".toList, openingLine "E".toList, closingLine "E".toList,
    "// Provided by B".toList]

/-- A block with a tag before its closing line. -/
def spentTag : String :=
  ofLines ["// Provided by A".toList, openingLine "E".toList, "// Provided by B".toList,
    closingLine "E".toList]

def closedBlock : String :=
  ofLines ["// Provided by C".toList, openingLine "F".toList, closingLine "F".toList]

/-- The second text of the latter pair is not closed, and its opening line is the seventh one. -/
theorem read_join_tags :
    read "source" (strayTag ++ "\n" ++ closedBlock) = .ok [⟨"E", ⟨"A"⟩, []⟩, ⟨"F", ⟨"C"⟩, []⟩] ∧
    read "source" (spentTag ++ "\n" ++ "// Provided by C\ntypedef enum F") =
      .error (.malformed "source" 7 (.unclosed "F")) := by
  have hstray : read "source" strayTag = .ok [⟨"E", ⟨"A"⟩, []⟩] := by decide +kernel
  have hspent : read "source" spentTag = .ok [⟨"E", ⟨"A"⟩, []⟩] := by decide +kernel
  have hclosed : read "source" closedBlock = .ok [⟨"F", ⟨"C"⟩, []⟩] := by decide +kernel
  have hopen : read "source" "// Provided by C\ntypedef enum F" =
      .error (.malformed "source" 2 (.unclosed "F")) := by decide +kernel
  have htag : LeavesNoTag (sentences (lines spentTag.toList)) := by
    have hss : sentences (lines spentTag.toList) = ["// Provided by A".toList,
        openingLine "E".toList, "// Provided by B".toList] ++ [closingLine "E".toList] := by
      decide +kernel
    rw [hss]
    exact leavesNoTag_concat (by decide) _
  refine ⟨(read_join hstray).1 _ _ hclosed, ?_⟩
  obtain ⟨line, malformation, hf, hread⟩ := ((read_join hspent).2 htag _).1 _ hopen
  cases hf
  exact hread

end ConstantCatalog.BlockText
