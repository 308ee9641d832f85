import ConstantCatalog.Proofs.BlockText.Numbering
import ConstantCatalog.Proofs.BlockText.FirstFault

/-! # Lines that say nothing

Blank lines and comments that are neither tags nor notes leave the reader where it is, so that they
may be put anywhere into a text or taken out of it; only the number of a line that stands behind
them changes. Nothing changes with the blanks around a line or with the way in which it ends. This
says nothing of tags and notes that have no effect where they stand. -/

namespace ConstantCatalog.BlockText
set_option autoImplicit false
open Text

/-- A blank line, or a comment that is neither a tag nor a note. -/
inductive Silent (text : List Char) : Prop
  | blank (h : ∀ c ∈ text, isBlank c = true)
  | remark {body : List Char} (comment : trim text = "//".toList ++ body)
      (noTag : ¬ "Provided by ".toList <+: trim body)
      (notRenamed : ¬ "is a deprecated alias".toList <:+: trim body)
      (notUnexplained : ¬ "is deprecated".toList <:+: trim body)

inductive IsEnding : List Char → Prop
  | feed : IsEnding ['\n']
  | returnFeed : IsEnding ['\r', '\n']

/-- A text with the given lines, each of which may have more blanks around it and either ending. -/
inductive LaidOut : List (List Char) → List Char → Prop
  | nil : LaidOut [] []
  | cons {text before after ending : List Char} {texts : List (List Char)} {s : List Char}
      (blankBefore : ∀ c ∈ before, isBlank c = true ∧ c ≠ '\n')
      (blankAfter : ∀ c ∈ after, isBlank c = true ∧ c ≠ '\n')
      (ends : IsEnding ending) (rest : LaidOut texts s) :
      LaidOut (text :: texts) (before ++ text ++ after ++ ending ++ s)

/-! ## Silent lines -/

theorem Silent.step {text : List Char} (h : Silent text) (m : Mode) (number : Nat) :
    m.step number (.ofText text) = .ok (none, m) := by
  rw [Line.ofText]
  cases h with
  | blank h =>
    rw [trim_eq_nil_iff.mpr h]
    rfl
  | @remark body comment noTag notRenamed notUnexplained =>
    have hnote : Line.noteIn? (trim body) = none := by
      rw [← occursIn_iff] at notRenamed notUnexplained
      rw [Line.noteIn?, if_neg notRenamed, if_neg notUnexplained]
    rw [comment, Line.ofTrimmed_comment, Line.ofComment, isPrefixOf?_eq_none_iff.mpr noTag]
    simp only [hnote]
    rfl

/-- The number of a line when one more line stands behind the first `k` lines. -/
def pushed (k number : Nat) : Nat :=
  if number ≤ k then number else number + 1

variable {pre post : List (List Char)} {text : List Char}

/-- The opening line that the reader remembers is one of those it has passed. -/
theorem Mode.renumber_pushed {blocks : List Block} {m : Mode}
    (h : start.after 1 pre = .ok (blocks, m)) : m.renumber (pushed pre.length) = m := by
  cases m with
  | outside pending => rfl
  | inside b openedAt pending d =>
    obtain ⟨before, line, after, -, rfl, rfl, -⟩ := exists_opening_of_after h
    have hle : 1 + before.length ≤ (before ++ line :: after).length := by
      rw [List.length_append, List.length_cons]
      omega
    rw [renumber, pushed, if_pos hle]

theorem readFrom_insert (h : Silent text) (pre post : List (List Char)) :
    readFrom .start 1 (pre ++ text :: post) =
      (readFrom .start 1 (pre ++ post)).mapError (·.renumber (pushed pre.length)) := by
  cases hafter : Mode.start.after 1 pre with
  | error c =>
    -- The reader does not even come to the silent line.
    obtain ⟨before, line, after, blocks, m, malformation, rfl, hbefore, hstep, rfl⟩ :=
      Mode.exists_of_after_eq_error hafter
    have hle : 1 + before.length ≤ (before ++ line :: after).length := by
      rw [List.length_append, List.length_cons]
      omega
    rw [List.append_assoc, List.append_assoc, List.cons_append, List.cons_append,
      readFrom_of_step_eq_error hbefore hstep, readFrom_of_step_eq_error hbefore hstep]
    simp only [Except.mapError, Complaint.renumber, pushed, if_pos hle]
  | ok result =>
    obtain ⟨blocks, m⟩ := result
    have hpassed : readFrom m (1 + pre.length) (text :: post) =
        readFrom m (1 + pre.length + 1) post := by
      rw [readFrom, h.step]
      change (readFrom m (1 + pre.length + 1) post).map ([] ++ ·) = _
      cases readFrom m (1 + pre.length + 1) post <;> rfl
    have hlater : ∀ n ≥ 1 + pre.length, pushed pre.length n = n + 1 := by
      intro n hn
      rw [pushed, if_neg (by omega)]
    have hrest : readFrom m (1 + pre.length + 1) post =
        (readFrom m (1 + pre.length) post).mapError (·.renumber (pushed pre.length)) := by
      have hnumber := readFrom_renumber (pushed pre.length) m (1 + pre.length) post
        fun n hn => by rw [hlater n hn, hlater (n + 1) (by omega)]
      rwa [Mode.renumber_pushed hafter, hlater _ (Nat.le_refl _)] at hnumber
    rw [readFrom_append hafter, readFrom_append hafter, hpassed, hrest]
    cases readFrom m (1 + pre.length) post <;> rfl

/-! ## Blanks and endings -/

/-- The reader sees lines without the blanks at their ends. -/
theorem readFrom_congr {texts texts' : List (List Char)} (h : texts.map trim = texts'.map trim)
    (m : Mode) (number : Nat) : readFrom m number texts = readFrom m number texts' := by
  induction texts generalizing m number texts' with
  | nil =>
    obtain rfl : texts' = [] := by simpa using h.symm
    rfl
  | cons text texts ih =>
    obtain ⟨text', texts', rfl, htext, htexts⟩ := List.map_eq_cons_iff.mp h.symm
    rw [readFrom, readFrom, Line.ofText, Line.ofText, htext]
    cases m.step number (.ofTrimmed (trim text)) with
    | error malformation => rfl
    | ok result =>
      obtain ⟨completed, next⟩ := result
      change (readFrom next (number + 1) texts).map _ = (readFrom next (number + 1) texts').map _
      rw [ih htexts.symm]

theorem LaidOut.unlines (texts : List (List Char)) : LaidOut texts (unlines texts) := by
  induction texts with
  | nil => exact .nil
  | cons text texts ih =>
    have hcons : LaidOut (text :: texts) ([] ++ text ++ [] ++ ['\n'] ++ Text.unlines texts) :=
      .cons (List.forall_mem_nil _) (List.forall_mem_nil _) .feed ih
    simpa [Text.unlines] using hcons

theorem lines_ending {line ending : List Char} (hfeed : '\n' ∉ line) (h : IsEnding ending)
    (s : List Char) : (lines (line ++ ending ++ s)).map trim = trim line :: (lines s).map trim := by
  cases h with
  | feed =>
    rw [List.append_assoc, List.singleton_append, lines_feed hfeed, List.map_cons, trim_dropReturn]
  | returnFeed =>
    have hline : line ++ ['\r', '\n'] ++ s = line ++ ['\r'] ++ '\n' :: s := by simp
    rw [hline, lines_feed (by simpa using hfeed), dropReturn_concat_return, List.map_cons]

theorem LaidOut.lines_eq {texts : List (List Char)} {s : List Char} (h : LaidOut texts s)
    (hfeed : ∀ l ∈ texts, '\n' ∉ l) : (lines s).map trim = texts.map trim := by
  induction h with
  | nil => rfl
  | @cons text before after ending texts s blankBefore blankAfter ends _ ih =>
    obtain ⟨htext, htexts⟩ := List.forall_mem_cons.mp hfeed
    have hline : '\n' ∉ before ++ text ++ after := by
      simp only [List.mem_append, not_or]
      exact ⟨⟨fun hc => (blankBefore _ hc).2 rfl, htext⟩, fun hc => (blankAfter _ hc).2 rfl⟩
    rw [lines_ending hline ends, ih htexts, trim_append_of_all fun c hc => (blankAfter c hc).1,
      trim_blanks_append fun c hc => (blankBefore c hc).1, List.map_cons]

/-- A text is read by its lines, however they are laid out. -/
theorem blocksOf_laidOut {texts : List (List Char)} {s : List Char} (h : LaidOut texts s)
    (hfeed : ∀ l ∈ texts, '\n' ∉ l) : blocksOf s = readFrom .start 1 texts :=
  readFrom_congr (h.lines_eq hfeed) .start 1

theorem read_ofLines (source : String) {texts : List (List Char)} (hfeed : ∀ l ∈ texts, '\n' ∉ l) :
    read source (ofLines texts) = (readFrom .start 1 texts).mapError
      fun c => .malformed source c.line c.malformation := by
  rw [read, ofLines, String.toList_ofList, blocksOf_laidOut (.unlines texts) hfeed]

/-- A silent line anywhere in a text leaves its blocks and its fault as they are, but that a fault
behind it is one line further down. Blanks around lines and returns at their ends change nothing. -/
theorem read_layout (source : String) :
    (∀ (pre post : List (List Char)) (text : List Char),
      (∀ l ∈ pre ++ text :: post, '\n' ∉ l) → Silent text →
      (∀ blocks, read source (ofLines (pre ++ text :: post)) = .ok blocks ↔
        read source (ofLines (pre ++ post)) = .ok blocks) ∧
      ∀ f, read source (ofLines (pre ++ text :: post)) = .error f ↔ ∃ line malformation,
        read source (ofLines (pre ++ post)) = .error (.malformed source line malformation) ∧
          f = .malformed source (if line ≤ pre.length then line else line + 1) malformation) ∧
    ∀ (texts : List (List Char)) (s : List Char), (∀ l ∈ texts, '\n' ∉ l) → LaidOut texts s →
      read source (String.ofList s) = read source (ofLines texts) := by
  constructor
  · intro pre post text hfeed hsilent
    have hfeed' : ∀ l ∈ pre ++ post, '\n' ∉ l := by
      intro l hl
      apply hfeed l
      rcases List.mem_append.mp hl with hl | hl
      · exact List.mem_append_left _ hl
      · exact List.mem_append_right _ (List.mem_cons_of_mem _ hl)
    rw [read_ofLines source hfeed, read_ofLines source hfeed', readFrom_insert hsilent]
    cases readFrom .start 1 (pre ++ post) with
    | ok blocks => exact ⟨fun _ => Iff.rfl, fun f => iff_of_false nofun nofun⟩
    | error c =>
      refine ⟨fun _ => iff_of_false nofun nofun, fun f => ⟨?_, ?_⟩⟩
      · intro hf
        cases hf
        exact ⟨c.line, c.malformation, rfl, rfl⟩
      · rintro ⟨line, malformation, hf, rfl⟩
        cases hf
        rfl
  · intro texts s hfeed hlaid
    rw [read_ofLines source hfeed, read, String.toList_ofList, blocksOf_laidOut hlaid hfeed]

def doubledEquals : List (List Char) :=
  [openingLine "E".toList, "X == 1,".toList, closingLine "E".toList]

/-- Three lines, the first two with blanks around them and with the longer ending. -/
def padded : List Char :=
  "\t// Provided by A \r\n\u2003typedef enum E\r\n".toList ++ closingLine "E".toList ++ ['\n']

/-- The comment between the tag and its block would be a tag itself if something followed it. -/
theorem read_layout_bareTag :
    read "source" (ofLines ("// Provided by A".toList :: "//Provided by ".toList :: doubledEquals))
      = .error (.malformed "source" 4 (.badValue "= 1" "X")) ∧
    read "source" (String.ofList padded) =
      read "source" (ofLines ["// Provided by A".toList, "typedef enum E".toList,
        closingLine "E".toList]) := by
  have hcomment : trim "//Provided by ".toList = "//".toList ++ "Provided by".toList := by decide
  have hsilent : Silent "//Provided by ".toList :=
    .remark hcomment (by decide) (by decide) (by decide)
  have hfault : read "source" (ofLines ("// Provided by A".toList :: doubledEquals)) =
      .error (.malformed "source" 3 (.badValue "= 1" "X")) := by decide +kernel
  have hblank : ∀ {c : Char}, isBlank c = true → c ≠ '\n' →
      ∀ d ∈ [c], isBlank d = true ∧ d ≠ '\n' :=
    fun hc hfeed => List.forall_mem_singleton.mpr ⟨hc, hfeed⟩
  have hpadded : padded = ['\t'] ++ "// Provided by A".toList ++ [' '] ++ ['\r', '\n'] ++
      (['\u2003'] ++ "typedef enum E".toList ++ [] ++ ['\r', '\n'] ++
        ([] ++ closingLine "E".toList ++ [] ++ ['\n'] ++ [])) := by decide +kernel
  have hlaid : LaidOut
      ["// Provided by A".toList, "typedef enum E".toList, closingLine "E".toList] padded := by
    rw [hpadded]
    apply LaidOut.cons (hblank rfl (by decide)) (hblank rfl (by decide)) .returnFeed
    apply LaidOut.cons (hblank rfl (by decide)) (List.forall_mem_nil _) .returnFeed
    exact .cons (List.forall_mem_nil _) (List.forall_mem_nil _) .feed .nil
  obtain ⟨hinsert, hlayout⟩ := read_layout "source"
  constructor
  · obtain ⟨-, hshift⟩ := hinsert ["// Provided by A".toList] doubledEquals _ (by decide) hsilent
    exact (hshift _).mpr ⟨3, _, hfault, rfl⟩
  · exact hlayout _ _ (by decide) hlaid

end ConstantCatalog.BlockText
