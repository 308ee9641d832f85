import ConstantCatalog.BlockText.Reader
import ConstantCatalog.Proofs.Outcome

/-! # Reading in stages

Of the lines that the reader has passed, only its mode and the number of the next line matter for
the rest, so that a text may be read in stages. Reading ends well when it ends between two blocks. -/

namespace ConstantCatalog.BlockText
set_option autoImplicit false

namespace Mode

/-- The blocks completed by some lines, the first of which has the given number, and where the
reader is after them. -/
def after (m : Mode) (number : Nat) : List (List Char) → Except Complaint (List Block × Mode)
  | [] => .ok ([], m)
  | line :: rest =>
    match m.step number (.ofText line) with
    | .error malformation => .error ⟨number, malformation⟩
    | .ok (completed, next) =>
      (next.after (number + 1) rest).map fun (blocks, last) => (completed.toList ++ blocks, last)

/-- What a text gives that ends in this mode. -/
def finish : Mode → Except Complaint Unit
  | outside _ => .ok ()
  | inside block openedAt .. => .error ⟨openedAt, .unclosed block.name⟩

variable {m next last : Mode} {number : Nat} {text : List Char} {texts rest : List (List Char)}

theorem after_cons {completed : Option Block}
    (hstep : m.step number (.ofText text) = .ok (completed, next)) :
    m.after number (text :: rest) = (next.after (number + 1) rest).map
      fun (blocks, last) => (completed.toList ++ blocks, last) := by
  rw [after, hstep]

theorem after_cons_eq_ok_iff {blocks : List Block} :
    m.after number (text :: rest) = .ok (blocks, last) ↔ ∃ completed next tail,
      m.step number (.ofText text) = .ok (completed, next) ∧
        next.after (number + 1) rest = .ok (tail, last) ∧ completed.toList ++ tail = blocks := by
  rw [after]
  cases m.step number (.ofText text) with
  | error malformation => simp
  | ok result =>
    obtain ⟨completed, next⟩ := result
    simp [Outcome.map_eq_ok, and_assoc]

theorem after_append {blocks blocks' : List Block} (h : m.after number texts = .ok (blocks, next))
    (h' : next.after (number + texts.length) rest = .ok (blocks', last)) :
    m.after number (texts ++ rest) = .ok (blocks ++ blocks', last) := by
  induction texts generalizing m number blocks with
  | nil =>
    cases h
    exact h'
  | cons text texts ih =>
    obtain ⟨completed, mid, tail, hstep, htail, rfl⟩ := after_cons_eq_ok_iff.mp h
    have hnumber : number + (text :: texts).length = number + 1 + texts.length := by
      rw [List.length_cons]
      omega
    rw [hnumber] at h'
    rw [List.cons_append, List.append_assoc]
    exact after_cons_eq_ok_iff.mpr ⟨completed, mid, _, hstep, ih htail h', rfl⟩

theorem exists_of_after_concat {blocks : List Block}
    (h : m.after number (texts ++ [text]) = .ok (blocks, last)) : ∃ earlier mid completed,
      m.after number texts = .ok (earlier, mid) ∧
      mid.step (number + texts.length) (.ofText text) = .ok (completed, last) ∧
      earlier ++ completed.toList = blocks := by
  induction texts generalizing m number blocks with
  | nil =>
    obtain ⟨completed, next, tail, hstep, htail, rfl⟩ := after_cons_eq_ok_iff.mp h
    cases htail
    exact ⟨[], m, completed, rfl, hstep, by simp⟩
  | cons t texts ih =>
    obtain ⟨completed, next, tail, hstep, htail, rfl⟩ := after_cons_eq_ok_iff.mp h
    obtain ⟨earlier, mid, completed', hearlier, hlast, rfl⟩ := ih htail
    have hnumber : number + (t :: texts).length = number + 1 + texts.length := by
      rw [List.length_cons]
      omega
    refine ⟨completed.toList ++ earlier, mid, completed', ?_, hnumber ▸ hlast, by simp⟩
    exact after_cons_eq_ok_iff.mpr ⟨completed, next, earlier, hstep, hearlier, rfl⟩

/-- A complaint about some lines is about the first of them that the reader does not get past. -/
theorem exists_of_after_eq_error {c : Complaint} (h : m.after number texts = .error c) :
    ∃ earlier text rest blocks mid malformation, texts = earlier ++ text :: rest ∧
      m.after number earlier = .ok (blocks, mid) ∧
      mid.step (number + earlier.length) (.ofText text) = .error malformation ∧
      c = ⟨number + earlier.length, malformation⟩ := by
  induction texts generalizing m number with
  | nil => cases h
  | cons text texts ih =>
    rw [after] at h
    split at h
    · rename_i malformation hstep
      cases h
      exact ⟨[], text, texts, [], m, malformation, rfl, rfl, hstep, rfl⟩
    · rename_i completed next hstep
      obtain ⟨earlier, t, rest, blocks, mid, malformation, rfl, hearlier, hfails, rfl⟩ :=
        ih (Outcome.map_eq_error.mp h)
      have hnumber : number + (text :: earlier).length = number + 1 + earlier.length := by
        rw [List.length_cons]
        omega
      refine ⟨text :: earlier, t, rest, completed.toList ++ blocks, mid, malformation, rfl,
        ?_, ?_, ?_⟩
      · exact after_cons_eq_ok_iff.mpr ⟨completed, next, blocks, hstep, hearlier, rfl⟩
      · rw [hnumber]
        exact hfails
      · rw [hnumber]

end Mode

theorem readFrom_eq (m : Mode) (number : Nat) (texts : List (List Char)) :
    readFrom m number texts = (m.after number texts).bind fun (blocks, last) =>
      last.finish.map fun _ => blocks := by
  induction texts generalizing m number with
  | nil =>
    cases m with
    | outside pending => rfl
    | inside block openedAt pending deprecation => rfl
  | cons text texts ih =>
    rw [readFrom]
    cases hstep : m.step number (.ofText text) with
    | error malformation =>
      simp only [Mode.after, hstep]
      rfl
    | ok result =>
      obtain ⟨completed, next⟩ := result
      rw [Mode.after_cons hstep]
      change (readFrom next (number + 1) texts).map _ = _
      rw [ih]
      cases next.after (number + 1) texts with
      | error c => rfl
      | ok tail =>
        obtain ⟨blocks, last⟩ := tail
        cases last with
        | outside pending => rfl
        | inside block openedAt pending deprecation => rfl

/-- Of the lines before it the rest sees the mode and the number that they lead to. -/
theorem readFrom_append {m next : Mode} {number : Nat} {texts : List (List Char)}
    {blocks : List Block} (h : m.after number texts = .ok (blocks, next))
    (rest : List (List Char)) : readFrom m number (texts ++ rest) =
      (readFrom next (number + texts.length) rest).map (blocks ++ ·) := by
  induction texts generalizing m number blocks with
  | nil =>
    cases h
    rw [List.nil_append, List.length_nil, Nat.add_zero]
    cases readFrom next number rest <;> rfl
  | cons text texts ih =>
    obtain ⟨completed, mid, tail, hstep, htail, rfl⟩ := Mode.after_cons_eq_ok_iff.mp h
    have hnumber : number + (text :: texts).length = number + 1 + texts.length := by
      rw [List.length_cons]
      omega
    rw [List.cons_append, readFrom, hstep, hnumber]
    change (readFrom mid (number + 1) (texts ++ rest)).map _ = _
    rw [ih htail]
    cases readFrom next (number + 1 + texts.length) rest with
    | error c => rfl
    | ok more => simp [Except.map]

/-- Once the reader does not get past a line, what follows that line does not matter. -/
theorem readFrom_of_step_eq_error {m mid : Mode} {number : Nat} {earlier : List (List Char)}
    {text : List Char} {blocks : List Block} {malformation : Malformation}
    (h : m.after number earlier = .ok (blocks, mid))
    (hstep : mid.step (number + earlier.length) (.ofText text) = .error malformation)
    (rest : List (List Char)) : readFrom m number (earlier ++ text :: rest) =
      .error ⟨number + earlier.length, malformation⟩ := by
  rw [readFrom_append h, readFrom, hstep]
  rfl

/-- A text is read as some blocks exactly when its lines complete them and leave none open. -/
theorem readFrom_eq_ok_iff {m : Mode} {number : Nat} {texts : List (List Char)}
    {blocks : List Block} : readFrom m number texts = .ok blocks ↔
      ∃ pending, m.after number texts = .ok (blocks, .outside pending) := by
  rw [readFrom_eq]
  constructor
  · intro h
    cases hafter : m.after number texts with
    | error c =>
      rw [hafter] at h
      cases h
    | ok result =>
      obtain ⟨blocks', last⟩ := result
      rw [hafter] at h
      cases last with
      | outside pending =>
        cases h
        exact ⟨pending, rfl⟩
      | inside block openedAt pending deprecation => cases h
  · rintro ⟨pending, hafter⟩
    rw [hafter]
    rfl

theorem read_eq_ok_iff {source text : String} {blocks : List Block} :
    read source text = .ok blocks ↔
      ∃ pending, Mode.start.after 1 (Text.lines text.toList) = .ok (blocks, .outside pending) := by
  rw [← readFrom_eq_ok_iff, read, Outcome.mapError_eq_ok, blocksOf]

/-- A fault in a text names its source, and the line in that text. -/
theorem read_eq_error_iff {source text : String} {f : Fault} : read source text = .error f ↔
    ∃ c, blocksOf text.toList = .error c ∧ .malformed source c.line c.malformation = f := by
  rw [read, Outcome.mapError_eq_error]

end ConstantCatalog.BlockText
