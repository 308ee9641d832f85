import ConstantCatalog.Proofs.BlockText.Line

/-! # The grammar of block text

Which texts the reader accepts, said of their lines without the reader. The blanks at the ends of a
line never count, and neither do blank lines. How a line starts tells its class, and the four starts
exclude each other. A block needs a tag before its opening line, and its closing line repeats its
name; comments stand anywhere. Braces, commas and semicolons at the end of a line may be left out or
repeated. -/

namespace ConstantCatalog.BlockText
set_option autoImplicit false
open Text

/-- The lines of a text without the blanks at their ends, where blank lines are left out. -/
def sentences (texts : List (List Char)) : List (List Char) :=
  (texts.map trim).filter (· ≠ [])

def IsComment (s : List Char) : Prop :=
  "//".toList <+: s

/-- A comment that tells what provides the next block or member. -/
def IsTag (s : List Char) : Prop :=
  ∃ body, s = "//".toList ++ body ∧ "Provided by ".toList <+: trim body

def Opens (s name : List Char) : Prop :=
  ∃ rest, s = "typedef enum".toList ++ rest ∧
    trim (dropEndWhile (· == '{') (trim rest)) = name ∧ isIdentifier name = true

def Closes (s name : List Char) : Prop :=
  ∃ rest, s = '}' :: rest ∧ trim (dropEndWhile (· == ';') (trim rest)) = name

/-- A line that is neither a comment nor an opening or closing line. -/
structure IsMember (s : List Char) : Prop where
  notComment : ¬ IsComment s
  notOpening : ¬ "typedef enum".toList <+: s
  notClosing : ¬ ['}'] <+: s

structure Declares (s : List Char) : Prop extends IsMember s where
  sides : ∃ left right, trim (dropEndWhile (· == ',') s) = left ++ '=' :: right ∧ '=' ∉ left ∧
    isIdentifier (trim left) = true ∧
    (isIdentifier (trim right) = true ∨ (Literal.read? (trim right)).isSome = true)

/-- Lines that form blocks, with comments before, in and after them. -/
inductive Document : List (List Char) → Prop
  | comments {ss : List (List Char)} (h : ∀ s ∈ ss, IsComment s) : Document ss
  | block {before body after : List (List Char)} {opening closing name : List Char}
      (comments : ∀ s ∈ before, IsComment s) (tagged : ∃ s ∈ before, IsTag s)
      (opens : Opens opening name) (inner : ∀ s ∈ body, IsComment s ∨ Declares s)
      (closes : Closes closing name) (rest : Document after) :
      Document (before ++ opening :: (body ++ closing :: after))

theorem sentences_of_blank {text : List Char} (h : trim text = []) (texts : List (List Char)) :
    sentences (text :: texts) = sentences texts := by
  simp [sentences, h]

theorem sentences_cons {text : List Char} (h : trim text ≠ []) (texts : List (List Char)) :
    sentences (text :: texts) = trim text :: sentences texts := by
  simp [sentences, h]

/-! ## Classes of lines -/

theorem IsComment.not_opening {s : List Char} (h : IsComment s) :
    ¬ "typedef enum".toList <+: s := by
  obtain ⟨body, rfl⟩ := h
  rintro ⟨rest, heq⟩
  simp at heq

theorem IsComment.not_closing {s : List Char} (h : IsComment s) : ¬ ['}'] <+: s := by
  obtain ⟨body, rfl⟩ := h
  rintro ⟨rest, heq⟩
  simp at heq

theorem not_closing_of_opening {s : List Char} (h : "typedef enum".toList <+: s) :
    ¬ ['}'] <+: s := by
  obtain ⟨body, rfl⟩ := h
  rintro ⟨rest, heq⟩
  simp at heq

theorem Opens.opening {s name : List Char} (h : Opens s name) : "typedef enum".toList <+: s := by
  obtain ⟨rest, rfl, -⟩ := h
  exact List.prefix_append _ _

theorem Opens.isIdentifier {s name : List Char} (h : Opens s name) : isIdentifier name = true := by
  obtain ⟨rest, -, -, hname⟩ := h
  exact hname

theorem Closes.closing {s name : List Char} (h : Closes s name) : ['}'] <+: s := by
  obtain ⟨rest, rfl, -⟩ := h
  exact ⟨rest, rfl⟩

theorem opens_iff (rest name : List Char) : Opens ("typedef enum".toList ++ rest) name ↔
    Line.nameBefore '{' rest = name ∧ isIdentifier name = true := by
  constructor
  · rintro ⟨rest', heq, hname⟩
    rwa [← List.append_cancel_left heq] at hname
  · intro hname
    exact ⟨rest, rfl, hname⟩

theorem closes_iff (rest name : List Char) :
    Closes ('}' :: rest) name ↔ Line.nameBefore ';' rest = name := by
  constructor
  · rintro ⟨rest', heq, hname⟩
    rwa [← (List.cons.inj heq).2] at hname
  · intro hname
    exact ⟨rest, rfl, hname⟩

theorem IsMember.ofTrimmed {s : List Char} (h : IsMember s) (hne : s ≠ []) :
    Line.ofTrimmed s = .declaration s :=
  Line.ofTrimmed_declaration hne h.notComment h.notOpening h.notClosing

theorem declares_iff {s : List Char} (h : IsMember s) :
    Declares s ↔ ∃ result, readDeclaration s = .ok result := by
  constructor
  · rintro ⟨-, left, right, hsplit, hnot, hname, hvalue⟩
    rcases hvalue with hvalue | hvalue
    · exact ⟨_, readDeclaration_eq_ok_iff.mpr
        ⟨left, right, hsplit, hnot, hname, rfl, .reference hvalue⟩⟩
    · obtain ⟨v, hv⟩ := Option.isSome_iff_exists.mp hvalue
      exact ⟨_, readDeclaration_eq_ok_iff.mpr ⟨left, right, hsplit, hnot, hname, rfl, .literal hv⟩⟩
  · rintro ⟨⟨name, rightSide⟩, hread⟩
    obtain ⟨left, right, hsplit, hnot, hname, -, hvalue⟩ := readDeclaration_eq_ok_iff.mp hread
    refine ⟨h, left, right, hsplit, hnot, hname, ?_⟩
    rcases hvalue with hvalue | hvalue
    · exact Or.inl hvalue
    · exact Or.inr (by rw [hvalue]; rfl)

/-! ## What the rest of a text has to be -/

/-- The rest of a text inside a block of the given name. -/
def EndsBlock (name : List Char) (ss : List (List Char)) : Prop :=
  ∃ body closing after, ss = body ++ closing :: after ∧ (∀ s ∈ body, IsComment s ∨ Declares s) ∧
    Closes closing name ∧ Document after

/-- The rest of a text between two blocks, where a tag may have been seen. -/
def Awaits (tagged : Prop) (ss : List (List Char)) : Prop :=
  (∀ s ∈ ss, IsComment s) ∨ ∃ before opening name rest, ss = before ++ opening :: rest ∧
    (∀ s ∈ before, IsComment s) ∧ (tagged ∨ ∃ s ∈ before, IsTag s) ∧ Opens opening name ∧
    EndsBlock name rest

theorem document_iff {ss : List (List Char)} : Document ss ↔ Awaits False ss := by
  constructor
  · rintro (h | ⟨hcomments, htagged, hopens, hinner, hcloses, hrest⟩)
    · exact Or.inl h
    · exact Or.inr ⟨_, _, _, _, rfl, hcomments, Or.inr htagged, hopens, _, _, _, rfl, hinner,
        hcloses, hrest⟩
  · rintro (h | ⟨before, opening, name, rest, rfl, hcomments, htagged, hopens, body, closing, after,
      rfl, hinner, hcloses, hafter⟩)
    · exact .comments h
    · exact .block hcomments (htagged.resolve_left id) hopens hinner hcloses hafter

theorem awaits_nil (tagged : Prop) : Awaits tagged [] := by
  apply Or.inl
  simp

theorem not_endsBlock_nil (name : List Char) : ¬ EndsBlock name [] := by
  rintro ⟨body, closing, after, heq, -⟩
  simp at heq

theorem awaits_comment {tagged : Prop} {s : List Char} (h : IsComment s) {ss : List (List Char)} :
    Awaits tagged (s :: ss) ↔ Awaits (tagged ∨ IsTag s) ss := by
  constructor
  · rintro (hall | ⟨before, opening, name, rest, heq, hcomments, htagged, hopens, hrest⟩)
    · exact Or.inl (List.forall_mem_cons.mp hall).2
    · cases before with
      | nil =>
        obtain ⟨rfl, -⟩ := List.cons.inj heq
        exact absurd hopens.opening h.not_opening
      | cons t before =>
        obtain ⟨rfl, rfl⟩ := List.cons.inj heq
        refine Or.inr ⟨before, opening, name, rest, rfl, (List.forall_mem_cons.mp hcomments).2, ?_,
          hopens, hrest⟩
        rwa [List.exists_mem_cons_iff, ← or_assoc] at htagged
  · rintro (hall | ⟨before, opening, name, rest, rfl, hcomments, htagged, hopens, hrest⟩)
    · exact Or.inl (List.forall_mem_cons.mpr ⟨h, hall⟩)
    · refine Or.inr ⟨s :: before, opening, name, rest, rfl, List.forall_mem_cons.mpr ⟨h, hcomments⟩,
        ?_, hopens, hrest⟩
      rwa [List.exists_mem_cons_iff, ← or_assoc]

theorem awaits_cons {tagged : Prop} {s : List Char} (h : ¬ IsComment s) {ss : List (List Char)} :
    Awaits tagged (s :: ss) ↔ tagged ∧ ∃ name, Opens s name ∧ EndsBlock name ss := by
  constructor
  · rintro (hall | ⟨before, opening, name, rest, heq, hcomments, htagged, hopens, hrest⟩)
    · exact absurd (hall s List.mem_cons_self) h
    · cases before with
      | nil =>
        obtain ⟨rfl, rfl⟩ := List.cons.inj heq
        exact ⟨htagged.resolve_right (by simp), name, hopens, hrest⟩
      | cons t before =>
        obtain ⟨rfl, rfl⟩ := List.cons.inj heq
        exact absurd (hcomments s List.mem_cons_self) h
  · rintro ⟨htagged, name, hopens, hrest⟩
    exact Or.inr ⟨[], s, name, ss, rfl, by simp, Or.inl htagged, hopens, hrest⟩

theorem Closes.not_inner {s name : List Char} (h : Closes s name) :
    ¬ (IsComment s ∨ Declares s) := by
  rintro (hcomment | hmember)
  · exact hcomment.not_closing h.closing
  · exact hmember.notClosing h.closing

theorem endsBlock_inner {name s : List Char} (h : IsComment s ∨ Declares s)
    {ss : List (List Char)} : EndsBlock name (s :: ss) ↔ EndsBlock name ss := by
  constructor
  · rintro ⟨body, closing, after, heq, hinner, hcloses, hrest⟩
    cases body with
    | nil =>
      obtain ⟨rfl, -⟩ := List.cons.inj heq
      exact absurd h hcloses.not_inner
    | cons t body =>
      obtain ⟨rfl, rfl⟩ := List.cons.inj heq
      exact ⟨body, closing, after, rfl, (List.forall_mem_cons.mp hinner).2, hcloses, hrest⟩
  · rintro ⟨body, closing, after, rfl, hinner, hcloses, hrest⟩
    exact ⟨s :: body, closing, after, rfl, List.forall_mem_cons.mpr ⟨h, hinner⟩, hcloses, hrest⟩

theorem endsBlock_cons {name s : List Char} (h : ¬ (IsComment s ∨ Declares s))
    {ss : List (List Char)} : EndsBlock name (s :: ss) ↔ Closes s name ∧ Document ss := by
  constructor
  · rintro ⟨body, closing, after, heq, hinner, hcloses, hrest⟩
    cases body with
    | nil =>
      obtain ⟨rfl, rfl⟩ := List.cons.inj heq
      exact ⟨hcloses, hrest⟩
    | cons t body =>
      obtain ⟨rfl, rfl⟩ := List.cons.inj heq
      exact absurd (hinner s List.mem_cons_self) h
  · rintro ⟨hcloses, hrest⟩
    exact ⟨[], s, ss, rfl, by simp, hcloses, hrest⟩

end ConstantCatalog.BlockText
