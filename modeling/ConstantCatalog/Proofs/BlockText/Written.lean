import ConstantCatalog.BlockText.Printer
import ConstantCatalog.Proofs.Text.Lines
import ConstantCatalog.Proofs.BlockText.Line

/-! # Written lines

Each line that the writer makes is a line of a text and says what it was written for. Names have to
be identifiers, and tags are trimmed and without line feeds. Nothing is asked of a block as a whole:
its names may repeat, and its references may lead nowhere. -/

namespace ConstantCatalog
set_option autoImplicit false
open Text BlockText

/-- A tag that a comment can hold. -/
structure Availability.Writable (a : Availability) : Prop where
  tag_ne : a.tag ≠ ""
  trim_tag : trim a.tag.toList = a.tag.toList
  noFeed : '\n' ∉ a.tag.toList

/-- A right side whose target, if any, is an identifier. -/
def RightSide.Writable : RightSide → Prop
  | literal _ => True
  | reference target => isIdentifier target.toList = true

structure Declaration.Writable (d : Declaration) : Prop where
  name : isIdentifier d.name.toList = true
  rightSide : d.rightSide.Writable
  availability : d.availability.Writable

structure Block.Writable (b : Block) : Prop where
  name : isIdentifier b.name.toList = true
  availability : b.availability.Writable
  members : ∀ d ∈ b.members, d.Writable

theorem Availability.Writable.ofTag_tag {a : Availability} (h : a.Writable) :
    Availability.ofTag a.tag = a := by
  simp [ofTag, h.trim_tag]

instance (a : Availability) : Decidable a.Writable :=
  decidable_of_iff (a.tag ≠ "" ∧ trim a.tag.toList = a.tag.toList ∧ '\n' ∉ a.tag.toList)
    ⟨fun ⟨hne, htrim, hfeed⟩ => ⟨hne, htrim, hfeed⟩, fun ⟨hne, htrim, hfeed⟩ => ⟨hne, htrim, hfeed⟩⟩

instance : (r : RightSide) → Decidable r.Writable
  | .literal _ => inferInstanceAs (Decidable True)
  | .reference target => inferInstanceAs (Decidable (isIdentifier target.toList = true))

instance (d : Declaration) : Decidable d.Writable :=
  decidable_of_iff
    (isIdentifier d.name.toList = true ∧ d.rightSide.Writable ∧ d.availability.Writable)
    ⟨fun ⟨hname, hright, ha⟩ => ⟨hname, hright, ha⟩, fun ⟨hname, hright, ha⟩ => ⟨hname, hright, ha⟩⟩

instance (b : Block) : Decidable b.Writable :=
  decidable_of_iff
    (isIdentifier b.name.toList = true ∧ b.availability.Writable ∧ ∀ d ∈ b.members, d.Writable)
    ⟨fun ⟨hname, ha, hds⟩ => ⟨hname, ha, hds⟩, fun ⟨hname, ha, hds⟩ => ⟨hname, ha, hds⟩⟩

end ConstantCatalog

namespace ConstantCatalog.BlockText
set_option autoImplicit false
open Text

/-- The text can stand as a line, and says what the line says. -/
structure Says (text : List Char) (line : Line) : Prop where
  isLine : IsLine text
  ofText : Line.ofText text = line

theorem isLine_of_unpadded {s : List Char} (h : Unpadded s) (hfeed : '\n' ∉ s) : IsLine s where
  noFeed := hfeed
  noReturn := by
    intro hlast
    exact absurd (h.last _ hlast) (by decide)

theorem says_of_unpadded {s : List Char} {line : Line} (h : Unpadded s) (hfeed : '\n' ∉ s)
    (hline : Line.ofTrimmed s = line) : Says s line where
  isLine := isLine_of_unpadded h hfeed
  ofText := by rw [Line.ofText, h.trim_eq, hline]

theorem says_comment {body : List Char} (h : Unpadded body) (hne : body ≠ [])
    (hfeed : '\n' ∉ body) : Says ("// ".toList ++ body) (Line.ofComment body) := by
  have hslashes : Unpadded "//".toList := trim_eq_self_iff.mp rfl
  have hline : "// ".toList ++ body = "//".toList ++ (' ' :: body) := rfl
  apply says_of_unpadded
  · exact hslashes.append (by decide) h hne [' ']
  · simpa using hfeed
  · rw [hline, Line.ofTrimmed_comment, trim_cons_of_isBlank rfl, h.trim_eq]

theorem says_tagLine {a : Availability} (h : a.Writable) : Says (tagLine a) (.tag a) := by
  have hne : a.tag.toList ≠ [] := by simpa using h.tag_ne
  have hword : Unpadded "Provided".toList := trim_eq_self_iff.mp rfl
  have hbody : Unpadded ("Provided by ".toList ++ a.tag.toList) :=
    hword.append (by decide) (trim_eq_self_iff.mp h.trim_tag) hne " by ".toList
  have hsays := says_comment hbody (by simp) (by simpa using h.noFeed)
  rwa [Line.ofComment_tag, String.ofList_toList, h.ofTag_tag] at hsays

theorem noteIn?_renamed (name : List Char) :
    Line.noteIn? (name ++ " is a deprecated alias".toList) = some .renamed := by
  have hoccurs : occursIn "is a deprecated alias".toList (name ++ " is a deprecated alias".toList)
      = true := occursIn_iff.mpr ⟨name ++ [' '], [], by simp⟩
  simp only [Line.noteIn?, hoccurs, if_true]

section Name
variable {name : List Char} (h : isIdentifier name = true)
include h

theorem noteIn?_unexplained :
    Line.noteIn? (name ++ " is deprecated".toList) = some .unexplained := by
  have hspace : ' ' ∉ name := notMem_of_isIdentifier h rfl
  have hoccurs : occursIn "is deprecated".toList (name ++ " is deprecated".toList) = true :=
    occursIn_iff.mpr ⟨name ++ [' '], [], by simp⟩
  -- The longer mark has more blanks than the whole comment.
  have hnot : ¬ occursIn "is a deprecated alias".toList (name ++ " is deprecated".toList)
      = true := by
    intro hlong
    have hcount := (occursIn_iff.mp hlong).sublist.count_le ' '
    rw [List.count_append, List.count_eq_zero.mpr hspace] at hcount
    exact absurd hcount (by decide)
  rw [Line.noteIn?, if_neg hnot, if_pos hoccurs]

/-- The identifier that a comment starts with ends at the first blank. -/
theorem not_tag_of_isIdentifier (rest : List Char) :
    ¬ "Provided by ".toList <+: name ++ " is ".toList ++ rest := by
  have hspace : ' ' ∉ name := notMem_of_isIdentifier h rfl
  have hword : ' ' ∉ "Provided".toList := by decide
  rintro ⟨tail, heq⟩
  have hcut : "Provided".toList ++ ' ' :: ("by ".toList ++ tail) =
      name ++ ' ' :: ("is ".toList ++ rest) := by simpa using heq
  have hrest := (append_cons_inj hword hspace hcut).2
  simp at hrest

theorem says_note {rest : List Char} (hrest : Unpadded rest) (hne : rest ≠ []) (hfeed : '\n' ∉ rest)
    {d : Deprecation} (hnote : Line.noteIn? (name ++ " is ".toList ++ rest) = some d) :
    Says ("// ".toList ++ name ++ " is ".toList ++ rest) (.note d) := by
  have hname : '\n' ∉ name := notMem_of_isIdentifier h rfl
  have hbody := (unpadded_of_isIdentifier h).append (ne_nil_of_isIdentifier h) hrest hne
    " is ".toList
  have hsays := says_comment hbody (by simp) (by simp [hname, hfeed])
  rw [Line.ofComment_note (not_tag_of_isIdentifier h rest) hnote] at hsays
  simpa only [List.append_assoc] using hsays

/-- Blanks and marks after a name do not belong to it. -/
theorem nameBefore_of_isIdentifier (mark : Char) (gap : List Char)
    (hname : isNameChar mark = false) (hblank : isBlank mark = false)
    (hgap : ∀ c ∈ gap, isBlank c = true) :
    Line.nameBefore mark (' ' :: (name ++ gap ++ [mark])) = name := by
  have hne := ne_nil_of_isIdentifier h
  have hname' := unpadded_of_isIdentifier h
  have hmark : Unpadded [mark] := ⟨by simpa using hblank, by simpa using hblank⟩
  have hlast : ∀ c ∈ (name ++ gap).getLast?, (c == mark) = false := by
    intro c hc
    rw [beq_eq_false_iff_ne]
    rintro rfl
    rcases List.mem_append.mp (List.mem_of_getLast? hc) with hc | hc
    · exact notMem_of_isIdentifier h hname hc
    · rw [hgap c hc] at hblank
      cases hblank
  rw [Line.nameBefore, trim_cons_of_isBlank rfl,
    (hname'.append hne hmark (by simp) gap).trim_eq,
    dropEndWhile_append_of_all (by simp), dropEndWhile_of_getLast hlast, trim_append_of_all hgap,
    hname'.trim_eq]

theorem says_opening : Says (openingLine name) (.opening name) := by
  have hname : '\n' ∉ name := notMem_of_isIdentifier h rfl
  have hstart : Unpadded "typedef enum".toList := trim_eq_self_iff.mp rfl
  have hend : Unpadded ['{'] := trim_eq_self_iff.mp rfl
  have hline : "typedef enum ".toList ++ name ++ [' ', '{'] =
      "typedef enum".toList ++ ' ' :: (name ++ [' '] ++ ['{']) := by simp
  unfold openingLine
  apply says_of_unpadded
  · simpa using hstart.append (by decide) hend (by decide) (' ' :: name ++ [' '])
  · simp [hname]
  · rw [hline, Line.ofTrimmed_opening,
      nameBefore_of_isIdentifier h '{' [' '] rfl rfl (List.forall_mem_singleton.mpr rfl)]

theorem says_closing : Says (closingLine name) (.closing name) := by
  have hname : '\n' ∉ name := notMem_of_isIdentifier h rfl
  have hstart : Unpadded ['}'] := trim_eq_self_iff.mp rfl
  have hend : Unpadded [';'] := trim_eq_self_iff.mp rfl
  have hline : ['}', ' '] ++ name ++ [';'] = '}' :: ' ' :: (name ++ [] ++ [';']) := by simp
  unfold closingLine
  apply says_of_unpadded
  · simpa using hstart.append (by decide) hend (by decide) (' ' :: name)
  · simp [hname]
  · rw [hline, Line.ofTrimmed_closing,
      nameBefore_of_isIdentifier h ';' [] rfl rfl (List.forall_mem_nil _)]

end Name

theorem says_of_mem_noteLines {name : String} (h : isIdentifier name.toList = true)
    {d : Deprecation} {text : List Char} (ht : text ∈ noteLines name d) : Says text (.note d) := by
  cases d with
  | absent => cases ht
  | renamed =>
    rw [List.mem_singleton.mp ht]
    have hrest : Unpadded "a deprecated alias".toList := trim_eq_self_iff.mp rfl
    have hnote := noteIn?_renamed name.toList
    simpa using says_note h hrest (by decide) (by decide) (by simpa using hnote)
  | unexplained =>
    rw [List.mem_singleton.mp ht]
    have hrest : Unpadded "deprecated".toList := trim_eq_self_iff.mp rfl
    have hnote := noteIn?_unexplained h
    simpa using says_note h hrest (by decide) (by decide) (by simpa using hnote)

theorem saysValue_rightSideText (form : Form) {r : RightSide} (h : r.Writable) :
    SaysValue (rightSideText form r) r := by
  cases r with
  | literal v =>
    apply SaysValue.literal
    rw [rightSideText]
    split
    · exact Literal.read?_pattern v
    · exact Literal.read?_decimal v
  | reference target =>
    have hsays := SaysValue.reference h
    rwa [String.ofList_toList] at hsays

section Declaration
variable (form : Form) {d : Declaration} (h : d.Writable)
include h

theorem ofTrimmed_declarationLine :
    Line.ofTrimmed (declarationLine form d) = .declaration (declarationLine form d) := by
  have hslash : '/' ∉ d.name.toList := notMem_of_isIdentifier h.name rfl
  have hbrace : '}' ∉ d.name.toList := notMem_of_isIdentifier h.name rfl
  have hspace : ' ' ∉ d.name.toList := notMem_of_isIdentifier h.name rfl
  have hword : ' ' ∉ "typedef".toList := by decide
  have hline : ∃ rest, declarationLine form d = d.name.toList ++ ' ' :: '=' :: rest :=
    ⟨' ' :: rightSideText form d.rightSide ++ [','], by simp [declarationLine]⟩
  obtain ⟨c, name, hname⟩ := List.exists_cons_of_ne_nil (ne_nil_of_isIdentifier h.name)
  obtain ⟨rest, hline⟩ := hline
  rw [hname] at hslash hbrace
  rw [hline]
  apply Line.ofTrimmed_declaration
  · simp
  · rw [hname]
    rintro ⟨tail, heq⟩
    simp at heq hslash
    exact hslash.1 heq.1
  · rintro ⟨tail, heq⟩
    have hcut : "typedef".toList ++ ' ' :: ("enum".toList ++ tail) =
        d.name.toList ++ ' ' :: '=' :: rest := by simpa using heq
    have hrest := (append_cons_inj hword hspace hcut).2
    simp at hrest
  · rw [hname]
    rintro ⟨tail, heq⟩
    simp at heq hbrace
    exact hbrace.1 heq.1

theorem says_declarationLine :
    Says (declarationLine form d) (.declaration (declarationLine form d)) := by
  have hvalue := saysValue_rightSideText form h.rightSide
  have hname : '\n' ∉ d.name.toList := notMem_of_isIdentifier h.name rfl
  have hfeed : '\n' ∉ rightSideText form d.rightSide := by
    intro hmem
    exact absurd (hvalue.isBlank_of_mem hmem).1 (by decide)
  have hend : Unpadded [','] := trim_eq_self_iff.mp rfl
  have hmid := (unpadded_of_isIdentifier h.name).append (ne_nil_of_isIdentifier h.name) hend
    (by decide) (" = ".toList ++ rightSideText form d.rightSide)
  apply says_of_unpadded
  · simpa [declarationLine] using hmid
  · simp [declarationLine, hname, hfeed]
  · exact ofTrimmed_declarationLine form h

theorem readDeclaration_declarationLine :
    readDeclaration (declarationLine form d) = .ok (d.name, d.rightSide) := by
  have hvalue := saysValue_rightSideText form h.rightSide
  have hname := unpadded_of_isIdentifier h.name
  have hsides := hname.append (ne_nil_of_isIdentifier h.name) hvalue.unpadded hvalue.ne_nil
    " = ".toList
  have hcomma : ∀ c ∈ (d.name.toList ++ " = ".toList ++ rightSideText form d.rightSide).getLast?,
      (c == ',') = false := by
    intro c hc
    rw [List.getLast?_append_of_ne_nil _ hvalue.ne_nil] at hc
    rw [beq_eq_false_iff_ne]
    exact (hvalue.isBlank_of_mem (List.mem_of_getLast? hc)).2
  have hleft : trim (d.name.toList ++ [' ']) = d.name.toList := by
    rw [trim_append_of_all (List.forall_mem_singleton.mpr rfl), hname.trim_eq]
  have hright : trim (' ' :: rightSideText form d.rightSide) = rightSideText form d.rightSide := by
    rw [trim_cons_of_isBlank rfl, hvalue.unpadded.trim_eq]
  have hequals : '=' ∉ d.name.toList := notMem_of_isIdentifier h.name rfl
  refine readDeclaration_eq_ok_iff.mpr
    ⟨d.name.toList ++ [' '], ' ' :: rightSideText form d.rightSide, ?_, ?_, ?_, ?_, ?_⟩
  · rw [declarationLine, dropEndWhile_append_of_all (by simp), dropEndWhile_of_getLast hcomma,
      hsides.trim_eq]
    simp
  · simpa using hequals
  · rw [hleft]
    exact h.name
  · rw [hleft, String.ofList_toList]
  · rw [hright]
    exact hvalue

end Declaration

end ConstantCatalog.BlockText
