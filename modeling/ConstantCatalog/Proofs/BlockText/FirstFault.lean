import ConstantCatalog.Proofs.Text.Lines
import ConstantCatalog.Proofs.BlockText.Acceptance
import ConstantCatalog.Proofs.BlockText.RoundTrip

/-! # The first fault of a text

A text that does not read is reported at one of its lines, and the lines before that one have
nothing wrong with them but that a block may be open. Either the reported line itself cannot stand
there, whatever follows it, or it opens a block that nothing after it closes, and then the closing
line is all that the text lacks. -/

namespace ConstantCatalog.BlockText
set_option autoImplicit false
open Text

/-- There is a text with the given lines, and every such text is read with this outcome. -/
structure Gives (source : String) (texts : List (List Char))
    (outcome : Except Fault (List Block)) : Prop where
  exists_text : ∃ text : String, lines text.toList = texts
  read_eq : ∀ text : String, lines text.toList = texts → read source text = outcome

variable {source : String} {texts before after : List (List Char)} {line : List Char}

theorem gives_of_readFrom (hfeed : ∀ l ∈ texts, '\n' ∉ l) {outcome : Except Complaint (List Block)}
    (h : readFrom .start 1 texts = outcome) :
    Gives source texts (outcome.mapError fun c => .malformed source c.line c.malformation) where
  exists_text := by
    obtain ⟨text, rfl⟩ := exists_lines_eq hfeed
    exact ⟨String.ofList text, by rw [String.toList_ofList]⟩
  read_eq := by
    intro text htext
    rw [read, blocksOf, htext, h]

theorem gives_blocks (hfeed : ∀ l ∈ texts, '\n' ∉ l) {blocks : List Block}
    {pending : Option Availability}
    (h : Mode.start.after 1 texts = .ok (blocks, .outside pending)) :
    Gives source texts (.ok blocks) :=
  gives_of_readFrom hfeed (readFrom_eq_ok_iff.mpr ⟨pending, h⟩)

/-! ## Lines that the reader does not get past -/

theorem readDeclaration_ne_unclosed (text : List Char) (name : String) :
    readDeclaration text ≠ .error (.unclosed name) := by
  intro h
  simp only [readDeclaration] at h
  split at h
  · cases h
  · split at h
    · cases h
    · split at h
      · cases h
      · split at h <;> cases h

namespace Mode
variable {m : Mode} {number : Nat}

/-- No line is reported for what comes after it. -/
theorem step_ne_unclosed (m : Mode) (number : Nat) (line : Line) (name : String) :
    m.step number line ≠ .error (.unclosed name) := by
  intro h
  cases line with
  | blank => cases h
  | remark => cases h
  | tag a => cases h
  | note d => cases h
  | opening opened =>
    have hopening := Outcome.map_eq_error.mp h
    cases m with
    | inside b openedAt pending d => cases hopening
    | outside pending =>
      cases hname : isIdentifier opened with
      | false => simp [opening, hname] at hopening
      | true => cases pending <;> simp [opening, hname] at hopening
  | closing closed =>
    have hclosing := Outcome.map_eq_error.mp h
    cases m with
    | outside pending => cases hclosing
    | inside b openedAt pending d =>
      rw [closing] at hclosing
      split at hclosing <;> cases hclosing
  | declaration text =>
    have hdeclaration := Outcome.map_eq_error.mp h
    cases m with
    | outside pending => cases hdeclaration
    | inside b openedAt pending d =>
      rcases Outcome.bind_eq_error.mp hdeclaration with hread | ⟨sides, -, hadd⟩
      · exact readDeclaration_ne_unclosed text name hread
      · cases hadd

end Mode

/-- Whatever follows, the line is the first one that cannot stand where it stands. -/
structure FaultAt (source : String) (before : List (List Char)) (line : List Char) (f : Fault) :
    Prop where
  readable : (∃ blocks, Gives source before (.ok blocks)) ∨
    ∃ number name, Gives source before (.error (.malformed source number (.unclosed name)))
  reported : ∀ rest, (∀ l ∈ rest, '\n' ∉ l) → Gives source (before ++ line :: rest) (.error f)

theorem readable_of_after (hfeed : ∀ l ∈ texts, '\n' ∉ l) {blocks : List Block} {m : Mode}
    (h : Mode.start.after 1 texts = .ok (blocks, m)) :
    (∃ blocks, Gives source texts (.ok blocks)) ∨
      ∃ number name, Gives source texts (.error (.malformed source number (.unclosed name))) := by
  cases m with
  | outside pending => exact .inl ⟨blocks, gives_blocks hfeed h⟩
  | inside b openedAt pending d =>
    have hread : readFrom .start 1 texts = .error ⟨openedAt, .unclosed b.name⟩ := by
      rw [readFrom_eq, h]
      rfl
    exact .inr ⟨openedAt, b.name, gives_of_readFrom hfeed hread⟩

theorem faultAt_of_step {blocks : List Block} {m : Mode} {malformation : Malformation}
    (hfeed : ∀ l ∈ before ++ line :: after, '\n' ∉ l)
    (h : Mode.start.after 1 before = .ok (blocks, m))
    (hstep : m.step (1 + before.length) (.ofText line) = .error malformation) :
    FaultAt source before line (.malformed source (1 + before.length) malformation) := by
  obtain ⟨hbefore, hrest⟩ := List.forall_mem_append.mp hfeed
  refine ⟨readable_of_after hbefore h, ?_⟩
  intro rest hfeed'
  apply gives_of_readFrom _ (readFrom_of_step_eq_error h hstep rest)
  exact List.forall_mem_append.mpr
    ⟨hbefore, List.forall_mem_cons.mpr ⟨(List.forall_mem_cons.mp hrest).1, hfeed'⟩⟩

/-! ## Blocks that are left open -/

namespace Mode
variable {m : Mode} {number openedAt : Nat} {b : Block} {pending : Option Availability}
  {d : Deprecation} {blocks : List Block}

/-- A line that the reader leaves inside a block has opened it, or belongs to it. -/
theorem inside_of_step {text : List Char} {completed : Option Block}
    (hstep : m.step number (.ofText text) = .ok (completed, inside b openedAt pending d)) :
    completed = none ∧
      ((∃ pending', m = outside pending' ∧ openedAt = number ∧ Opens (trim text) b.name.toList) ∨
      ∃ b' pending' d', m = inside b' openedAt pending' d' ∧ b'.name = b.name ∧
        ∀ s ∈ sentences [text], IsComment s ∨ Declares s) := by
  by_cases hblank : trim text = []
  · rw [Line.ofText, hblank] at hstep
    cases hstep
    refine ⟨rfl, .inr ⟨b, pending, d, rfl, rfl, ?_⟩⟩
    rw [sentences_of_blank hblank]
    exact List.forall_mem_nil _
  · have hsentence : sentences [text] = [trim text] := sentences_cons hblank []
    rw [Line.ofText] at hstep
    rw [hsentence, List.forall_mem_singleton]
    by_cases hcomment : IsComment (trim text)
    · cases m with
      | outside pending' =>
        rw [outside_step_comment hcomment] at hstep
        cases hstep
      | inside b' openedAt' pending' d' =>
        rw [inside_step_comment hcomment] at hstep
        cases hstep
        exact ⟨rfl, .inr ⟨b, pending', d', rfl, rfl, .inl hcomment⟩⟩
    · cases m with
      | outside pending' =>
        obtain ⟨a, name, -, hopens, rfl, hinside⟩ :=
          (outside_step_eq_ok_iff hblank hcomment).mp hstep
        cases hinside
        exact ⟨rfl, .inl ⟨pending', rfl, rfl, by rwa [String.toList_ofList]⟩⟩
      | inside b' openedAt' pending' d' =>
        by_cases hmember : IsMember (trim text)
        · obtain ⟨name, rightSide, hread, rfl, hinside⟩ :=
            (inside_step_member hblank hmember).mp hstep
          cases hinside
          exact ⟨rfl, .inr ⟨b', pending', d', rfl, rfl,
            .inr ((declares_iff hmember).mpr ⟨_, hread⟩)⟩⟩
        · obtain ⟨-, -, hstart⟩ := (inside_step_closing hcomment hmember).mp hstep
          cases hstart

/-- The block that is open at the end was opened on the line that the reader remembers, and no line
after that one closes it. -/
theorem exists_opening_of_after
    (h : start.after number texts = .ok (blocks, inside b openedAt pending d)) :
    ∃ before line after pending', texts = before ++ line :: after ∧
      openedAt = number + before.length ∧
      start.after number before = .ok (blocks, outside pending') ∧
      Opens (trim line) b.name.toList ∧ ∀ s ∈ sentences after, IsComment s ∨ Declares s := by
  -- From the end: as long as the lines belong to the block, the one before is in question.
  induction texts using List.reverseRecOn generalizing blocks b pending d with
  | nil => cases h
  | append_singleton texts text ih =>
    obtain ⟨earlier, mid, completed, hafter, hstep, rfl⟩ := exists_of_after_concat h
    obtain ⟨rfl, ⟨pending', rfl, rfl, hopens⟩ | ⟨b', pending', d', rfl, hname, hinner⟩⟩ :=
      inside_of_step hstep
    · refine ⟨texts, text, [], pending', rfl, rfl, ?_, hopens, List.forall_mem_nil _⟩
      rw [hafter, Option.toList_none, List.append_nil]
    · obtain ⟨before, line, after, pending'', rfl, rfl, hbefore, hopens, hafters⟩ := ih hafter
      refine ⟨before, line, after ++ [text], pending'', by simp, rfl, ?_, hname ▸ hopens, ?_⟩
      · rw [hbefore, Option.toList_none, List.append_nil]
      · have hsentences : sentences (after ++ [text]) = sentences after ++ sentences [text] := by
          simp [sentences]
        rw [hsentences]
        exact List.forall_mem_append.mpr ⟨hafters, hinner⟩

end Mode

/-- The line opens a block that the text does not close; a closing line at the end would complete
it as the last block. -/
structure LeftOpen (source : String) (before : List (List Char)) (line : List Char)
    (after : List (List Char)) (name : String) : Prop where
  opens : Opens (trim line) name.toList
  inner : ∀ s ∈ sentences after, IsComment s ∨ Declares s
  closable : ∃ blocks b, b.name = name ∧ Gives source before (.ok blocks) ∧
    Gives source (before ++ line :: after ++ [closingLine name.toList]) (.ok (blocks ++ [b]))

theorem exists_leftOpen_of_after {openedAt : Nat} {b : Block} {pending : Option Availability}
    {d : Deprecation} {blocks : List Block} (hfeed : ∀ l ∈ texts, '\n' ∉ l)
    (h : Mode.start.after 1 texts = .ok (blocks, .inside b openedAt pending d)) :
    ∃ before line after, texts = before ++ line :: after ∧ openedAt = 1 + before.length ∧
      LeftOpen source before line after b.name := by
  obtain ⟨before, line, after, pending', rfl, rfl, hbefore, hopens, hinner⟩ :=
    Mode.exists_opening_of_after h
  have hclosing := Mode.takes_closing (1 + (before ++ line :: after).length) hopens.isIdentifier
    (1 + before.length) pending d
  refine ⟨before, line, after, rfl, rfl, hopens, hinner, blocks, b, rfl, ?_, ?_⟩
  · exact gives_blocks (List.forall_mem_append.mp hfeed).1 hbefore
  · apply gives_blocks _ (Mode.after_append h hclosing.after)
    intro l hl
    rcases List.mem_append.mp hl with hl | hl
    · exact hfeed l hl
    · exact (hclosing.areLines l hl).noFeed

/-- A text that does not read is reported at one of its lines. Either this opens the block that is
open at the end; the lines before it read, and with a closing line at the end the text does too. Or
it is the first line that cannot stand there: the lines before it read or leave a block open, and
whatever follows it the report is the same. -/
theorem read_firstFault {text : String} {f : Fault} (h : read source text = .error f) :
    ∃ before line after malformation, lines text.toList = before ++ line :: after ∧
      f = .malformed source (1 + before.length) malformation ∧
      ((∃ name, malformation = .unclosed name ∧ LeftOpen source before line after name) ∨
        (∀ name, malformation ≠ .unclosed name) ∧ FaultAt source before line f) := by
  have hfeed : ∀ l ∈ lines text.toList, '\n' ∉ l := notMem_of_mem_lines
  obtain ⟨c, hc, rfl⟩ := read_eq_error_iff.mp h
  rw [blocksOf, readFrom_eq] at hc
  cases hafter : Mode.start.after 1 (lines text.toList) with
  | error c' =>
    rw [hafter] at hc
    obtain rfl := Except.error.inj hc
    obtain ⟨before, line, after, blocks, m, malformation, hsplit, hbefore, hstep, rfl⟩ :=
      Mode.exists_of_after_eq_error hafter
    refine ⟨before, line, after, malformation, hsplit, rfl, .inr ⟨?_, ?_⟩⟩
    · rintro name rfl
      exact m.step_ne_unclosed _ _ name hstep
    · exact faultAt_of_step (hsplit ▸ hfeed) hbefore hstep
  | ok result =>
    obtain ⟨blocks, m⟩ := result
    rw [hafter] at hc
    cases m with
    | outside pending => cases hc
    | inside b openedAt pending d =>
      obtain ⟨before, line, after, hsplit, rfl, hopen⟩ := exists_leftOpen_of_after hfeed hafter
      cases hc
      exact ⟨before, line, after, _, hsplit, rfl, .inl ⟨b.name, rfl, hopen⟩⟩

/-- A block that is closed, and behind it one that is not. -/
def openedTwice : List (List Char) :=
  ["// Provided by A".toList, openingLine "E".toList, closingLine "E".toList,
   "// Provided by B".toList, openingLine "F".toList, "X = 1,".toList]

/-- A member line with two equals signs, and a stray closing line behind it. -/
def assignedTwice : List (List Char) :=
  ["// Provided by A".toList, openingLine "E".toList, "X == 1,".toList, closingLine "F".toList]

/-- The block reported is the second one. A line that cannot stand is reported before all others. -/
theorem read_firstFault_twice :
    (∃ before line after, openedTwice = before ++ line :: after ∧ before.length = 4 ∧
      LeftOpen "source" before line after "F") ∧
    ∃ before line after, assignedTwice = before ++ line :: after ∧ before.length = 2 ∧
      FaultAt "source" before line (.malformed "source" 3 (.badValue "= 1" "X")) := by
  have hlines : lines (ofLines openedTwice).toList = openedTwice := by
    decide +kernel
  have hlines' : lines (ofLines assignedTwice).toList = assignedTwice := by
    decide +kernel
  have hopen : read "source" (ofLines openedTwice) =
      .error (.malformed "source" 5 (.unclosed "F")) := by decide +kernel
  have hbad : read "source" (ofLines assignedTwice) =
      .error (.malformed "source" 3 (.badValue "= 1" "X")) := by decide +kernel
  constructor
  · obtain ⟨before, line, after, malformation, hsplit, hf, hcase⟩ := read_firstFault hopen
    injection hf with _ hnumber hmalformation
    rcases hcase with ⟨name, hname, hleft⟩ | ⟨hnone, -⟩
    · cases hmalformation.trans hname
      exact ⟨before, line, after, hlines.symm.trans hsplit, by omega, hleft⟩
    · exact absurd hmalformation.symm (hnone "F")
  · obtain ⟨before, line, after, malformation, hsplit, hf, hcase⟩ := read_firstFault hbad
    injection hf with _ hnumber hmalformation
    rcases hcase with ⟨name, hname, -⟩ | ⟨-, hfault⟩
    · cases hmalformation.trans hname
    · exact ⟨before, line, after, hlines'.symm.trans hsplit, by omega, hfault⟩

end ConstantCatalog.BlockText
