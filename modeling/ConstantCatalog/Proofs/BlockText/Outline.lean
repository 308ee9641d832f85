import ConstantCatalog.Proofs.BlockText.Acceptance

/-! # The outline of a text

Which comments speak of which declaration, said of the lines without the reader. The comments of a
block stand between the closing line before it and its opening line, and those of a member between
the opening or member line before it and its own line. Of several tags or notes the last one counts,
and comments before a closing line count for nothing. The reader gives the blocks of the outline,
and behind a line that is no comment it has forgotten all comments before that line. -/

namespace ConstantCatalog.BlockText
set_option autoImplicit false
open Text

/-- A member line with the comments that speak of it. -/
structure Entry where
  comments : List (List Char)
  line : List Char
  name : String
  rightSide : RightSide
  isComment : ∀ s ∈ comments, IsComment s
  isMember : IsMember line
  reads : readDeclaration line = .ok (name, rightSide)

namespace Entry

def lines (e : Entry) : List (List Char) := e.comments ++ [e.line]

def declaration (provider : Availability) (e : Entry) : Declaration where
  name := e.name
  rightSide := e.rightSide
  availability := (lastTag? e.comments).getD provider
  deprecation := (lastNote? e.comments).getD .absent

end Entry

/-- The lines of a block with the comments before them. -/
structure Passage where
  before : List (List Char)
  availability : Availability
  opening : List Char
  name : List Char
  entries : List Entry
  trailing : List (List Char)
  closing : List Char
  isComment_before : ∀ s ∈ before, IsComment s
  tagged : lastTag? before = some availability
  opens : Opens opening name
  isComment_trailing : ∀ s ∈ trailing, IsComment s
  closes : Closes closing name

namespace Passage

def lines (p : Passage) : List (List Char) :=
  p.before ++ p.opening :: (p.entries.flatMap Entry.lines ++ (p.trailing ++ [p.closing]))

def block (p : Passage) : Block where
  name := String.ofList p.name
  availability := p.availability
  members := p.entries.map (·.declaration p.availability)

end Passage

/-- The lines of a text: its blocks, and the comments behind the last one. -/
structure Outline where
  passages : List Passage
  rest : List (List Char)
  isComment_rest : ∀ s ∈ rest, IsComment s

namespace Outline

def lines (o : Outline) : List (List Char) := o.passages.flatMap Passage.lines ++ o.rest

def blocks (o : Outline) : List Block := o.passages.map Passage.block

end Outline

/-! ## Accepted texts have an outline -/

/-- A comment before a member line speaks of that member, else it trails. -/
theorem exists_entries {body : List (List Char)} (h : ∀ s ∈ body, IsComment s ∨ Declares s) :
    ∃ (entries : List Entry) (trailing : List (List Char)),
      entries.flatMap Entry.lines ++ trailing = body ∧ ∀ s ∈ trailing, IsComment s := by
  induction body with
  | nil => exact ⟨[], [], rfl, by simp⟩
  | cons s body ih =>
    obtain ⟨hs, hbody⟩ := List.forall_mem_cons.mp h
    obtain ⟨entries, trailing, rfl, htrailing⟩ := ih hbody
    rcases hs with hcomment | hdeclares
    · cases entries with
      | nil => exact ⟨[], s :: trailing, rfl, List.forall_mem_cons.mpr ⟨hcomment, htrailing⟩⟩
      | cons e entries =>
        have hcomments : ∀ t ∈ s :: e.comments, IsComment t :=
          List.forall_mem_cons.mpr ⟨hcomment, e.isComment⟩
        refine ⟨{ e with comments := s :: e.comments, isComment := hcomments } :: entries,
          trailing, ?_, htrailing⟩
        simp [Entry.lines]
    · obtain ⟨⟨name, rightSide⟩, hread⟩ := (declares_iff hdeclares.toIsMember).mp hdeclares
      refine ⟨⟨[], s, name, rightSide, by simp, hdeclares.toIsMember, hread⟩ :: entries,
        trailing, ?_, htrailing⟩
      simp [Entry.lines]

theorem exists_outline {ss : List (List Char)} (h : Document ss) : ∃ o : Outline, o.lines = ss := by
  induction h with
  | comments h => exact ⟨⟨[], _, h⟩, rfl⟩
  | @block before body after opening closing name hcomments htagged hopens hinner hcloses _ ih =>
    obtain ⟨o, rfl⟩ := ih
    obtain ⟨a, htag⟩ := Option.isSome_iff_exists.mp (isSome_lastTag?_iff.mpr htagged)
    obtain ⟨entries, trailing, rfl, htrailing⟩ := exists_entries hinner
    refine ⟨⟨⟨before, a, opening, name, entries, trailing, closing, hcomments, htag, hopens,
      htrailing, hcloses⟩ :: o.passages, o.rest, o.isComment_rest⟩, ?_⟩
    simp [Outline.lines, Passage.lines]

theorem Entry.declares (e : Entry) : Declares e.line :=
  (declares_iff e.isMember).mpr ⟨_, e.reads⟩

theorem Entry.inner {entries : List Entry} :
    ∀ s ∈ entries.flatMap Entry.lines, IsComment s ∨ Declares s := by
  intro s hs
  obtain ⟨e, -, hs⟩ := List.mem_flatMap.mp hs
  rcases List.mem_append.mp hs with hs | hs
  · exact Or.inl (e.isComment s hs)
  · rw [List.mem_singleton.mp hs]
    exact Or.inr e.declares

theorem Passage.document (p : Passage) {ss : List (List Char)} (h : Document ss) :
    Document (p.lines ++ ss) := by
  have hinner : ∀ s ∈ p.entries.flatMap Entry.lines ++ p.trailing, IsComment s ∨ Declares s := by
    intro s hs
    rcases List.mem_append.mp hs with hs | hs
    · exact Entry.inner s hs
    · exact Or.inl (p.isComment_trailing s hs)
  have htagged := isSome_lastTag?_iff.mp (Option.isSome_of_eq_some p.tagged)
  have hblock := Document.block p.isComment_before htagged p.opens hinner p.closes h
  simpa [Passage.lines] using hblock

theorem Outline.document (o : Outline) : Document o.lines := by
  obtain ⟨passages, rest, hrest⟩ := o
  induction passages with
  | nil => exact .comments hrest
  | cons p passages ih =>
    rw [Outline.lines, List.flatMap_cons, List.append_assoc]
    exact p.document ih

/-! ## The reader on an outline -/

theorem Opens.unique {s name name' : List Char} (h : Opens s name) (h' : Opens s name') :
    name = name' := by
  obtain ⟨rest, rfl, hname, -⟩ := h
  obtain ⟨rest', heq, hname', -⟩ := h'
  rw [← hname, ← hname', List.append_cancel_left heq]

namespace Mode
variable {s : List Char} {ss : List (List Char)} {number : Nat} {blocks : List Block}
variable {m next last : Mode}

/-- The lines complete the blocks and lead the reader from one mode to another. Their numbers are
of no account. -/
inductive Runs : Mode → List (List Char) → List Block → Mode → Prop where
  | nil (m : Mode) : Runs m [] [] m
  | cons {m next last : Mode} {number : Nat} {s : List Char} {ss : List (List Char)}
      {completed : Option Block} {blocks : List Block} :
      m.step number (.ofTrimmed s) = .ok (completed, next) → Runs next ss blocks last →
      Runs m (s :: ss) (completed.toList ++ blocks) last

theorem runs_of_after {texts : List (List Char)}
    (h : m.after number texts = .ok (blocks, last)) : m.Runs (sentences texts) blocks last := by
  induction texts generalizing m number blocks with
  | nil =>
    cases h
    exact .nil _
  | cons text texts ih =>
    obtain ⟨completed, next, tail, hstep, htail, rfl⟩ := after_cons_eq_ok_iff.mp h
    by_cases hblank : trim text = []
    · rw [Line.ofText, hblank] at hstep
      cases hstep
      rw [sentences_of_blank hblank]
      exact ih htail
    · rw [sentences_cons hblank]
      exact .cons hstep (ih htail)

theorem Runs.outside_comments {pending : Option Availability} {comments : List (List Char)}
    (hc : ∀ s ∈ comments, IsComment s) (h : (outside pending).Runs (comments ++ ss) blocks last) :
    (outside ((lastTag? comments).or pending)).Runs ss blocks last := by
  induction comments generalizing pending with
  | nil => exact h
  | cons s comments ih =>
    obtain ⟨hs, hcomments⟩ := List.forall_mem_cons.mp hc
    cases h with
    | cons hstep hrest =>
      rw [outside_step_comment hs] at hstep
      cases hstep
      rw [lastTag?_cons, Option.or_assoc]
      exact ih hcomments hrest

theorem Runs.inside_comments {b : Block} {openedAt : Nat} {pending : Option Availability}
    {d : Deprecation} {comments : List (List Char)} (hc : ∀ s ∈ comments, IsComment s)
    (h : (inside b openedAt pending d).Runs (comments ++ ss) blocks last) :
    (inside b openedAt ((lastTag? comments).or pending) ((lastNote? comments).getD d)).Runs ss
      blocks last := by
  induction comments generalizing pending d with
  | nil => exact h
  | cons s comments ih =>
    obtain ⟨hs, hcomments⟩ := List.forall_mem_cons.mp hc
    cases h with
    | cons hstep hrest =>
      rw [inside_step_comment hs] at hstep
      cases hstep
      rw [lastTag?_cons, lastNote?_cons, Option.or_assoc, Option.getD_or]
      exact ih hcomments hrest

theorem Runs.entry {b : Block} {openedAt : Nat} (e : Entry)
    (h : (inside b openedAt none .absent).Runs (e.lines ++ ss) blocks last) :
    (inside (b.add (e.declaration b.availability)) openedAt none .absent).Runs ss blocks last := by
  rw [Entry.lines, List.append_assoc] at h
  cases h.inside_comments e.isComment with
  | cons hstep hrest =>
    have hne : e.line ≠ [] := by
      intro hnil
      have hread := e.reads
      rw [hnil] at hread
      cases hread
    obtain ⟨name, rightSide, hread, rfl, rfl⟩ := (inside_step_member hne e.isMember).mp hstep
    rw [e.reads] at hread
    cases hread
    rw [Option.or_none] at hrest
    exact hrest

theorem Runs.entries {b : Block} {openedAt : Nat} (entries : List Entry)
    (h : (inside b openedAt none .absent).Runs (entries.flatMap Entry.lines ++ ss) blocks last) :
    (inside { b with members := b.members ++ entries.map (·.declaration b.availability) } openedAt
      none .absent).Runs ss blocks last := by
  induction entries generalizing b with
  | nil =>
    rw [List.map_nil, List.append_nil]
    exact h
  | cons e entries ih =>
    rw [List.flatMap_cons, List.append_assoc] at h
    have hrest := ih h.entry
    have hmembers : b.members ++ (e :: entries).map (·.declaration b.availability) =
        (b.add (e.declaration b.availability)).members ++
          entries.map (·.declaration b.availability) := by
      simp [Block.add]
    rw [hmembers]
    exact hrest

theorem Runs.passage (p : Passage) (h : start.Runs (p.lines ++ ss) blocks last) :
    ∃ tail, blocks = p.block :: tail ∧ start.Runs ss tail last := by
  rw [Passage.lines, List.append_assoc, List.cons_append] at h
  have hopening := Runs.outside_comments p.isComment_before h
  rw [p.tagged] at hopening
  cases hopening with
  | cons hstep hrest =>
    have hne : p.opening ≠ [] := by
      intro hnil
      have hopens := p.opens.opening
      rw [hnil] at hopens
      exact absurd hopens (by decide)
    have hcomment : ¬ IsComment p.opening := fun hc => hc.not_opening p.opens.opening
    obtain ⟨a, name, ha, hopens, rfl, rfl⟩ := (outside_step_eq_ok_iff hne hcomment).mp hstep
    obtain rfl : p.availability = a := Option.some.inj ha
    obtain rfl : p.name = name := p.opens.unique hopens
    rw [List.append_assoc, List.append_assoc] at hrest
    have hclosing := (hrest.entries p.entries).inside_comments p.isComment_trailing
    cases hclosing with
    | cons hstep hrest =>
      have hcomment : ¬ IsComment p.closing := fun hc => hc.not_closing p.closes.closing
      have hmember : ¬ IsMember p.closing := fun hm => hm.notClosing p.closes.closing
      obtain ⟨-, rfl, rfl⟩ := (inside_step_closing hcomment hmember).mp hstep
      exact ⟨_, rfl, hrest⟩

theorem Runs.outline (o : Outline) (h : start.Runs o.lines blocks last) : blocks = o.blocks := by
  obtain ⟨passages, rest, hrest⟩ := o
  induction passages generalizing blocks with
  | nil =>
    have hcomments : start.Runs (rest ++ []) blocks last := by
      rw [List.append_nil]
      exact h
    cases hcomments.outside_comments hrest
    rfl
  | cons p passages ih =>
    rw [Outline.lines, List.flatMap_cons, List.append_assoc] at h
    obtain ⟨tail, rfl, htail⟩ := h.passage
    rw [ih htail]
    rfl

/-! ## What the reader forgets -/

/-- No comment that was read so far will speak of anything. -/
def IsClear : Mode → Prop
  | outside pending => pending = none
  | inside _ _ pending d => pending = none ∧ d = .absent

theorem isClear_of_step (hne : s ≠ []) (h : ¬ IsComment s) {completed : Option Block}
    (hstep : m.step number (.ofTrimmed s) = .ok (completed, next)) : next.IsClear := by
  cases m with
  | outside pending =>
    obtain ⟨a, name, -, -, -, rfl⟩ := (outside_step_eq_ok_iff hne h).mp hstep
    exact ⟨rfl, rfl⟩
  | inside b openedAt pending d =>
    by_cases hmember : IsMember s
    · obtain ⟨name, rightSide, -, -, rfl⟩ := (inside_step_member hne hmember).mp hstep
      exact ⟨rfl, rfl⟩
    · obtain ⟨-, -, rfl⟩ := (inside_step_closing h hmember).mp hstep
      rfl

theorem exists_step_of_after_concat {texts : List (List Char)} {text : List Char}
    (h : m.after number (texts ++ [text]) = .ok (blocks, last)) :
    ∃ before number' completed, step before number' (.ofText text) = .ok (completed, last) := by
  obtain ⟨-, mid, completed, -, hstep, -⟩ := exists_of_after_concat h
  exact ⟨mid, _, completed, hstep⟩

end Mode

/-- The reader gives the blocks of the outline. Behind an opening, member or closing line it holds
no tag and no note from before. -/
theorem read_outline (source text : String) :
    (∀ blocks, read source text = .ok blocks ↔
      ∃ o : Outline, o.lines = sentences (lines text.toList) ∧ o.blocks = blocks) ∧
    ∀ (earlier : List (List Char)) (line : List Char) (blocks : List Block) (m : Mode),
      trim line ≠ [] → ¬ IsComment (trim line) →
      Mode.start.after 1 (earlier ++ [line]) = .ok (blocks, m) → m.IsClear := by
  have hblocks : ∀ (o : Outline) blocks, o.lines = sentences (lines text.toList) →
      read source text = .ok blocks → blocks = o.blocks := by
    intro o blocks hlines hread
    obtain ⟨pending, hafter⟩ := read_eq_ok_iff.mp hread
    have hruns := Mode.runs_of_after hafter
    rw [← hlines] at hruns
    exact hruns.outline
  refine ⟨fun blocks => ⟨?_, ?_⟩, ?_⟩
  · intro hread
    obtain ⟨o, ho⟩ := exists_outline ((read_accepts_iff source text).mp ⟨blocks, hread⟩)
    exact ⟨o, ho, (hblocks o blocks ho hread).symm⟩
  · intro ⟨o, ho, hblock⟩
    obtain ⟨blocks', hread⟩ := (read_accepts_iff source text).mpr (ho ▸ o.document)
    rw [hread, ← hblock, hblocks o blocks' ho hread]
  · intro earlier line blocks m hne hcomment hafter
    obtain ⟨before, number, completed, hstep⟩ := Mode.exists_step_of_after_concat hafter
    exact Mode.isClear_of_step hne hcomment hstep

/-- A tag that a later one replaces, a tag and a note on one member, and a tag and a note that no
declaration follows. -/
def strayComments : List (List Char) :=
  ["// Provided by OLD".toList, "// Provided by A".toList, openingLine "E".toList,
   "// X is deprecated".toList, "// Provided by B".toList, "X = 1,".toList, "Y = X,".toList,
   "// Provided by STRAY".toList, "// is deprecated".toList, closingLine "E".toList,
   "// Provided by C".toList, openingLine "F".toList, "Z = 0".toList, closingLine "F".toList]

def strayBlocks : List Block :=
  [⟨"E", ⟨"A"⟩, [⟨"X", .literal 1, ⟨"B"⟩, .unexplained⟩, ⟨"Y", .reference "X", ⟨"A"⟩, .absent⟩]⟩,
   ⟨"F", ⟨"C"⟩, [⟨"Z", .literal 0, ⟨"C"⟩, .absent⟩]⟩]

theorem read_outline_strayComments :
    (∃ o : Outline, o.lines = sentences (lines (ofLines strayComments).toList) ∧
      o.blocks = strayBlocks) ∧
    ∃ m, Mode.start.after 1 (strayComments.take 5 ++ ["X = 1,".toList]) = .ok ([], m) ∧
      m.IsClear := by
  have hafter : Mode.start.after 1 (strayComments.take 5 ++ ["X = 1,".toList]) = .ok ([],
      .inside ⟨"E", ⟨"A"⟩, [⟨"X", .literal 1, ⟨"B"⟩, .unexplained⟩]⟩ 3 none .absent) := by
    decide +kernel
  have hcomment : ¬ IsComment (trim "X = 1,".toList) := by
    unfold IsComment
    decide
  have hread : read "source" (ofLines strayComments) = .ok strayBlocks := by
    apply read_eq_ok_iff.mpr
    rw [ofLines, String.toList_ofList]
    exact ⟨none, by decide +kernel⟩
  obtain ⟨hblocks, hclear⟩ := read_outline "source" (ofLines strayComments)
  exact ⟨(hblocks strayBlocks).mp hread, _, hafter, hclear _ _ _ _ (by decide) hcomment hafter⟩

end ConstantCatalog.BlockText
