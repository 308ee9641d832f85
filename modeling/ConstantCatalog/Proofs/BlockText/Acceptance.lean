import ConstantCatalog.BlockText.Printer
import ConstantCatalog.Proofs.BlockText.Comments
import ConstantCatalog.Proofs.BlockText.Reader

/-! # Accepted texts

The reader accepts the texts of the grammar and no others. A step lemma for each class of lines says
when the reader gets past such a line and what it knows afterwards; the rest is an induction on the
lines, where each mode demands something of the lines that are left. -/

namespace ConstantCatalog.BlockText
set_option autoImplicit false
open Text

namespace Mode
variable {s : List Char} {number : Nat}

/-! ## Steps of the reader -/

theorem outside_step_comment (h : IsComment s) (number : Nat) (pending : Option Availability) :
    (outside pending).step number (.ofTrimmed s) = .ok (none, outside ((tagOf? s).or pending)) := by
  rcases h.cases with ⟨a, htag, -, hline⟩ | ⟨d, htag, -, hline⟩ | ⟨htag, -, hline⟩
  · rw [hline, htag]
    rfl
  · rw [hline, htag]
    rfl
  · rw [hline, htag]
    rfl

theorem inside_step_comment (h : IsComment s) (number : Nat) (b : Block) (openedAt : Nat)
    (pending : Option Availability) (d : Deprecation) :
    (inside b openedAt pending d).step number (.ofTrimmed s) =
      .ok (none, inside b openedAt ((tagOf? s).or pending) ((noteOf? s).getD d)) := by
  rcases h.cases with ⟨a, htag, hnote, hline⟩ | ⟨d', htag, hnote, hline⟩ | ⟨htag, hnote, hline⟩
  · rw [hline, htag, hnote]
    rfl
  · rw [hline, htag, hnote]
    rfl
  · rw [hline, htag, hnote]
    rfl

theorem outside_opening_eq_ok_iff {pending : Option Availability} {name : List Char} {next : Mode} :
    (outside pending).opening number name = .ok next ↔ isIdentifier name = true ∧
      ∃ a, pending = some a ∧ inside ⟨String.ofList name, a, []⟩ number none .absent = next := by
  cases hname : isIdentifier name with
  | false => simp [opening, hname]
  | true => cases pending <;> simp [opening, hname]

/-- Between two blocks only an opening line after a tag is taken, comments apart. -/
theorem outside_step_eq_ok_iff (hne : s ≠ []) (h : ¬ IsComment s) {pending : Option Availability}
    {completed : Option Block} {next : Mode} :
    (outside pending).step number (.ofTrimmed s) = .ok (completed, next) ↔
      ∃ a name, pending = some a ∧ Opens s name ∧ none = completed ∧
        inside ⟨String.ofList name, a, []⟩ number none .absent = next := by
  by_cases hopening : "typedef enum".toList <+: s
  · obtain ⟨rest, rfl⟩ := hopening
    simp only [Line.ofTrimmed_opening, opens_iff, step, Outcome.map_eq_ok,
      outside_opening_eq_ok_iff, Prod.mk.injEq]
    constructor
    · rintro ⟨_, ⟨hname, a, hpending, hnext⟩, hcompleted, rfl⟩
      exact ⟨a, _, hpending, ⟨rfl, hname⟩, hcompleted, hnext⟩
    · rintro ⟨a, _, hpending, ⟨rfl, hname⟩, hcompleted, hnext⟩
      exact ⟨next, ⟨hname, a, hpending, hnext⟩, hcompleted, rfl⟩
  · constructor
    · intro hstep
      by_cases hclosing : ['}'] <+: s
      · obtain ⟨rest, rfl⟩ := hclosing
        rw [List.singleton_append, Line.ofTrimmed_closing] at hstep
        cases hstep
      · have hmember : IsMember s := ⟨h, hopening, hclosing⟩
        rw [hmember.ofTrimmed hne] at hstep
        cases hstep
    · rintro ⟨a, name, -, hopens, -⟩
      exact absurd hopens.opening hopening

theorem inside_step_member (hne : s ≠ []) (h : IsMember s) {b : Block} {openedAt : Nat}
    {pending : Option Availability} {d : Deprecation} {completed : Option Block} {next : Mode} :
    (inside b openedAt pending d).step number (.ofTrimmed s) = .ok (completed, next) ↔
      ∃ name rightSide, readDeclaration s = .ok (name, rightSide) ∧ none = completed ∧
        inside (b.add ⟨name, rightSide, pending.getD b.availability, d⟩) openedAt none .absent =
          next := by
  rw [h.ofTrimmed hne, step, declaration]
  cases hread : readDeclaration s with
  | error malformation => simp [bind, Except.bind, Except.map]
  | ok sides =>
    obtain ⟨name, rightSide⟩ := sides
    simp [bind, Except.bind, Except.map, pure, Except.pure]

/-- In a block the lines that are neither comments nor members have to close it. -/
theorem inside_step_closing (hcomment : ¬ IsComment s) (hmember : ¬ IsMember s)
    {b : Block} {openedAt : Nat} {pending : Option Availability} {d : Deprecation}
    {completed : Option Block} {next : Mode} :
    (inside b openedAt pending d).step number (.ofTrimmed s) = .ok (completed, next) ↔
      Closes s b.name.toList ∧ some b = completed ∧ start = next := by
  by_cases hopening : "typedef enum".toList <+: s
  · constructor
    · intro hstep
      obtain ⟨rest, rfl⟩ := hopening
      rw [Line.ofTrimmed_opening] at hstep
      cases hstep
    · rintro ⟨hcloses, -⟩
      exact absurd hcloses.closing (not_closing_of_opening hopening)
  · have hclosing : ['}'] <+: s := by
      by_contra hclosing
      exact hmember ⟨hcomment, hopening, hclosing⟩
    obtain ⟨rest, rfl⟩ := hclosing
    rw [List.singleton_append, Line.ofTrimmed_closing, closes_iff, step, closing]
    by_cases hname : Line.nameBefore ';' rest = b.name.toList
    · simp [hname, Except.map]
    · have hne : String.ofList (Line.nameBefore ';' rest) ≠ b.name := by
        intro heq
        exact hname (by rw [← heq, String.toList_ofList])
      simp [hname, hne, Except.map]

/-! ## The run -/

/-- What the rest of a text has to be for the reader to accept it from this mode. -/
def Demands : Mode → List (List Char) → Prop
  | outside pending, ss => Awaits (pending.isSome = true) ss
  | inside block .., ss => EndsBlock block.name.toList ss

/-- The reader gets past the line, and accepts the rest from where it is then. -/
def Passes (m : Mode) (number : Nat) (s : List Char) (ss : List (List Char)) : Prop :=
  ∃ completed next, m.step number (.ofTrimmed s) = .ok (completed, next) ∧ next.Demands ss

theorem start_demands_iff {ss : List (List Char)} : start.Demands ss ↔ Document ss := by
  rw [document_iff]
  simp [start, Demands]

variable {ss : List (List Char)}

theorem demands_comment (m : Mode) (h : IsComment s) :
    m.Demands (s :: ss) ↔ m.Passes number s ss := by
  cases m with
  | outside pending =>
    have htagged : pending.isSome = true ∨ IsTag s ↔ ((tagOf? s).or pending).isSome = true := by
      rw [Option.isSome_or, Bool.or_eq_true, isSome_tagOf?_iff, or_comm]
    rw [Passes, outside_step_comment h, Demands, awaits_comment h, propext htagged]
    simp [Demands]
  | inside b openedAt pending d =>
    rw [Passes, inside_step_comment h, Demands, endsBlock_inner (Or.inl h)]
    simp [Demands]

theorem outside_demands_cons (hne : s ≠ []) (h : ¬ IsComment s) (pending : Option Availability) :
    (outside pending).Demands (s :: ss) ↔ (outside pending).Passes number s ss := by
  rw [Demands, awaits_cons h]
  constructor
  · rintro ⟨hpending, name, hopens, hrest⟩
    obtain ⟨a, rfl⟩ := Option.isSome_iff_exists.mp hpending
    refine ⟨_, _, (outside_step_eq_ok_iff hne h).mpr ⟨a, name, rfl, hopens, rfl, rfl⟩, ?_⟩
    rwa [Demands, String.toList_ofList]
  · rintro ⟨completed, next, hstep, hrest⟩
    obtain ⟨a, name, rfl, hopens, -, rfl⟩ := (outside_step_eq_ok_iff hne h).mp hstep
    rw [Demands, String.toList_ofList] at hrest
    exact ⟨rfl, name, hopens, hrest⟩

theorem inside_demands_member (hne : s ≠ []) (h : IsMember s) (b : Block) (openedAt : Nat)
    (pending : Option Availability) (d : Deprecation) :
    (inside b openedAt pending d).Demands (s :: ss) ↔
      (inside b openedAt pending d).Passes number s ss := by
  constructor
  · intro hdemands
    by_cases hdeclares : Declares s
    · obtain ⟨⟨name, rightSide⟩, hread⟩ := (declares_iff h).mp hdeclares
      refine ⟨_, _, (inside_step_member hne h).mpr ⟨name, rightSide, hread, rfl, rfl⟩, ?_⟩
      exact (endsBlock_inner (Or.inr hdeclares)).mp hdemands
    · have hcloses := (endsBlock_cons (not_or.mpr ⟨h.notComment, hdeclares⟩)).mp hdemands
      exact absurd hcloses.1.closing h.notClosing
  · rintro ⟨completed, next, hstep, hrest⟩
    obtain ⟨name, rightSide, hread, -, rfl⟩ := (inside_step_member hne h).mp hstep
    have hdeclares := (declares_iff h).mpr ⟨(name, rightSide), hread⟩
    exact (endsBlock_inner (Or.inr hdeclares)).mpr hrest

theorem inside_demands_closing (hcomment : ¬ IsComment s) (hmember : ¬ IsMember s) (b : Block)
    (openedAt : Nat) (pending : Option Availability) (d : Deprecation) :
    (inside b openedAt pending d).Demands (s :: ss) ↔
      (inside b openedAt pending d).Passes number s ss := by
  have hinner : ¬ (IsComment s ∨ Declares s) := by
    rintro (h | h)
    · exact hcomment h
    · exact hmember h.toIsMember
  rw [Demands, endsBlock_cons hinner, ← start_demands_iff]
  constructor
  · rintro ⟨hcloses, hrest⟩
    exact ⟨_, _, (inside_step_closing hcomment hmember).mpr ⟨hcloses, rfl, rfl⟩, hrest⟩
  · rintro ⟨completed, next, hstep, hrest⟩
    obtain ⟨hcloses, -, rfl⟩ := (inside_step_closing hcomment hmember).mp hstep
    exact ⟨hcloses, hrest⟩

/-- The reader gets past a line exactly when its mode demands such a line. -/
theorem demands_cons (m : Mode) (number : Nat) (hne : s ≠ []) :
    m.Demands (s :: ss) ↔ m.Passes number s ss := by
  by_cases hcomment : IsComment s
  · exact demands_comment m hcomment
  · cases m with
    | outside pending => exact outside_demands_cons hne hcomment pending
    | inside b openedAt pending d =>
      by_cases hmember : IsMember s
      · exact inside_demands_member hne hmember b openedAt pending d
      · exact inside_demands_closing hcomment hmember b openedAt pending d

end Mode

theorem isOk_readFrom_cons {m : Mode} {number : Nat} {text : List Char} {texts : List (List Char)} :
    (∃ blocks, readFrom m number (text :: texts) = .ok blocks) ↔ ∃ completed next,
      m.step number (.ofText text) = .ok (completed, next) ∧
        ∃ blocks, readFrom next (number + 1) texts = .ok blocks := by
  rw [readFrom]
  cases m.step number (.ofText text) with
  | error malformation => simp
  | ok result =>
    obtain ⟨completed, next⟩ := result
    simp only [Outcome.map_eq_ok, Except.ok.injEq, Prod.mk.injEq]
    constructor
    · rintro ⟨blocks, tail, htail, -⟩
      exact ⟨completed, next, ⟨rfl, rfl⟩, tail, htail⟩
    · rintro ⟨_, _, ⟨rfl, rfl⟩, tail, htail⟩
      exact ⟨_, tail, htail, rfl⟩

/-- The reader accepts exactly what its mode demands. -/
theorem isOk_readFrom_iff (m : Mode) (number : Nat) (texts : List (List Char)) :
    (∃ blocks, readFrom m number texts = .ok blocks) ↔ m.Demands (sentences texts) := by
  induction texts generalizing m number with
  | nil =>
    cases m with
    | outside pending => exact iff_of_true ⟨[], rfl⟩ (awaits_nil _)
    | inside block openedAt pending deprecation =>
      apply iff_of_false
      · rintro ⟨blocks, h⟩
        cases h
      · exact not_endsBlock_nil _
  | cons text texts ih =>
    rw [isOk_readFrom_cons, Line.ofText]
    by_cases hblank : trim text = []
    · rw [sentences_of_blank hblank, ← ih m (number + 1), hblank]
      simp [Line.ofTrimmed, Mode.step]
    · rw [sentences_cons hblank, Mode.demands_cons m number hblank, Mode.Passes]
      simp only [ih]

/-- The reader accepts exactly the texts of the grammar, whatever their source is called. -/
theorem read_accepts_iff (source text : String) :
    (∃ blocks, read source text = .ok blocks) ↔ Document (sentences (lines text.toList)) := by
  rw [← Mode.start_demands_iff, ← isOk_readFrom_iff .start 1]
  simp only [read, Outcome.mapError_eq_ok, blocksOf]

/-- Blanks and braces that a reader would expect may be missing, and commas may be repeated. -/
example : (read "source" (ofLines ["//Provided by VK_A".toList, "typedef enumE".toList,
    " X=+1".toList, " Y=X,,".toList, '}' :: "E;;".toList])).isOk = true := by
  decide +kernel

end ConstantCatalog.BlockText
