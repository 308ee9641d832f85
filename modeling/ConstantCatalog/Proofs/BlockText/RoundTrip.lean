import ConstantCatalog.Proofs.BlockText.Reader
import ConstantCatalog.Proofs.BlockText.Written

/-! # Reading what was written

The reader takes the lines of a member back to that member, and so by induction on members and
blocks the written text to the blocks. Nothing that a member's comments said is left for the next
one. -/

namespace ConstantCatalog.BlockText
set_option autoImplicit false
open Text

namespace Mode

/-- The texts are lines that complete the blocks and lead the reader from one mode to another. -/
structure Takes (m : Mode) (number : Nat) (texts : List (List Char)) (blocks : List Block)
    (last : Mode) : Prop where
  areLines : ∀ text ∈ texts, IsLine text
  after : m.after number texts = .ok (blocks, last)

variable {m next last : Mode} {number : Nat}

theorem Takes.nil : m.Takes number [] [] m where
  areLines := by simp
  after := rfl

theorem Takes.append {texts rest : List (List Char)} {blocks blocks' : List Block}
    (h : m.Takes number texts blocks next)
    (h' : next.Takes (number + texts.length) rest blocks' last) :
    m.Takes number (texts ++ rest) (blocks ++ blocks') last where
  areLines := by
    intro text ht
    rcases List.mem_append.mp ht with ht | ht
    · exact h.areLines text ht
    · exact h'.areLines text ht
  after := after_append h.after h'.after

theorem takes_singleton {text : List Char} {line : Line} (h : Says text line)
    {completed : Option Block} (hstep : m.step number line = .ok (completed, next)) :
    m.Takes number [text] completed.toList next where
  areLines := by
    intro t ht
    rw [List.mem_singleton.mp ht]
    exact h.isLine
  after := by
    rw [← h.ofText] at hstep
    rw [after_cons hstep]
    simp [Mode.after, Except.map]

variable (number)

section Member
variable (b : Block) (openedAt : Nat)

/-- A tag that is left out is the one of the block. -/
theorem takes_tag (form : Form) {a : Availability} (h : a.Writable) :
    ∃ pending, pending.getD b.availability = a ∧ (inside b openedAt none .absent).Takes number
      (if form.tagged || a ≠ b.availability then [tagLine a] else []) []
      (inside b openedAt pending .absent) := by
  by_cases htagged : (form.tagged || a ≠ b.availability) = true
  · rw [if_pos htagged]
    exact ⟨some a, rfl, takes_singleton (says_tagLine h) rfl⟩
  · rw [if_neg htagged]
    simp only [Bool.or_eq_true, decide_eq_true_eq, not_or, ne_eq, not_not] at htagged
    exact ⟨none, htagged.2.symm, Takes.nil⟩

theorem takes_noteLines {name : String} (h : isIdentifier name.toList = true) (d : Deprecation)
    (pending : Option Availability) :
    (inside b openedAt pending .absent).Takes number (noteLines name d) []
      (inside b openedAt pending d) := by
  cases d with
  | absent => exact Takes.nil
  | renamed => exact takes_singleton (says_of_mem_noteLines h List.mem_cons_self) rfl
  | unexplained => exact takes_singleton (says_of_mem_noteLines h List.mem_cons_self) rfl

theorem takes_declarationLine (form : Form) {d : Declaration} (h : d.Writable)
    {pending : Option Availability} (hpending : pending.getD b.availability = d.availability) :
    (inside b openedAt pending d.deprecation).Takes number [declarationLine form d] []
      (inside (b.add d) openedAt none .absent) := by
  have hstep : (inside b openedAt pending d.deprecation).step number
      (.declaration (declarationLine form d)) =
        .ok (none, inside (b.add d) openedAt none .absent) := by
    simp only [step, declaration, readDeclaration_declarationLine form h, hpending]
    rfl
  exact takes_singleton (says_declarationLine form h) hstep

theorem takes_memberLines (form : Form) {d : Declaration} (h : d.Writable) :
    (inside b openedAt none .absent).Takes number (memberLines form b.availability d) []
      (inside (b.add d) openedAt none .absent) := by
  obtain ⟨pending, hpending, htag⟩ := takes_tag number b openedAt form h.availability
  have hnote := htag.append (takes_noteLines _ b openedAt h.name d.deprecation pending)
  exact hnote.append (takes_declarationLine _ b openedAt form h hpending)

theorem takes_members (forms : Nat → Form) {ds : List Declaration} (h : ∀ d ∈ ds, d.Writable)
    (first : Nat) : (inside b openedAt none .absent).Takes number
      ((ds.zipIdx first).flatMap fun (d, i) => memberLines (forms i) b.availability d) []
      (inside { b with members := b.members ++ ds } openedAt none .absent) := by
  induction ds generalizing b number first with
  | nil =>
    rw [List.append_nil]
    exact Takes.nil
  | cons d ds ih =>
    have hd := takes_memberLines number b openedAt (forms first) (h d List.mem_cons_self)
    have hds := ih (number + (memberLines (forms first) b.availability d).length) (b.add d)
      (fun e he => h e (List.mem_cons_of_mem d he)) (first + 1)
    have hmembers : { b.add d with members := (b.add d).members ++ ds } =
        { b with members := b.members ++ d :: ds } := by simp [Block.add]
    rw [hmembers] at hds
    rw [List.zipIdx_cons, List.flatMap_cons]
    exact hd.append hds

end Member

theorem takes_opening {name : String} (h : isIdentifier name.toList = true) (a : Availability) :
    (outside (some a)).Takes number [openingLine name.toList] []
      (inside ⟨name, a, []⟩ number none .absent) := by
  have hstep : (outside (some a)).step number (.opening name.toList) =
      .ok (none, inside ⟨name, a, []⟩ number none .absent) := by
    simp only [step, opening, h, String.ofList_toList]
    rfl
  exact takes_singleton (says_opening h) hstep

theorem takes_closing {b : Block} (h : isIdentifier b.name.toList = true) (openedAt : Nat)
    (pending : Option Availability) (d : Deprecation) :
    (inside b openedAt pending d).Takes number [closingLine b.name.toList] [b] start := by
  have hstep : (inside b openedAt pending d).step number (.closing b.name.toList) =
      .ok (some b, start) := by
    simp only [step, closing, String.ofList_toList, if_true]
    rfl
  exact takes_singleton (says_closing h) hstep

theorem takes_blockLines (forms : Nat → Form) {b : Block} (h : b.Writable) :
    start.Takes number (blockLines forms b) [b] start := by
  have htag : start.Takes number [tagLine b.availability] [] (outside (some b.availability)) :=
    takes_singleton (says_tagLine h.availability) rfl
  have hopen := htag.append (takes_opening _ h.name b.availability)
  have hmembers := hopen.append (takes_members _ _ _ forms h.members 0)
  exact hmembers.append (takes_closing _ h.name _ none .absent)

theorem takes_blocks (forms : Nat → Nat → Form) {bs : List Block} (h : ∀ b ∈ bs, b.Writable)
    (first : Nat) : start.Takes number
      ((bs.zipIdx first).flatMap fun (b, i) => blockLines (forms i) b) bs start := by
  induction bs generalizing number first with
  | nil => exact Takes.nil
  | cons b bs ih =>
    have hb := takes_blockLines number (forms first) (h b List.mem_cons_self)
    rw [List.zipIdx_cons, List.flatMap_cons]
    exact hb.append (ih _ (fun c hc => h c (List.mem_cons_of_mem b hc)) (first + 1))

end Mode

/-- What was written is read as the blocks it was written for. -/
theorem read_print (source : String) (forms : Nat → Nat → Form) (blocks : List Block)
    (h : ∀ b ∈ blocks, b.Writable) : read source (print forms blocks) = .ok blocks := by
  have htakes := Mode.takes_blocks 1 forms h 0
  apply read_eq_ok_iff.mpr
  refine ⟨none, ?_⟩
  rw [print, ofLines, String.toList_ofList, lines_unlines htakes.areLines]
  exact htakes.after

/-- Blocks whose names repeat and whose references lead nowhere or in a circle. -/
def unresolvable : List Block :=
  [⟨"Empty", ⟨"VK_VERSION_1_0"⟩, []⟩,
   ⟨"Mixed", ⟨"VK_KHR_a, VK_KHR_b"⟩,
    [⟨"LEAST", .literal Int32.minValue, ⟨"VK_KHR_a, VK_KHR_b"⟩, .absent⟩,
     ⟨"LEAST", .reference "GONE", ⟨"is deprecated"⟩, .unexplained⟩,
     ⟨"_0", .reference "_0", ⟨"VK_KHR_a, VK_KHR_b"⟩, .renamed⟩]⟩,
   ⟨"Empty", ⟨"VK_VERSION_1_1"⟩, []⟩]

theorem read_print_unresolvable : (∀ b ∈ unresolvable, b.Writable) ∧
    read "source" (print (fun _ i => ⟨false, i == 0⟩) unresolvable) = .ok unresolvable := by
  have hwritable : ∀ b ∈ unresolvable, b.Writable := by decide
  exact ⟨hwritable, read_print "source" _ unresolvable hwritable⟩

end ConstantCatalog.BlockText
