import ConstantCatalog.BlockText.Reader

/-! # Line numbers

The reader does nothing with the number of a line but keep it for a complaint. Lines that are
numbered otherwise, and that still follow one another, are read as the same blocks, and a complaint
about them is the same but for its number. -/

namespace ConstantCatalog.BlockText
set_option autoImplicit false

/-- The mode after lines that had the number `f n` in place of `n`. -/
def Mode.renumber (f : Nat → Nat) : Mode → Mode
  | outside pending => outside pending
  | inside block openedAt pending deprecation => inside block (f openedAt) pending deprecation

def Complaint.renumber (f : Nat → Nat) (c : Complaint) : Complaint :=
  ⟨f c.line, c.malformation⟩

variable (f : Nat → Nat)

theorem Mode.opening_renumber (m : Mode) (number : Nat) (name : List Char) :
    (m.renumber f).opening (f number) name = (m.opening number name).map (renumber f) := by
  cases m with
  | inside block openedAt pending deprecation => rfl
  | outside pending =>
    simp only [renumber, opening]
    cases isIdentifier name with
    | false => rfl
    | true => cases pending <;> rfl

theorem Mode.closing_renumber (m : Mode) (name : List Char) :
    (m.renumber f).closing name = m.closing name := by
  cases m <;> rfl

theorem Mode.declaration_renumber (m : Mode) (text : List Char) :
    (m.renumber f).declaration text = (m.declaration text).map (renumber f) := by
  cases m with
  | outside pending => rfl
  | inside block openedAt pending deprecation =>
    rw [renumber, declaration, declaration]
    cases readDeclaration text <;> rfl

theorem Mode.step_renumber (m : Mode) (number : Nat) (line : Line) :
    (m.renumber f).step (f number) line =
      (m.step number line).map fun (completed, next) => (completed, next.renumber f) := by
  cases line with
  | blank => rfl
  | remark => rfl
  | tag a => cases m <;> rfl
  | note d => cases m <;> rfl
  | opening name =>
    rw [step, step, opening_renumber]
    cases m.opening number name <;> rfl
  | closing name =>
    rw [step, step, closing_renumber]
    cases m.closing name <;> rfl
  | declaration text =>
    rw [step, step, declaration_renumber]
    cases m.declaration text <;> rfl

theorem readFrom_renumber (m : Mode) (number : Nat) (texts : List (List Char))
    (hf : ∀ n ≥ number, f (n + 1) = f n + 1) :
    readFrom (m.renumber f) (f number) texts =
      (readFrom m number texts).mapError (·.renumber f) := by
  induction texts generalizing m number with
  | nil => cases m <;> rfl
  | cons text texts ih =>
    rw [readFrom, readFrom, Mode.step_renumber]
    cases m.step number (.ofText text) with
    | error malformation => rfl
    | ok result =>
      obtain ⟨completed, next⟩ := result
      have hrest := ih next (number + 1) fun n hn => hf n (by omega)
      rw [hf number (Nat.le_refl number)] at hrest
      change (readFrom (next.renumber f) (f number + 1) texts).map _ =
        ((readFrom next (number + 1) texts).map _).mapError _
      rw [hrest]
      cases readFrom next (number + 1) texts <;> rfl

end ConstantCatalog.BlockText
