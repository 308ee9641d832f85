/-! # Separators and occurrences

Cutting a text at a separator, and looking for one text inside another. A separator is written
`first :: more`, so that it is never empty and every cut leaves a shorter rest. -/

namespace ConstantCatalog.Text
set_option autoImplicit false

/-- The parts before and after the first occurrence of `first :: more`. -/
def cut? (first : Char) (more : List Char) : List Char → Option (List Char × List Char)
  | [] => none
  | c :: s =>
    match (first :: more).isPrefixOf? (c :: s) with
    | some rest => some ([], rest)
    | none => (cut? first more s).map fun (left, right) => (c :: left, right)

theorem length_of_isPrefixOf? (t : List Char) :
    ∀ {s rest : List Char}, t.isPrefixOf? s = some rest → rest.length + t.length = s.length := by
  induction t with
  | nil =>
    intro s rest h
    cases h
    rfl
  | cons c t ih =>
    intro s rest h
    cases s with
    | nil => cases h
    | cons d s =>
      change (if c == d then t.isPrefixOf? s else none) = some rest at h
      split at h
      · have := ih h
        simp only [List.length_cons]
        omega
      · cases h

theorem length_of_cut? {first : Char} {more : List Char} :
    ∀ {s left right : List Char}, cut? first more s = some (left, right) →
      right.length < s.length := by
  intro s
  induction s with
  | nil => intro left right h; simp [cut?] at h
  | cons c s ih =>
    intro left right h
    rw [cut?] at h
    split at h
    · rename_i rest hp
      simp only [Option.some.injEq, Prod.mk.injEq] at h
      have := length_of_isPrefixOf? _ hp
      simp only [List.length_cons] at this ⊢
      rw [← h.2]
      omega
    · simp only [Option.map_eq_some_iff, Prod.exists, Prod.mk.injEq] at h
      obtain ⟨l, r, hlr, -, rfl⟩ := h
      have := ih hlr
      simp; omega

/-- The pieces between the occurrences of `first :: more`, which are taken from left to right and
do not overlap. -/
def pieces (first : Char) (more : List Char) (s : List Char) : List (List Char) :=
  match _h : cut? first more s with
  | none => [s]
  | some (left, right) => left :: pieces first more right
termination_by s.length
decreasing_by exact length_of_cut? _h

/-- Whether `part` stands somewhere in the text, its neighbours being of no account. -/
def occursIn (part : List Char) : List Char → Bool
  | [] => part.isEmpty
  | c :: s => part.isPrefixOf (c :: s) || occursIn part s

end ConstantCatalog.Text
