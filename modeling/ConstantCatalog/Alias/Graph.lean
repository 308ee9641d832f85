/-! # Alias graphs

The members of an enumeration by index, each with a literal or with a reference to another member.
`EndsAt` says where a chain of references ends; it does not say how to find that out. -/

namespace ConstantCatalog.Alias
set_option autoImplicit false

/-- Where the value of a member comes from. -/
inductive Edge (n : Nat) where
  | literal (value : Int32)
  | reference (target : Fin n)
  deriving DecidableEq

abbrev Graph (n : Nat) := Fin n → Edge n

/-- A value and the member whose literal it is. -/
structure Origin (n : Nat) where
  value : Int32
  index : Fin n
  deriving DecidableEq

variable {n : Nat}

/-- The references from the first member on end at the literal of the given origin. -/
inductive EndsAt (g : Graph n) : Fin n → Origin n → Prop where
  | literal {i : Fin n} {value : Int32} : g i = .literal value → EndsAt g i ⟨value, i⟩
  | reference {i target : Fin n} {origin : Origin n} :
      g i = .reference target → EndsAt g target origin → EndsAt g i origin

/-- A chain of references ends at most once. -/
theorem EndsAt.unique {g : Graph n} {i : Fin n} {a b : Origin n}
    (ha : EndsAt g i a) (hb : EndsAt g i b) : a = b := by
  induction ha with
  | literal h =>
    cases hb with
    | literal h' => rw [h] at h'; cases h'; rfl
    | reference h' _ => rw [h] at h'; cases h'
  | reference h _ ih =>
    cases hb with
    | literal h' => rw [h] at h'; cases h'
    | reference h' hb => rw [h] at h'; cases h'; exact ih hb

end ConstantCatalog.Alias
