import Mathlib.Data.List.Nodup

/-! # Keyed lists

Looking for an element by a key. Where no two elements share a key, the first one with a key is the
only one, and the order of the list does not matter to the lookup. -/

namespace ConstantCatalog.Keyed
set_option autoImplicit false

variable {α κ : Type} [BEq κ] [LawfulBEq κ] {key : α → κ} {l : List α} {k : κ}

theorem find?_eq_some_iff (h : (l.map key).Nodup) {x : α} :
    l.find? (key · == k) = some x ↔ x ∈ l ∧ key x = k := by
  constructor
  · intro hfind
    exact ⟨List.mem_of_find?_eq_some hfind, by simpa using List.find?_some hfind⟩
  · intro ⟨hx, hk⟩
    obtain ⟨y, hy⟩ : ∃ y, l.find? (key · == k) = some y := by
      apply Option.isSome_iff_exists.mp
      rw [List.find?_isSome]
      exact ⟨x, hx, by simpa using hk⟩
    have hyk : key y = k := by simpa using List.find?_some hy
    have hyx : y = x := List.inj_on_of_nodup_map h (List.mem_of_find?_eq_some hy) hx
      (hyk.trans hk.symm)
    rw [hy, hyx]

theorem find?_eq_none_iff :
    l.find? (key · == k) = none ↔ ∀ x ∈ l, key x ≠ k := by
  simp

end ConstantCatalog.Keyed
