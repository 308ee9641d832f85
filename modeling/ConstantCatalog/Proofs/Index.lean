import Mathlib.Data.List.Induction
import ConstantCatalog.Index
import ConstantCatalog.Proofs.Keyed

/-! # Indices in step

An index is in step with a list when it has every name at the position where the name stands, and no
other name. Entering a new name at the end keeps both in step. A lookup then never leaves the list,
and it finds what a search through the list would find. -/

namespace ConstantCatalog.Index
set_option autoImplicit false

variable {π ρ α : Type} {x : Index π} {name other : String} {p : π}

/-! ## Entries -/

theorem position?_insert :
    (x.insert other p).position? name = if name = other then some p else x.position? name := by
  by_cases h : name = other
  · simp [position?, insert, h]
  · have hne : (name == other) = false := beq_eq_false_iff_ne.mpr h
    simp [position?, insert, List.lookup_cons, hne, h]

theorem position?_map (f : π → ρ) : (x.map f).position? name = (x.position? name).map f := by
  obtain ⟨entries⟩ := x
  induction entries with
  | nil => rfl
  | cons entry entries ih =>
    have hinsert : map f ⟨entry :: entries⟩ = (map f ⟨entries⟩).insert entry.1 (f entry.2) := rfl
    have hinsert' : (⟨entry :: entries⟩ : Index π) = insert ⟨entries⟩ entry.1 entry.2 := rfl
    rw [hinsert, hinsert', position?_insert, position?_insert, ih]
    split <;> rfl

theorem ofEntries_concat (entries : List (String × π)) :
    ofEntries (entries ++ [(other, p)]) = (ofEntries entries).insert other p := by
  rw [ofEntries, List.foldl_concat, ← ofEntries]

theorem isSome_position?_ofEntries {entries : List (String × π)} :
    ((ofEntries entries).position? name).isSome ↔ name ∈ entries.map (·.1) := by
  induction entries using List.reverseRecOn with
  | nil => exact iff_of_false nofun List.not_mem_nil
  | append_singleton entries entry ih =>
    rw [ofEntries_concat, position?_insert, List.map_append, List.mem_append, ← ih]
    by_cases h : name = entry.1
    · simp [h]
    · simp [h]

/-- Of distinct names each has the position that it was entered with. -/
theorem position?_ofEntries {entries : List (String × π)} (h : (entries.map (·.1)).Nodup) :
    (ofEntries entries).position? name = some p ↔ (name, p) ∈ entries := by
  induction entries using List.reverseRecOn with
  | nil => exact iff_of_false nofun List.not_mem_nil
  | append_singleton entries entry ih =>
    rw [List.map_append, List.nodup_append] at h
    obtain ⟨hentries, -, hfresh⟩ := h
    rw [ofEntries_concat, position?_insert, List.mem_append, List.mem_singleton]
    by_cases hname : name = entry.1
    · have hnot : (name, p) ∉ entries := fun hmem =>
        hfresh _ (List.mem_map_of_mem hmem) entry.1 (List.mem_singleton_self _) hname
      rw [if_pos hname, or_iff_right hnot, Prod.ext_iff, Option.some.injEq]
      exact ⟨fun hp => ⟨hname, hp.symm⟩, fun hp => hp.2.symm⟩
    · have hne : (name, p) ≠ entry := fun heq => hname (congrArg Prod.fst heq)
      rw [if_neg hname, or_iff_left hne, ih hentries]

/-! ## In step with a list -/

/-- Every name is entered where it stands, and nothing else is entered. -/
def InStep (x : Index Nat) (names : List String) : Prop :=
  ∀ name position, x.position? name = some position ↔ names[position]? = some name

namespace InStep
variable {x : Index Nat} {names : List String} {position : Nat}

theorem empty : (empty : Index Nat).InStep [] :=
  fun _ _ => iff_of_false nofun nofun

theorem nodup (h : x.InStep names) : names.Nodup := by
  rw [List.nodup_iff_getElem?_ne_getElem?]
  intro i j hij hj heq
  have hname := List.getElem?_eq_getElem hj
  have hi := (h _ i).mpr (heq.trans hname)
  rw [(h _ j).mpr hname] at hi
  exact Nat.ne_of_lt hij (Option.some.inj hi).symm

theorem contains_iff (h : x.InStep names) : x.contains name = true ↔ name ∈ names := by
  rw [contains, Option.isSome_iff_exists, List.mem_iff_getElem?]
  exact exists_congr fun position => h name position

theorem contains_eq_false_iff (h : x.InStep names) : x.contains name = false ↔ name ∉ names := by
  rw [← h.contains_iff, Bool.not_eq_true]

theorem position?_eq_none_iff (h : x.InStep names) : x.position? name = none ↔ name ∉ names := by
  rw [← h.contains_iff, contains, Option.not_isSome_iff_eq_none]

/-- A new name goes to the end of the list and is entered with the length it had. -/
theorem push (h : x.InStep names) (hfresh : name ∉ names) :
    (x.insert name names.length).InStep (names ++ [name]) := by
  intro other position
  rw [position?_insert]
  rcases Nat.lt_trichotomy position names.length with hlt | rfl | hgt
  · rw [List.getElem?_append_left hlt]
    by_cases hother : other = name
    · rw [if_pos hother, hother]
      have hne : names[position]? ≠ some name := fun hmem => hfresh (List.mem_of_getElem? hmem)
      exact iff_of_false (fun hlength => Nat.ne_of_gt hlt (Option.some.inj hlength)) hne
    · rw [if_neg hother]
      exact h other position
  · rw [List.getElem?_concat_length, Option.some.injEq]
    by_cases hother : other = name
    · exact iff_of_true (if_pos hother) hother.symm
    · rw [if_neg hother, h other, List.getElem?_eq_none (Nat.le_refl _)]
      exact iff_of_false nofun (Ne.symm hother)
  · have hnone : (names ++ [name])[position]? = none := by
      apply List.getElem?_eq_none
      rw [List.length_append, List.length_singleton]
      omega
    rw [hnone]
    by_cases hother : other = name
    · rw [if_pos hother]
      exact iff_of_false (fun hlength => Nat.ne_of_lt hgt (Option.some.inj hlength)) nofun
    · rw [if_neg hother, h other, List.getElem?_eq_none (Nat.le_of_lt hgt)]

section Elements
variable {elements : List α} {key : α → String} (h : x.InStep (elements.map key))
include h

/-- An entered position is in the list, with the name it was entered for. -/
theorem exists_getElem? (hposition : x.position? name = some position) :
    ∃ a, elements[position]? = some a ∧ key a = name := by
  have hname := (h name position).mp hposition
  rw [List.getElem?_map] at hname
  exact Option.map_eq_some_iff.mp hname

/-- A lookup finds what a search through the list finds, and never leaves the list. -/
theorem find?_eq_ok : x.find? elements name = .ok (elements.find? (key · == name)) := by
  cases hsearch : elements.find? (key · == name) with
  | none =>
    have hname : name ∉ elements.map key := by
      intro hmem
      obtain ⟨a, ha, hkey⟩ := List.mem_map.mp hmem
      exact Keyed.find?_eq_none_iff.mp hsearch a ha hkey
    simp only [find?, h.position?_eq_none_iff.mpr hname]
  | some a =>
    obtain ⟨ha, hkey⟩ := (Keyed.find?_eq_some_iff h.nodup).mp hsearch
    obtain ⟨position, hposition⟩ := List.mem_iff_getElem?.mp ha
    have hname : (elements.map key)[position]? = some name := by
      rw [List.getElem?_map, hposition, Option.map_some, hkey]
    simp only [find?, (h name position).mpr hname, hposition]

end Elements

end InStep

end ConstantCatalog.Index
