import ConstantCatalog.Catalog.Load
import ConstantCatalog.Proofs.Enumeration.Members

/-! # Loaded catalogs

What loading guarantees of a catalog: its index is in step with its enumerations, and each of them
is what some block resolves to. Adding one block keeps this, and so does loading any number of them.
Lookups of a loaded catalog thus find what stands under a name, and never read beyond the end. -/

namespace ConstantCatalog
set_option autoImplicit false

theorem Logged.outcome_bind_eq_ok {α β : Type} {x : Logged α} {f : α → Logged β} {b : β} :
    (x >>= f).outcome = .ok b ↔ ∃ a, x.outcome = .ok a ∧ (f a).outcome = .ok b := by
  rw [Logged.outcome_bind]
  exact Outcome.bind_eq_ok

theorem Logged.outcome_bind_eq_error {α β : Type} {x : Logged α} {f : α → Logged β}
    {fault : Fault} : (x >>= f).outcome = .error fault ↔
      x.outcome = .error fault ∨ ∃ a, x.outcome = .ok a ∧ (f a).outcome = .error fault := by
  rw [Logged.outcome_bind]
  exact Outcome.bind_eq_error

def Enumeration.loadEvents (o : Options) (e : Enumeration) : List Log.Event :=
  e.memberEvents o ++ [.loaded e.name e.size e.aliasCount]

namespace Catalog

/-- The index is in step with the enumerations, and each of them is sound. -/
structure Sound (c : Catalog) : Prop where
  index : c.index.InStep (c.enumerations.map (·.name))
  enumerations : ∀ e ∈ c.enumerations, e.Sound

variable {o : Options} {c c' : Catalog} {b : Block} {blocks : List Block} {name : String}

/-! ## Adding a block -/

def push (c : Catalog) (e : Enumeration) : Catalog :=
  ⟨c.enumerations ++ [e], c.index.insert e.name c.enumerations.length⟩

theorem push_enumerations {e : Enumeration} :
    (c.push e).enumerations = c.enumerations ++ [e] := rfl

theorem add_of_repeated (h : c.index.contains b.name = true) :
    c.add o b = ⟨.error (.repeatedEnumeration b.name), []⟩ := by
  rw [add, if_pos h]
  rfl

theorem add_of_fresh (h : c.index.contains b.name = false) : c.add o b =
    match b.resolve with
    | .ok e => ⟨.ok (c.push e), e.loadEvents o⟩
    | .error f => ⟨.error f, []⟩ := by
  rw [add, if_neg (Bool.eq_false_iff.mp h), Block.resolveReported]
  cases hresolve : b.resolve with
  | error f =>
    rw [Logged.bind_of_error rfl, Logged.bind_of_error rfl]
    rfl
  | ok e =>
    rw [Logged.bind_of_ok rfl, Logged.bind_of_ok rfl, Logged.bind_of_ok rfl, Logged.bind_of_ok rfl]
    simp [Enumeration.loadEvents, push]

theorem add_eq_ok_iff : (c.add o b).outcome = .ok c' ↔
    c.index.contains b.name = false ∧ ∃ e, b.resolve = .ok e ∧ c' = c.push e := by
  cases hname : c.index.contains b.name with
  | true => simp [add_of_repeated hname]
  | false =>
    rw [add_of_fresh hname]
    cases b.resolve <;> simp [eq_comm]

theorem add_eq_error_iff {f : Fault} : (c.add o b).outcome = .error f ↔
    (c.index.contains b.name = true ∧ f = .repeatedEnumeration b.name) ∨
      (c.index.contains b.name = false ∧ b.resolve = .error f) := by
  cases hname : c.index.contains b.name with
  | true => simp [add_of_repeated hname, eq_comm]
  | false =>
    rw [add_of_fresh hname]
    cases b.resolve <;> simp

/-! ## What loading keeps -/

theorem Sound.names_nodup (h : c.Sound) : (c.enumerations.map (·.name)).Nodup := h.index.nodup

theorem Sound.contains_iff (h : c.Sound) :
    c.index.contains name = true ↔ name ∈ c.enumerations.map (·.name) :=
  h.index.contains_iff

theorem Sound.contains_eq_false_iff (h : c.Sound) :
    c.index.contains name = false ↔ name ∉ c.enumerations.map (·.name) :=
  h.index.contains_eq_false_iff

theorem Sound.empty : Sound .empty where
  index := Index.InStep.empty
  enumerations := by simp [Catalog.empty]

theorem Sound.push (h : c.Sound) {e : Enumeration} (he : e.Sound)
    (hfresh : e.name ∉ c.enumerations.map (·.name)) : (c.push e).Sound where
  index := by
    have hstep := h.index.push hfresh
    rw [List.length_map] at hstep
    rwa [push_enumerations, List.map_append, List.map_singleton]
  enumerations := by
    rw [push_enumerations]
    intro e' he'
    rcases List.mem_append.mp he' with he' | he'
    · exact h.enumerations e' he'
    · rwa [List.mem_singleton.mp he']

theorem Sound.add (h : c.Sound) (hadd : (c.add o b).outcome = .ok c') : c'.Sound := by
  obtain ⟨hfresh, e, he, rfl⟩ := add_eq_ok_iff.mp hadd
  rw [h.contains_eq_false_iff, ← (Block.resolves_of_resolve he).name] at hfresh
  exact h.push (Block.sound_of_resolve he) hfresh

theorem Sound.addAll (h : c.Sound) (hadd : (c.addAll o blocks).outcome = .ok c') : c'.Sound := by
  induction blocks generalizing c with
  | nil =>
    cases hadd
    exact h
  | cons b blocks ih =>
    obtain ⟨next, hnext, hrest⟩ := Logged.outcome_bind_eq_ok.mp hadd
    exact ih (h.add hnext) hrest

theorem sound_of_load (h : (load o blocks).outcome = .ok c) : c.Sound :=
  Sound.empty.addAll h

/-! ## Looking up an enumeration -/

/-- A lookup answers with the enumeration that a search finds, or else that there is none. -/
theorem Sound.enumeration_eq (h : c.Sound) (name : String) :
    c.enumeration name = match c.enumerations.find? (·.name == name) with
      | some e => .ok e
      | none => .error (.unknownEnumeration name) := by
  rw [enumeration, find?, h.index.find?_eq_ok]
  rfl

theorem Sound.enumeration_eq_ok_iff (h : c.Sound) {e : Enumeration} :
    c.enumeration name = .ok e ↔ e ∈ c.enumerations ∧ e.name = name := by
  rw [h.enumeration_eq, ← Keyed.find?_eq_some_iff h.names_nodup]
  cases c.enumerations.find? (·.name == name) <;> simp

theorem Sound.enumeration_eq_error_iff (h : c.Sound) {f : Fault} :
    c.enumeration name = .error f ↔
      name ∉ c.enumerations.map (·.name) ∧ f = .unknownEnumeration name := by
  have hnone : c.enumerations.find? (·.name == name) = none ↔
      name ∉ c.enumerations.map (·.name) := by simp
  rw [h.enumeration_eq, ← hnone]
  cases c.enumerations.find? (·.name == name) <;> simp [eq_comm]

end Catalog

end ConstantCatalog
