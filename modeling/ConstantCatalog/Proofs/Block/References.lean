import Mathlib.Data.List.Nodup
import Mathlib.Logic.Relation
import ConstantCatalog.Enumeration.Resolve
import ConstantCatalog.Proofs.Alias.Loop
import ConstantCatalog.Proofs.Index

/-! # References in a block

What the names of a block say by themselves: which member refers to which, and where that ends. The
alias graph of a block says the same once its names are distinct. -/

namespace ConstantCatalog.Block
set_option autoImplicit false
open Alias

variable {b : Block}

def NamesDistinct (b : Block) : Prop := (b.members.map (·.name)).Nodup

def TargetsDeclared (b : Block) : Prop :=
  ∀ d ∈ b.members, ∀ target, d.rightSide = .reference target → ∃ m ∈ b.members, m.name = target

/-- The member at index `i` is an alias whose target is the name of the member at index `j`. -/
def Refers (b : Block) (i j : Fin b.members.length) : Prop :=
  (b.members.get i).rightSide = .reference (b.members.get j).name

/-- Following alias targets from index `i` ends at index `j`, where the literal `value` stands. -/
structure EndsAt (b : Block) (i j : Fin b.members.length) (value : Int32) : Prop where
  reaches : Relation.ReflTransGen b.Refers i j
  literal : (b.members.get j).rightSide = .literal value

theorem NamesDistinct.eq_of_name (h : b.NamesDistinct) {i j : Fin b.members.length}
    (hij : (b.members.get i).name = (b.members.get j).name) : i = j := by
  have hi : i.val < (b.members.map (·.name)).length := by simp
  have hj : j.val < (b.members.map (·.name)).length := by simp
  have hget : (b.members.map (·.name)).get ⟨i.val, hi⟩ =
      (b.members.map (·.name)).get ⟨j.val, hj⟩ := by
    simpa using hij
  apply Fin.ext
  exact Fin.mk.inj (List.nodup_iff_injective_get.mp h hget)

theorem refers_rightUnique (h : b.NamesDistinct) : Relator.RightUnique b.Refers := by
  intro i j k hj hk
  exact h.eq_of_name (RightSide.reference.inj (hj.symm.trans hk))

/-! ## The index -/

theorem names_entered (b : Block) :
    ((List.finRange b.members.length).map fun i => ((b.members.get i).name, i)).map (·.1) =
      b.members.map (·.name) := by
  conv => rhs; rw [← List.map_get_finRange b.members]
  simp only [List.map_map, Function.comp_def]

theorem indexOf?_isSome_iff {name : String} :
    (b.indexOf? name).isSome ↔ ∃ m ∈ b.members, m.name = name := by
  rw [indexOf?, index, Index.isSome_position?_ofEntries, names_entered, List.mem_map]

theorem indexOf?_eq_some_iff (h : b.NamesDistinct) {name : String} {i : Fin b.members.length} :
    b.indexOf? name = some i ↔ (b.members.get i).name = name := by
  rw [indexOf?, index, Index.position?_ofEntries (by rwa [names_entered])]
  simp

/-- Distinct names are entered where they stand. -/
theorem inStep_index (h : b.NamesDistinct) :
    (b.index.map (·.val)).InStep (b.members.map (·.name)) := by
  intro name position
  rw [Index.position?_map, ← indexOf?, List.getElem?_map]
  constructor
  · intro hposition
    obtain ⟨i, hi, rfl⟩ := Option.map_eq_some_iff.mp hposition
    rw [List.getElem?_eq_getElem i.isLt, Option.map_some]
    exact congrArg some ((indexOf?_eq_some_iff h).mp hi)
  · intro hname
    obtain ⟨m, hm, hmname⟩ := Option.map_eq_some_iff.mp hname
    obtain ⟨hlt, rfl⟩ := List.getElem?_eq_some_iff.mp hm
    rw [(indexOf?_eq_some_iff h (i := ⟨position, hlt⟩)).mpr hmname, Option.map_some]

/-! ## The graph -/

theorem edge?_eq_literal_iff {d : Declaration} {value : Int32} :
    b.edge? d = some (.literal value) ↔ d.rightSide = .literal value := by
  unfold edge?
  split <;> simp_all

theorem edge?_eq_reference_iff (h : b.NamesDistinct) {d : Declaration} {i : Fin b.members.length} :
    b.edge? d = some (.reference i) ↔ d.rightSide = .reference (b.members.get i).name := by
  unfold edge?
  split
  · simp_all
  · rename_i target hd
    simp only [Option.map_eq_some_iff, Edge.reference.injEq, exists_eq_right, hd,
      RightSide.reference.injEq, indexOf?_eq_some_iff h]
    exact eq_comm

theorem dangling?_eq_none_iff {d : Declaration} :
    b.dangling? d = none ↔
      ∀ target, d.rightSide = .reference target → ∃ m ∈ b.members, m.name = target := by
  unfold dangling?
  split
  · simp_all
  · rename_i target hd
    rw [ite_eq_left_iff, indexOf?_isSome_iff]
    simp [hd]

theorem dangling?_eq_some {d : Declaration} {f : Fault} (h : b.dangling? d = some f) :
    ∃ target, d.rightSide = .reference target ∧ (∀ m ∈ b.members, m.name ≠ target) ∧
      f = .danglingAlias b.name d.name target := by
  unfold dangling? at h
  split at h
  · cases h
  · rename_i target hd
    split at h
    · cases h
    · rename_i hnone
      rw [indexOf?_isSome_iff] at hnone
      exact ⟨target, hd, by simpa using hnone, (Option.some.inj h).symm⟩

theorem graph_eq_error_iff {f : Fault} :
    b.graph = .error f ↔ b.members.findSome? b.dangling? = some f := by
  unfold graph
  split
  · rename_i hf
    simp [hf]
  · rename_i hf
    simp [hf]

theorem targetsDeclared_iff : b.TargetsDeclared ↔ ∃ g, b.graph = .ok g := by
  have hnone : b.TargetsDeclared ↔ b.members.findSome? b.dangling? = none := by
    simp only [List.findSome?_eq_none_iff, dangling?_eq_none_iff, TargetsDeclared]
  rw [hnone]
  constructor
  · intro h
    cases hg : b.graph with
    | error f => simp [graph_eq_error_iff.mp hg] at h
    | ok g => exact ⟨g, rfl⟩
  · rintro ⟨g, hg⟩
    cases hf : b.members.findSome? b.dangling? with
    | none => rfl
    | some f => cases hg.symm.trans (graph_eq_error_iff.mpr hf)

section Graph
variable {g : Graph b.members.length} (hg : b.graph = .ok g)
include hg

theorem edge?_get (i : Fin b.members.length) : b.edge? (b.members.get i) = some (g i) :=
  edge?_of_graph hg i

theorem graph_eq_literal_iff {i : Fin b.members.length} {value : Int32} :
    g i = .literal value ↔ (b.members.get i).rightSide = .literal value := by
  rw [← edge?_eq_literal_iff, edge?_get hg i, Option.some.injEq]

theorem graph_refers_eq (hd : b.NamesDistinct) : Alias.Refers g = b.Refers := by
  funext i j
  rw [Alias.Refers, Refers, ← edge?_eq_reference_iff hd, edge?_get hg i, Option.some.injEq]

/-- The alias graph of a block with distinct names leads where its names lead. -/
theorem graph_endsAt_iff (hd : b.NamesDistinct) {i : Fin b.members.length}
    {origin : Origin b.members.length} :
    Alias.EndsAt g i origin ↔ b.EndsAt i origin.index origin.value := by
  constructor
  · intro h
    induction h with
    | literal hv => exact ⟨.refl, (graph_eq_literal_iff hg).mp hv⟩
    | @reference i j _ hj _ ih =>
      have hij : b.Refers i j := by rwa [← graph_refers_eq hg hd]
      exact ⟨.head hij ih.reaches, ih.literal⟩
  · rintro ⟨hreach, hlit⟩
    induction hreach using Relation.ReflTransGen.head_induction_on with
    | refl => exact .literal ((graph_eq_literal_iff hg).mpr hlit)
    | head hij _ ih =>
      rw [← graph_refers_eq hg hd] at hij
      exact .reference hij ih

end Graph

end ConstantCatalog.Block
