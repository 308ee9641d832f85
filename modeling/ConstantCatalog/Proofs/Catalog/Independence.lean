import Mathlib.Data.List.Perm.Subperm
import ConstantCatalog.Proofs.Catalog.Question
import ConstantCatalog.Proofs.Catalog.Rejection

/-! # Independence of enumerations

Blocks load together when their names differ and each of them resolves by itself. Neither depends on
the order of the blocks or on which others are there. The position of an enumeration depends on
both, but what stands at it is what its own block resolves to, and that alone answers the questions
about the enumeration. -/

namespace ConstantCatalog.Catalog
set_option autoImplicit false

variable {o : Options} {c : Catalog} {b : Block} {blocks part : List Block} {q : Query}

def Loadable (blocks : List Block) : Prop :=
  (blocks.map (·.name)).Nodup ∧ ∀ b ∈ blocks, ∃ e, b.resolve = .ok e

/-- The index leads from the name to position `i`, where the enumeration stands. -/
def HoldsAt (c : Catalog) (i : Nat) (name : String) (e : Enumeration) : Prop :=
  c.index.position? name = some i ∧ c.enumerations[i]? = some e

theorem isOk_load_iff_loadable : (∃ c, (load o blocks).outcome = .ok c) ↔ Loadable blocks := by
  induction blocks using List.reverseRecOn with
  | nil => exact iff_of_true ⟨_, rfl⟩ ⟨.nil, by simp⟩
  | append_singleton blocks b ih =>
    rw [isOk_load_concat_iff, ih, Loadable, Loadable, List.map_append, List.map_singleton,
      List.nodup_append_comm, List.singleton_append, List.nodup_cons, List.forall_mem_append,
      List.forall_mem_singleton]
    tauto

theorem load_eq_error_iff : (∃ f, (load o blocks).outcome = .error f) ↔ ¬ Loadable blocks := by
  rw [← isOk_load_iff_loadable (o := o)]
  cases (load o blocks).outcome <;> simp

theorem Loadable.subperm (h : Loadable blocks) (hpart : part.Subperm blocks) : Loadable part := by
  obtain ⟨sub, hperm, hsub⟩ := hpart
  constructor
  · rw [(hperm.map _).symm.nodup_iff]
    exact h.1.sublist (hsub.map _)
  · intro b hb
    exact h.2 b (hsub.subset (hperm.mem_iff.mpr hb))

/-! ## Positions -/

theorem holdsAt_of_load (hload : (load o blocks).outcome = .ok c) {i : Nat}
    (hb : blocks[i]? = some b) {e : Enumeration} (he : b.resolve = .ok e) :
    c.HoldsAt i b.name e := by
  constructor
  · rw [inStep_of_load hload, List.getElem?_map, hb, Option.map_some]
  · have hstored := congrArg (·[i]?) (resolutions_of_load hload)
    simpa [hb, he] using hstored.symm

/-- What answers about a name is found through the position, wherever that may be. -/
theorem HoldsAt.enumeration_eq {i : Nat} {name : String} {e : Enumeration}
    (h : c.HoldsAt i name e) : c.enumeration name = .ok e := by
  obtain ⟨hposition, hstored⟩ := h
  simp only [enumeration, find?, Index.find?, hposition, hstored]
  rfl

theorem HoldsAt.ask_eq {c' : Catalog} {i j : Nat} {name : String} {e : Enumeration}
    (h : c.HoldsAt i name e) (h' : c'.HoldsAt j name e) (hq : q.subject? = some name) :
    c.ask o q = c'.ask o q :=
  ask_congr hq (h.enumeration_eq.trans h'.enumeration_eq.symm)

theorem outcome_ask_of_notMem (hload : (load o blocks).outcome = .ok c) {name : String}
    (hname : name ∉ blocks.map (·.name)) (o' : Options) (hq : q.subject? = some name) :
    (c.ask o' q).outcome = .error (.unknownEnumeration name) := by
  rw [← names_of_load hload] at hname
  rw [ask_of_unknown hq ((sound_of_load hload).enumeration_eq_error_iff.mpr ⟨hname, rfl⟩)]

/-- Of blocks that load, any that are taken in any order load too. The index then leads from the
name of each to the place where it was taken, and what stands there is what the catalog of all
blocks and the catalog of this block alone have at other places. A question about one enumeration is
answered, and reported, as in the catalog of its block alone, and without its block the enumeration
has no position and is unknown. Blocks that do not load make any others fail to load with them. -/
theorem load_independent (o : Options) (blocks : List Block) :
    (∀ c, (load o blocks).outcome = .ok c → ∀ part : List Block, part.Subperm blocks →
      ∃ c', (load o part).outcome = .ok c' ∧
        (∀ b ∈ part, ∃ alone, (load o [b]).outcome = .ok alone ∧
          (∃ i j e, part[i]? = some b ∧ c'.HoldsAt i b.name e ∧
            blocks[j]? = some b ∧ c.HoldsAt j b.name e ∧ alone.HoldsAt 0 b.name e) ∧
          ∀ (o' : Options) (q : Query), q.subject? = some b.name → c'.ask o' q = alone.ask o' q) ∧
        ∀ name, name ∉ part.map (·.name) → c'.index.position? name = none ∧
          ∀ (o' : Options) (q : Query), q.subject? = some name →
            (c'.ask o' q).outcome = .error (.unknownEnumeration name)) ∧
    ∀ f, (load o blocks).outcome = .error f → ∀ whole : List Block, blocks.Subperm whole →
      ∃ f', (load o whole).outcome = .error f' := by
  constructor
  · intro c hc part hpart
    have hloadable : Loadable blocks := isOk_load_iff_loadable.mp ⟨c, hc⟩
    obtain ⟨c', hc'⟩ := isOk_load_iff_loadable.mpr (hloadable.subperm hpart)
    refine ⟨c', hc', ?_, ?_⟩
    · intro b hb
      have hmem := hpart.subset hb
      obtain ⟨e, he⟩ := hloadable.2 b hmem
      obtain ⟨alone, halone⟩ := isOk_load_iff_loadable.mpr
        (hloadable.subperm (List.singleton_subperm_iff.mpr hmem))
      obtain ⟨i, hi⟩ := List.mem_iff_getElem?.mp hb
      obtain ⟨j, hj⟩ := List.mem_iff_getElem?.mp hmem
      have hat := holdsAt_of_load hc' hi he
      have haloneAt := holdsAt_of_load (i := 0) halone rfl he
      exact ⟨alone, halone, ⟨i, j, e, hi, hat, hj, holdsAt_of_load hc hj he, haloneAt⟩,
        fun o' q hq => hat.ask_eq haloneAt hq⟩
    · intro name hname
      exact ⟨(inStep_of_load hc').position?_eq_none_iff.mpr hname, fun o' q => outcome_ask_of_notMem hc' hname o'⟩
  · intro f hf whole hwhole
    rw [load_eq_error_iff]
    intro hloadable
    exact load_eq_error_iff.mp ⟨f, hf⟩ (hloadable.subperm hwhole)

/-- An old name and a new one with the given value; the names are the same for any value. -/
def renamedPair (name : String) (value : Int32) : Block :=
  ⟨name, ⟨"VK_A"⟩, [⟨"OLD", .reference "NEW", ⟨"VK_A"⟩, .renamed⟩,
    ⟨"NEW", .literal value, ⟨"VK_A"⟩, .absent⟩]⟩

/-- Members of the same names do not get mixed up when their enumerations change places. -/
theorem load_independent_renamedPair :
    (∃ whole c alone,
      (load .full [renamedPair "A" 1, renamedPair "B" 2, renamedPair "C" 3]).outcome = .ok whole ∧
      (load .full [renamedPair "C" 3, renamedPair "A" 1]).outcome = .ok c ∧
      (load .full [renamedPair "C" 3]).outcome = .ok alone ∧
      (∃ e, whole.HoldsAt 2 "C" e ∧ c.HoldsAt 0 "C" e ∧ alone.HoldsAt 0 "C" e) ∧
      c.ask .full (.value "C" "OLD") = alone.ask .full (.value "C" "OLD") ∧
      (c.ask .full (.value "B" "OLD")).outcome = .error (.unknownEnumeration "B")) ∧
    ∃ f, (load .full [renamedPair "B" 2, renamedPair "A" 1, renamedPair "A" 3]).outcome =
      .error f := by
  have hload : (load .full [renamedPair "A" 1, renamedPair "B" 2, renamedPair "C" 3]).outcome.isOk =
      true := by decide +kernel
  have hrepeated : (load .full [renamedPair "A" 1, renamedPair "A" 3]).outcome =
      .error (.repeatedEnumeration "A") := by decide +kernel
  constructor
  · cases hc : (load .full [renamedPair "A" 1, renamedPair "B" 2, renamedPair "C" 3]).outcome with
    | error f =>
      rw [hc] at hload
      cases hload
    | ok c =>
      have hpart : [renamedPair "C" 3, renamedPair "A" 1].Subperm
          [renamedPair "A" 1, renamedPair "B" 2, renamedPair "C" 3] := by
        rw [← List.isSubperm_iff]
        decide
      obtain ⟨c', hc', halone, hunknown⟩ :=
        (load_independent .full [renamedPair "A" 1, renamedPair "B" 2, renamedPair "C" 3]).1 c hc
          _ hpart
      obtain ⟨alone, hload, ⟨i, j, e, hi, hat, hj, hwholeAt, haloneAt⟩, hask⟩ :=
        halone (renamedPair "C" 3) List.mem_cons_self
      have hi0 : i = 0 := by
        rcases i with _ | _ | i
        · rfl
        · exact absurd hi (by decide)
        · cases hi
      have hj2 : j = 2 := by
        rcases j with _ | _ | _ | j
        · exact absurd hj (by decide)
        · exact absurd hj (by decide)
        · rfl
        · cases hj
      subst hi0 hj2
      refine ⟨c, c', alone, rfl, hc', hload, ⟨e, hwholeAt, hat, haloneAt⟩, ?_, ?_⟩
      · exact hask .full (.value "C" "OLD") rfl
      · exact (hunknown "B" (by decide)).2 .full (.value "B" "OLD") rfl
  · exact (load_independent .full [renamedPair "A" 1, renamedPair "A" 3]).2 _ hrepeated _
      (List.sublist_cons_self _ _).subperm

end ConstantCatalog.Catalog
