import ConstantCatalog.Proofs.Block.Resolution

/-! # Members of a checked enumeration

What resolving guarantees of the members of an enumeration, once and for all: each stands where the
index has its name, and the origin of every member is the index of a literal with its value. Lookups
by name and the canonical member of a member are said of the list of members from here on. -/

namespace ConstantCatalog
set_option autoImplicit false

namespace Enumeration

/-- The index is in step with the members, and each of them has a canonical member behind it. -/
structure Sound (e : Enumeration) : Prop where
  index : e.index.InStep (e.members.map (·.name))
  origin : ∀ m ∈ e.members, ∃ t, e.members[m.origin]? = some t ∧ t.isAlias = false ∧
    t.value = m.value ∧ (m.isAlias = false → t = m)

variable {e : Enumeration}

theorem mem_canonicalMembers {m : Constant} :
    m ∈ e.canonicalMembers ↔ m ∈ e.members ∧ m.isAlias = false := by
  simp [canonicalMembers]

namespace Sound
variable (h : e.Sound)
include h

theorem names_nodup : (e.members.map (·.name)).Nodup := h.index.nodup

theorem member_eq_ok {name : String} {m : Constant} :
    e.member name = .ok m ↔ m ∈ e.members ∧ m.name = name :=
  member_eq_ok_iff_mem h.index

theorem member_eq_error_iff {name : String} {f : Fault} : e.member name = .error f ↔
    name ∉ e.members.map (·.name) ∧ f = .unknownMember e.name name := by
  have hnone : e.members.find? (·.name == name) = none ↔ name ∉ e.members.map (·.name) := by simp
  rw [← hnone, member_eq h.index]
  cases e.members.find? (·.name == name) <;> simp [eq_comm]

theorem contains_iff {name : String} : e.contains name = true ↔ name ∈ e.members.map (·.name) :=
  h.index.contains_iff

theorem contains_eq_false_iff {name : String} :
    e.contains name = false ↔ name ∉ e.members.map (·.name) :=
  h.index.contains_eq_false_iff

theorem eq_of_name {m m' : Constant} (hm : m ∈ e.members) (hm' : m' ∈ e.members)
    (hname : m.name = m'.name) : m = m' :=
  List.inj_on_of_nodup_map h.names_nodup hm hm' hname

theorem canonicalNames_nodup : (e.canonicalMembers.map (·.name)).Nodup :=
  h.names_nodup.sublist (List.filter_sublist.map _)

/-- The canonical member stands at the origin, so that no member stands for itself for want of
one. -/
theorem getElem?_origin {m : Constant} (hm : m ∈ e.members) :
    e.members[m.origin]? = some (e.canonical m) := by
  obtain ⟨t, ht, -⟩ := h.origin m hm
  rw [canonical, ht, Option.getD_some]

theorem canonical_mem {m : Constant} (hm : m ∈ e.members) :
    e.canonical m ∈ e.canonicalMembers ∧ (e.canonical m).value = m.value := by
  obtain ⟨t, ht, halias, hvalue, -⟩ := h.origin m hm
  have hcanonical : e.canonical m = t := by rw [canonical, ht, Option.getD_some]
  rw [hcanonical, mem_canonicalMembers]
  exact ⟨⟨List.mem_of_getElem? ht, halias⟩, hvalue⟩

theorem canonical_eq_self_iff {m : Constant} (hm : m ∈ e.members) :
    e.canonical m = m ↔ m.isAlias = false := by
  constructor
  · intro hself
    rw [← hself]
    exact (mem_canonicalMembers.mp (h.canonical_mem hm).1).2
  · intro halias
    obtain ⟨t, ht, -, -, hself⟩ := h.origin m hm
    rw [canonical, ht, Option.getD_some, hself halias]

end Sound

end Enumeration

theorem Enumeration.Resolves.declaration_eq {b : Block} {e : Enumeration} (h : e.Resolves b)
    {i : Fin b.members.length} {m : Constant} (hm : e.members[i.val]? = some m) :
    b.members.get i = m.toDeclaration := by
  have hget : (e.members.map (·.toDeclaration))[i.val]? = some m.toDeclaration := by
    rw [List.getElem?_map, hm, Option.map_some]
  rw [h.declarations] at hget
  exact Option.some.inj ((List.getElem?_eq_getElem i.isLt).symm.trans hget)

theorem Enumeration.Resolves.exists_endsAt {b : Block} {e : Enumeration} (h : e.Resolves b)
    {m : Constant} (hm : m ∈ e.members) : ∃ i j : Fin b.members.length,
      e.members[i.val]? = some m ∧ m.origin = j.val ∧ b.EndsAt i j m.value := by
  obtain ⟨k, hk⟩ := List.getElem?_of_mem hm
  have hlt : k < b.members.length := by
    have hlt := (List.getElem?_eq_some_iff.mp hk).1
    rwa [← h.declarations, List.length_map]
  obtain ⟨j, m', hm', hj, hend⟩ := h.origin ⟨k, hlt⟩
  obtain rfl : m' = m := Option.some.inj (hm'.symm.trans hk)
  exact ⟨⟨k, hlt⟩, j, hk, hj, hend⟩

/-- What a block resolves to is sound. -/
theorem Block.sound_of_resolve {b : Block} {e : Enumeration} (h : b.resolve = .ok e) :
    e.Sound where
  index := by
    have hres := resolves_of_resolve h
    rw [hres.names_eq]
    exact hres.index
  origin := by
    have hres := resolves_of_resolve h
    intro m hm
    obtain ⟨i, j, hi, hj, hend⟩ := hres.exists_endsAt hm
    -- The chain of `m` ends at a literal, and so the one from there ends at once.
    obtain ⟨j', t, ht, -, hend'⟩ := hres.origin j
    obtain ⟨rfl, hvalue⟩ := hend'.eq_of_literal hend.literal
    have hliteral := hend.literal
    rw [hres.declaration_eq ht] at hliteral
    refine ⟨t, by rw [hj, ht], by rw [Constant.isAlias, hliteral]; rfl, hvalue, ?_⟩
    intro halias
    cases hright : m.rightSide with
    | reference target =>
      rw [Constant.isAlias, hright] at halias
      cases halias
    | literal value =>
      have hown : (b.members.get i).rightSide = .literal value := by
        rw [hres.declaration_eq hi, hright]
      obtain ⟨rfl, -⟩ := hend.eq_of_literal hown
      exact Option.some.inj (ht.symm.trans hi)

end ConstantCatalog
