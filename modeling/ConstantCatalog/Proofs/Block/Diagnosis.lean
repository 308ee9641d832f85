import Mathlib.Order.Bounds.Basic
import ConstantCatalog.Proofs.Block.Resolution

/-! # Diagnosis

Why a block does not resolve, said by its names alone. Of several faults the kind decides first and
then the index: a repeated name goes before a dangling alias and this before an endless chain, and
of each kind the member at the least index is reported. Resolving a block fails with its diagnosis
and with nothing else. -/

namespace ConstantCatalog
set_option autoImplicit false
open Alias

/-- What stands before the first repeated name has no repetition. -/
theorem firstRepeat?_eq_some {seen names : List String} {name : String}
    (h : firstRepeat? seen names = some name) : ∃ before after,
      names = before ++ name :: after ∧ (name ∈ seen ∨ name ∈ before) ∧ before.Nodup ∧
        ∀ x ∈ before, x ∉ seen := by
  induction names generalizing seen with
  | nil => cases h
  | cons first names ih =>
    rw [firstRepeat?] at h
    split at h
    · rename_i hseen
      obtain rfl : first = name := Option.some.inj h
      exact ⟨[], names, rfl, Or.inl hseen, .nil, by simp⟩
    · rename_i hseen
      obtain ⟨before, after, rfl, hname, hnodup, hbefore⟩ := ih h
      refine ⟨first :: before, after, rfl, ?_, ?_, ?_⟩
      · simpa [or_assoc, or_left_comm] using hname
      · exact List.nodup_cons.mpr ⟨fun hmem => hbefore first hmem List.mem_cons_self, hnodup⟩
      · intro x hx
        rcases List.mem_cons.mp hx with rfl | hx
        · exact hseen
        · exact fun hmem => hbefore x hx (List.mem_cons_of_mem _ hmem)

namespace Block

variable {b : Block}

/-- The name at index `i` stands at a smaller index already. -/
def RepeatsAt (b : Block) (i : Fin b.members.length) : Prop :=
  ∃ j < i, (b.members.get j).name = (b.members.get i).name

/-- The member at index `i` is an alias of something that is not a member. -/
def DanglesAt (b : Block) (i : Fin b.members.length) : Prop :=
  ∃ target, (b.members.get i).rightSide = .reference target ∧ ∀ m ∈ b.members, m.name ≠ target

/-- Following alias targets from index `i` never comes to a literal. -/
def EndlessAt (b : Block) (i : Fin b.members.length) : Prop :=
  ∀ j value, ¬ b.EndsAt i j value

inductive Diagnosis (b : Block) : Fault → Prop where
  | repeatedMember {i : Fin b.members.length} :
      IsLeast {i | b.RepeatsAt i} i →
      Diagnosis b (.repeatedMember b.name (b.members.get i).name)
  | danglingAlias {i : Fin b.members.length} {target : String} :
      b.NamesDistinct → IsLeast {i | b.DanglesAt i} i →
      (b.members.get i).rightSide = .reference target →
      Diagnosis b (.danglingAlias b.name (b.members.get i).name target)
  | aliasCycle {i entry : Fin b.members.length} {lead rest : List (Fin b.members.length)} :
      b.NamesDistinct → b.TargetsDeclared → IsLeast {i | b.EndlessAt i} i →
      EntersLoop b.Refers i lead entry rest →
      Diagnosis b
        (.aliasCycle b.name ((entry :: rest ++ [entry]).map fun j => (b.members.get j).name))

theorem namesDistinct_iff : b.NamesDistinct ↔ ∀ i, ¬ b.RepeatsAt i := by
  constructor
  · rintro h i ⟨j, hj, hname⟩
    exact absurd (h.eq_of_name hname) (ne_of_lt hj)
  · intro h
    rw [NamesDistinct, List.Nodup, List.pairwise_map, List.pairwise_iff_getElem]
    intro i j hi hj hij hname
    exact h ⟨j, hj⟩ ⟨⟨i, hi⟩, hij, hname⟩

theorem targetsDeclared_iff_not_danglesAt : b.TargetsDeclared ↔ ∀ i, ¬ b.DanglesAt i := by
  constructor
  · rintro h i ⟨target, hi, hnone⟩
    obtain ⟨m, hm, hname⟩ := h _ (List.getElem_mem i.isLt) target hi
    exact hnone m hm hname
  · intro h d hd target htarget
    obtain ⟨i, hi, rfl⟩ := List.mem_iff_getElem.mp hd
    by_contra hnone
    exact h ⟨i, hi⟩ ⟨target, htarget, by simpa using hnone⟩

theorem exists_index_of_eq_append {before after : List Declaration} {d : Declaration}
    (h : b.members = before ++ d :: after) :
    ∃ i : Fin b.members.length, b.members.get i = d ∧ b.members.take i.val = before := by
  refine ⟨⟨before.length, by simp [h]⟩, ?_, ?_⟩
  · simp [h]
  · simp [h]

theorem get_mem_take {i k : Fin b.members.length} (hk : k < i) :
    b.members.get k ∈ b.members.take i.val := by
  rw [List.mem_take_iff_getElem]
  exact ⟨k.val, by simpa using hk, rfl⟩

theorem exists_repeatsAt_of_checkNames {f : Fault} (h : b.checkNames = .error f) :
    ∃ i, IsLeast {i | b.RepeatsAt i} i ∧ f = .repeatedMember b.name (b.members.get i).name := by
  unfold checkNames at h
  split at h
  · rename_i name hname
    obtain ⟨names, others, hsplit, hmem, hnodup, -⟩ := firstRepeat?_eq_some hname
    obtain ⟨before, rest, hmembers, rfl, hrest⟩ := List.map_eq_append_iff.mp hsplit
    obtain ⟨d, after, rfl, rfl, -⟩ := List.map_eq_cons_iff.mp hrest
    obtain ⟨i, hi, htake⟩ := exists_index_of_eq_append hmembers
    refine ⟨i, ⟨?_, ?_⟩, ?_⟩
    · obtain ⟨m, hm, hmname⟩ := List.mem_map.mp (hmem.resolve_left List.not_mem_nil)
      rw [← htake, List.mem_take_iff_getElem] at hm
      obtain ⟨j, hj, rfl⟩ := hm
      have hji : j < i.val := by omega
      exact ⟨⟨j, hji.trans i.isLt⟩, hji, by rw [hi]; exact hmname⟩
    · rintro k ⟨j, hj, hname⟩
      by_contra hlt
      have hk : k.val < i.val := not_le.mp hlt
      have hjk : j.val < k.val := hj
      rw [← htake, List.Nodup, List.pairwise_map, List.pairwise_iff_getElem] at hnodup
      have hne := hnodup j.val k.val (by simp; omega) (by simp; omega) hjk
      simp only [List.getElem_take] at hne
      exact hne hname
    · rw [hi]
      exact (Except.error.inj h).symm
  · cases h

theorem exists_danglesAt_of_graph {f : Fault} (h : b.graph = .error f) :
    ∃ i target, IsLeast {i | b.DanglesAt i} i ∧ (b.members.get i).rightSide = .reference target ∧
      f = .danglingAlias b.name (b.members.get i).name target := by
  obtain ⟨before, d, after, hmembers, hd, hbefore⟩ :=
    List.findSome?_eq_some_iff.mp (graph_eq_error_iff.mp h)
  obtain ⟨target, htarget, hnone, rfl⟩ := dangling?_eq_some hd
  obtain ⟨i, rfl, htake⟩ := exists_index_of_eq_append hmembers
  refine ⟨i, target, ⟨⟨target, htarget, hnone⟩, ?_⟩, htarget, rfl⟩
  rintro k ⟨t, hk, ht⟩
  by_contra hlt
  have hmem : b.members.get k ∈ before := htake ▸ get_mem_take (not_le.mp hlt)
  obtain ⟨m, hm, hname⟩ := dangling?_eq_none_iff.mp (hbefore _ hmem) t hk
  exact ht m hm hname

theorem exists_endlessAt_of_origins (hn : b.NamesDistinct) {g : Graph b.members.length}
    (hg : b.graph = .ok g) {chain : List (Fin b.members.length)} (h : g.origins = .error chain) :
    ∃ i lead entry rest, IsLeast {i | b.EndlessAt i} i ∧ EntersLoop b.Refers i lead entry rest ∧
      chain = entry :: rest ++ [entry] := by
  obtain ⟨i, hbefore, lead, entry, rest, hloop, hchain⟩ := Graph.origins_error h
  refine ⟨i, lead, entry, rest, ⟨?_, ?_⟩, graph_refers_eq hg hn ▸ hloop, hchain⟩
  · intro j value hend
    exact hloop.not_endsAt ⟨value, j⟩ ((graph_endsAt_iff hg hn).mpr hend)
  · intro k hk
    by_contra hlt
    obtain ⟨origin, hend⟩ := hbefore k (not_le.mp hlt)
    exact hk _ _ ((graph_endsAt_iff hg hn).mp hend)

theorem diagnosis_of_resolve {f : Fault} (h : b.resolve = .error f) : b.Diagnosis f := by
  rw [resolve, Outcome.bind_eq_error] at h
  rcases h with hnames | ⟨u, hu, h⟩
  · obtain ⟨i, hi, rfl⟩ := exists_repeatsAt_of_checkNames hnames
    exact .repeatedMember hi
  have hn := checkNames_eq_ok_iff.mp hu
  rw [Outcome.bind_eq_error] at h
  rcases h with hgraph | ⟨g, hg, h⟩
  · obtain ⟨i, target, hi, htarget, rfl⟩ := exists_danglesAt_of_graph hgraph
    exact .danglingAlias hn hi htarget
  split at h
  · rename_i chain ho
    obtain ⟨i, lead, entry, rest, hi, hloop, rfl⟩ := exists_endlessAt_of_origins hn hg ho
    cases h
    exact .aliasCycle hn (targetsDeclared_iff.mpr ⟨g, hg⟩) hi hloop
  · cases h

theorem Diagnosis.resolve_ne_ok {f : Fault} (h : b.Diagnosis f) (e : Enumeration) :
    b.resolve ≠ .ok e := by
  intro he
  obtain ⟨hn, ht, hend⟩ := isOk_resolve_iff.mp ⟨e, he⟩
  cases h with
  | @repeatedMember i hi => exact namesDistinct_iff.mp hn i hi.1
  | @danglingAlias i _ _ hi _ => exact targetsDeclared_iff_not_danglesAt.mp ht i hi.1
  | @aliasCycle i _ _ _ _ _ hi _ =>
    obtain ⟨j, value, hij⟩ := hend i
    exact hi.1 j value hij

/-- A block has one diagnosis at most. -/
theorem Diagnosis.unique {f f' : Fault} (h : b.Diagnosis f) (h' : b.Diagnosis f') : f = f' := by
  have hrepeats : ∀ {i : Fin b.members.length}, IsLeast {i | b.RepeatsAt i} i → ¬ b.NamesDistinct :=
    fun {i} hi hn => namesDistinct_iff.mp hn i hi.1
  have hdangles : ∀ {i : Fin b.members.length}, IsLeast {i | b.DanglesAt i} i →
      ¬ b.TargetsDeclared := fun {i} hi ht => targetsDeclared_iff_not_danglesAt.mp ht i hi.1
  cases h with
  | repeatedMember hi =>
    cases h' with
    | repeatedMember hi' => rw [hi.unique hi']
    | danglingAlias hn => exact absurd hn (hrepeats hi)
    | aliasCycle hn => exact absurd hn (hrepeats hi)
  | danglingAlias hn hi htarget =>
    cases h' with
    | repeatedMember hi' => exact absurd hn (hrepeats hi')
    | danglingAlias _ hi' htarget' =>
      obtain rfl := hi.unique hi'
      rw [RightSide.reference.inj (htarget.symm.trans htarget')]
    | aliasCycle _ ht => exact absurd ht (hdangles hi)
  | aliasCycle hn ht hi hloop =>
    cases h' with
    | repeatedMember hi' => exact absurd hn (hrepeats hi')
    | danglingAlias _ hi' => exact absurd ht (hdangles hi')
    | aliasCycle _ _ hi' hloop' =>
      obtain rfl := hi.unique hi'
      obtain ⟨-, rfl, rfl⟩ := hloop.unique (refers_rightUnique hn) hloop'
      rfl

theorem resolve_eq_error_of_diagnosis {f : Fault} (h : b.Diagnosis f) : b.resolve = .error f := by
  cases hr : b.resolve with
  | ok e => exact absurd hr (h.resolve_ne_ok e)
  | error f' => rw [h.unique (diagnosis_of_resolve hr)]

/-- Resolving a block fails with its diagnosis and with nothing else. If the first endless chain
comes to a member that is an alias of itself, the cycle is that member twice. -/
theorem resolve_fails_exact (b : Block) :
    (∀ f, b.resolve = .error f ↔ b.Diagnosis f) ∧
    ∀ i j : Fin b.members.length, b.NamesDistinct → b.TargetsDeclared →
      IsLeast {i | b.EndlessAt i} i → Relation.ReflTransGen b.Refers i j → b.Refers j j →
      b.resolve = .error (.aliasCycle b.name [(b.members.get j).name, (b.members.get j).name]) := by
  refine ⟨fun f => ⟨diagnosis_of_resolve, resolve_eq_error_of_diagnosis⟩, ?_⟩
  intro i j hn ht hi hij hjj
  have hr := refers_rightUnique hn
  cases hres : b.resolve with
  | ok e =>
    obtain ⟨-, -, hend⟩ := isOk_resolve_iff.mp ⟨e, hres⟩
    obtain ⟨k, value, hik⟩ := hend i
    exact absurd hik (hi.1 k value)
  | error f =>
    cases diagnosis_of_resolve hres with
    | @repeatedMember k hk => exact absurd hk.1 (namesDistinct_iff.mp hn k)
    | @danglingAlias k _ _ hk _ => exact absurd hk.1 (targetsDeclared_iff_not_danglesAt.mp ht k)
    | aliasCycle _ _ hi' hloop =>
      obtain rfl := hi.unique hi'
      obtain ⟨rfl, rfl⟩ := hloop.eq_of_rel_self hr (hloop.mem_of_reflTransGen hr hij) hjj
      rfl

/-- An alias of itself, and another alias that leads to it. -/
def selfAlias : Block :=
  ⟨"Self", ⟨"VK_VERSION_1_0"⟩,
    [⟨"LEAD", .reference "SELF", ⟨"VK_VERSION_1_0"⟩, .absent⟩,
     ⟨"SELF", .reference "SELF", ⟨"VK_VERSION_1_0"⟩, .absent⟩]⟩

/-- What leads into the cycle is not reported. -/
theorem resolve_selfAlias : selfAlias.resolve = .error (.aliasCycle "Self" ["SELF", "SELF"]) := by
  have hn : selfAlias.NamesDistinct := by
    unfold NamesDistinct
    decide
  have ht : selfAlias.TargetsDeclared := by
    simp [TargetsDeclared, selfAlias]
  have hlead : selfAlias.Refers (0 : Fin 2) (1 : Fin 2) := rfl
  have hself : selfAlias.Refers (1 : Fin 2) (1 : Fin 2) := rfl
  have hloop : EntersLoop selfAlias.Refers (0 : Fin 2) [(0 : Fin 2)] (1 : Fin 2) [] :=
    ⟨rfl, by decide, .cons_cons hlead (.cons_cons hself (.singleton _))⟩
  have hend : selfAlias.EndlessAt (0 : Fin 2) := by
    intro j value hj
    have hmem := hloop.mem_of_reflTransGen (refers_rightUnique hn) hj.reaches
    have hlit := hj.literal
    rcases List.mem_pair.mp hmem with rfl | rfl
    · cases hlit
    · cases hlit
  exact (resolve_fails_exact selfAlias).2 (0 : Fin 2) (1 : Fin 2) hn ht
    ⟨hend, fun j _ => Nat.zero_le j.val⟩ (.single hlead) hself

end Block

end ConstantCatalog
