import ConstantCatalog.Proofs.Alias.Walk
import ConstantCatalog.Proofs.Block.References

/-! # Resolution

A block resolves exactly when its names are distinct, its alias targets are declared and every chain
of aliases ends in a literal. The enumeration then has the declarations of the block in their order,
each with the end of its own chain. -/

namespace ConstantCatalog
set_option autoImplicit false
open Alias

theorem firstRepeat?_eq_none_iff {seen names : List String} :
    firstRepeat? seen names = none ↔ (∀ name ∈ names, name ∉ seen) ∧ names.Nodup := by
  induction names generalizing seen with
  | nil => simp [firstRepeat?]
  | cons name names ih =>
    rw [firstRepeat?]
    split
    · simp_all
    · rename_i hn
      simp only [ih, List.mem_cons, not_or, forall_eq_or_imp, List.nodup_cons, hn,
        not_false_eq_true, true_and]
      constructor
      · rintro ⟨hseen, hnodup⟩
        exact ⟨fun x hx => (hseen x hx).2, fun hmem => (hseen name hmem).1 rfl, hnodup⟩
      · rintro ⟨hseen, hmem, hnodup⟩
        exact ⟨fun x hx => ⟨ne_of_mem_of_not_mem hx hmem, hseen x hx⟩, hnodup⟩

/-- What an enumeration keeps of a block and what it adds to it. -/
structure Enumeration.Resolves (e : Enumeration) (b : Block) : Prop where
  name : e.name = b.name
  availability : e.availability = b.availability
  declarations : e.members.map (·.toDeclaration) = b.members
  origin : ∀ i : Fin b.members.length, ∃ (j : Fin b.members.length) (c : Constant),
    e.members[i.val]? = some c ∧ c.origin = j.val ∧ b.EndsAt i j c.value
  index : e.index.InStep (b.members.map (·.name))

namespace Block

variable {b : Block} {e : Enumeration}

theorem checkNames_eq_ok_iff {u : Unit} : b.checkNames = .ok u ↔ b.NamesDistinct := by
  have hnone : firstRepeat? [] (b.members.map (·.name)) = none ↔ _ := firstRepeat?_eq_none_iff
  rw [checkNames, NamesDistinct]
  split <;> simp_all

theorem resolve_eq_ok_iff : b.resolve = .ok e ↔ b.NamesDistinct ∧ ∃ g, b.graph = .ok g ∧
    ∃ origins, g.origins = .ok origins ∧ e = ⟨b.name, b.availability,
      List.zipWith (fun d origin => ⟨d, origin.value, origin.index⟩) b.members origins,
      b.index.map (·.val)⟩ := by
  simp only [resolve, Outcome.bind_eq_ok]
  constructor
  · rintro ⟨u, hu, g, hg, h⟩
    split at h
    · cases h
    · rename_i origins ho
      exact ⟨checkNames_eq_ok_iff.mp hu, g, hg, origins, ho, (Except.ok.inj h).symm⟩
  · rintro ⟨hn, g, hg, origins, ho, rfl⟩
    refine ⟨(), checkNames_eq_ok_iff.mpr hn, g, hg, ?_⟩
    rw [ho]

/-- The walks from all members succeed when, and only when, each of them can. -/
theorem isOk_origins_iff (hn : b.NamesDistinct) {g : Graph b.members.length}
    (hg : b.graph = .ok g) :
    (∃ origins, g.origins = .ok origins) ↔ ∀ i, ∃ j value, b.EndsAt i j value := by
  constructor
  · rintro ⟨origins, ho⟩ i
    obtain ⟨origin, -, hend⟩ := (Graph.origins_ok ho).2 i
    exact ⟨_, _, (graph_endsAt_iff hg hn).mp hend⟩
  · intro h
    cases ho : g.origins with
    | ok origins => exact ⟨origins, rfl⟩
    | error chain =>
      obtain ⟨start, -, lead, entry, rest, hloop, -⟩ := Graph.origins_error ho
      obtain ⟨j, value, hend⟩ := h start
      have hstart : Alias.EndsAt g start ⟨value, j⟩ := (graph_endsAt_iff hg hn).mpr hend
      exact absurd hstart (hloop.not_endsAt _)

theorem isOk_resolve_iff : (∃ e, b.resolve = .ok e) ↔
    b.NamesDistinct ∧ b.TargetsDeclared ∧ ∀ i, ∃ j value, b.EndsAt i j value := by
  rw [targetsDeclared_iff]
  constructor
  · rintro ⟨e, he⟩
    obtain ⟨hn, g, hg, origins, ho, -⟩ := resolve_eq_ok_iff.mp he
    exact ⟨hn, ⟨g, hg⟩, (isOk_origins_iff hn hg).mp ⟨origins, ho⟩⟩
  · rintro ⟨hn, ⟨g, hg⟩, hend⟩
    obtain ⟨origins, ho⟩ := (isOk_origins_iff hn hg).mpr hend
    exact ⟨_, resolve_eq_ok_iff.mpr ⟨hn, g, hg, origins, ho, rfl⟩⟩

theorem resolves_of_resolve (h : b.resolve = .ok e) : e.Resolves b := by
  obtain ⟨hn, g, hg, origins, ho, rfl⟩ := resolve_eq_ok_iff.mp h
  obtain ⟨hlen, hall⟩ := Graph.origins_ok ho
  refine ⟨rfl, rfl, ?_, ?_, inStep_index hn⟩
  · apply List.ext_getElem
    · simp [hlen]
    · simp
  · intro i
    obtain ⟨origin, hi, hend⟩ := hall i
    refine ⟨origin.index, ⟨b.members.get i, origin.value, origin.index⟩, ?_, rfl, ?_⟩
    · simp [List.getElem?_zipWith, hi]
    · exact (graph_endsAt_iff hg hn).mp hend

/-- A chain that starts at a literal ends there. -/
theorem EndsAt.eq_of_literal {i j : Fin b.members.length} {value v : Int32}
    (h : b.EndsAt i j value) (hi : (b.members.get i).rightSide = .literal v) :
    j = i ∧ value = v := by
  rcases h.reaches.cases_head with rfl | ⟨k, hik, -⟩
  · exact ⟨rfl, RightSide.literal.inj (h.literal.symm.trans hi)⟩
  · cases hi.symm.trans hik

end Block

namespace Enumeration

variable {e : Enumeration}

/-- A lookup answers with the member that a search finds, or else that there is none. -/
theorem member_eq (h : e.index.InStep (e.members.map (·.name))) (name : String) :
    e.member name = match e.members.find? (·.name == name) with
      | some c => .ok c
      | none => .error (.unknownMember e.name name) := by
  rw [member, find?, h.find?_eq_ok]
  rfl

theorem member_eq_ok_iff_mem (h : e.index.InStep (e.members.map (·.name))) {name : String}
    {c : Constant} : e.member name = .ok c ↔ c ∈ e.members ∧ c.name = name := by
  rw [member_eq h, ← Keyed.find?_eq_some_iff h.nodup]
  cases e.members.find? (·.name == name) <;> simp

theorem isOk_member_iff (h : e.index.InStep (e.members.map (·.name))) {name : String} :
    (∃ c, e.member name = .ok c) ↔ name ∈ e.members.map (·.name) := by
  simp only [member_eq_ok_iff_mem h, List.mem_map]

theorem index_unique (hn : (e.members.map (·.name)).Nodup) {name : String} {i j : Nat}
    (hi : (e.members[i]?).map (·.name) = some name)
    (hj : (e.members[j]?).map (·.name) = some name) :
    i = j := by
  rw [← List.getElem?_map] at hi hj
  obtain ⟨hlt, -⟩ := List.getElem?_eq_some_iff.mp hi
  exact (List.getElem?_inj hlt hn).mp (hi.trans hj.symm)

/-- With distinct names a lookup has no choice. -/
theorem member_eq_ok_iff (h : e.index.InStep (e.members.map (·.name))) {name : String}
    {c : Constant} : e.member name = .ok c ↔ ∃ i : Nat, e.members[i]? = some c ∧
      ∀ j : Nat, (e.members[j]?).map (·.name) = some name ↔ j = i := by
  rw [member_eq_ok_iff_mem h]
  constructor
  · rintro ⟨hmem, rfl⟩
    obtain ⟨i, hi⟩ := List.getElem?_of_mem hmem
    have hname : (e.members[i]?).map (·.name) = some c.name := by rw [hi, Option.map_some]
    refine ⟨i, hi, fun j => ⟨fun hj => index_unique h.nodup hj hname, ?_⟩⟩
    rintro rfl
    exact hname
  · rintro ⟨i, hi, hall⟩
    exact ⟨List.mem_of_getElem? hi, by simpa [hi] using (hall i).mpr rfl⟩

end Enumeration

theorem Enumeration.Resolves.names_eq {e : Enumeration} {b : Block} (h : e.Resolves b) :
    e.members.map (·.name) = b.members.map (·.name) := by
  rw [← h.declarations, List.map_map]
  rfl

/-- A block resolves exactly when its names are distinct, its alias targets are declared and every
member leads to a literal; and then the enumeration has its members in order, each with the value
and the index at the end of its own chain, and finds each under its own name and no other. -/
theorem Block.resolve_exact (b : Block) :
    ((∃ e, b.resolve = .ok e) ↔
      b.NamesDistinct ∧ b.TargetsDeclared ∧ ∀ i, ∃ j value, b.EndsAt i j value) ∧
    ∀ e, b.resolve = .ok e →
      e.Resolves b ∧
      (∀ (i : Fin b.members.length) (c : Constant) (value : Int32), e.members[i.val]? = some c →
        (b.members.get i).rightSide = .literal value → c.value = value ∧ c.origin = i.val) ∧
      ∀ name : String,
        ((∃ c, e.member name = .ok c) ↔ name ∈ b.members.map (·.name)) ∧
        ∀ c, e.member name = .ok c ↔ ∃ i : Nat, e.members[i]? = some c ∧
          ∀ j : Nat, (e.members[j]?).map (·.name) = some name ↔ j = i := by
  refine ⟨isOk_resolve_iff, fun e he => ?_⟩
  have hres := resolves_of_resolve he
  have hstep : e.index.InStep (e.members.map (·.name)) := hres.names_eq ▸ hres.index
  refine ⟨hres, ?_, ?_⟩
  · intro i c value hc hlit
    obtain ⟨j, m, hm, hj, hend⟩ := hres.origin i
    obtain rfl : m = c := Option.some.inj (hm.symm.trans hc)
    obtain ⟨rfl, hv⟩ := hend.eq_of_literal hlit
    exact ⟨hv, hj⟩
  · intro name
    refine ⟨?_, fun c => Enumeration.member_eq_ok_iff hstep⟩
    rw [Enumeration.isOk_member_iff hstep, hres.names_eq]

/-- An alias may stand before its target. -/
example : ((Block.resolve ⟨"Forward", ⟨"VK_A"⟩, [⟨"NEW", .reference "OLD", ⟨"VK_A"⟩, .absent⟩,
    ⟨"OLD", .literal 7, ⟨"VK_A"⟩, .absent⟩]⟩).toOption.map fun e => e.members.map (·.origin)) =
      some [1, 1] := by
  decide +kernel

end ConstantCatalog
