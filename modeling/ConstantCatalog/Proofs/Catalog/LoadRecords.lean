import ConstantCatalog.Proofs.Catalog.Rejection

/-! # Records of loading

What loading reports, said by the blocks alone: each block before the first rejected one has a
record for every member, with the value at the end of its chain, and then one that counts the
members and the aliases. The rejected block and those behind it have none, since a block reports
nothing before it has resolved. Without tracing only the counts are left. -/

namespace ConstantCatalog
set_option autoImplicit false
open Log

namespace Block

/-- The values at the ends of the chains from the members, in order. -/
structure HasValues (b : Block) (values : List Int32) : Prop where
  length : values.length = b.members.length
  endsAt : ∀ i : Fin b.members.length, ∃ (j : Fin b.members.length) (value : Int32),
    values[i.val]? = some value ∧ b.EndsAt i j value

def valueRecord (b : Block) (d : Declaration) (value : Int32) : Record :=
  ⟨.trace, Event.memberPlace, some Event.memberPlace,
    s!"{b.name}: {d.name} = {String.ofList (Text.decimal value.toInt)}"⟩

def countRecord (b : Block) : Record :=
  let aliases := b.members.countP (·.rightSide.isReference)
  ⟨.debug, Event.enumerationPlace, some Event.enumerationPlace,
    s!"Loaded {b.name} ({b.members.length} members, {aliases} aliases)"⟩

def records (b : Block) (values : List Int32) : List Record :=
  (b.members.zip values).map (fun (d, value) => b.valueRecord d value) ++ [b.countRecord]

theorem filter_records (b : Block) (values : List Int32) :
    (b.records values).filter (·.level ≠ .trace) = [b.countRecord] := by
  rw [records, List.filter_append, List.filter_map]
  have hnone : (b.members.zip values).filter
      ((fun r : Record => decide (r.level ≠ .trace)) ∘ fun (d, value) => b.valueRecord d value) =
        [] := by
    rw [List.filter_eq_nil_iff]
    intro p _
    simp [valueRecord]
  rw [hnone]
  rfl

end Block

/-! ## One block -/

namespace Enumeration
variable {b : Block} {e : Enumeration} {o : Options}

def values (e : Enumeration) : List Int32 := e.members.map (·.value)

theorem Resolves.hasValues (h : e.Resolves b) : b.HasValues e.values where
  length := by rw [values, List.length_map, ← h.declarations, List.length_map]
  endsAt i := by
    obtain ⟨j, m, hm, -, hend⟩ := h.origin i
    exact ⟨j, m.value, by rw [values, List.getElem?_map, hm, Option.map_some], hend⟩

theorem Resolves.valueRecords (h : e.Resolves b) :
    (e.members.map fun m => Event.record (.resolved e.name m.name m.value)) =
      (b.members.zip e.values).map fun (d, value) => b.valueRecord d value := by
  rw [values, ← h.declarations, List.zip_map', List.map_map, h.name]
  rfl

theorem Resolves.countRecord (h : e.Resolves b) :
    Event.record (.loaded e.name e.size e.aliasCount) = b.countRecord := by
  rw [Block.countRecord, ← h.declarations, List.length_map, List.countP_map, h.name]
  rfl

theorem Resolves.records (h : e.Resolves b) : (e.loadEvents o).map (·.record) =
    if o.traceMembers then b.records e.values
    else (b.records e.values).filter (·.level ≠ .trace) := by
  rw [loadEvents, memberEvents, List.map_append, List.map_singleton, h.countRecord]
  cases o.traceMembers with
  | true =>
    rw [if_pos rfl, if_pos rfl, List.map_map, Block.records, ← h.valueRecords]
    rfl
  | false =>
    rw [if_neg Bool.false_ne_true, if_neg Bool.false_ne_true, Block.filter_records]
    rfl

end Enumeration

/-! ## All blocks -/

namespace Catalog
variable {o : Options} {c : Catalog} {blocks : List Block} {es : List Enumeration} {k : Nat}

theorem events_of_load (h : (load o blocks).outcome = .ok c) :
    (load o blocks).events = c.enumerations.flatMap (·.loadEvents o) := by
  induction blocks using List.reverseRecOn generalizing c with
  | nil =>
    cases h
    rfl
  | append_singleton blocks b ih =>
    obtain ⟨mid, hmid, hadd⟩ := load_concat_eq_ok_iff.mp h
    obtain ⟨hname, e, he, rfl⟩ := add_eq_ok_iff.mp hadd
    have hstep : (mid.add o b).events = e.loadEvents o := by rw [add_of_fresh hname, he]
    rw [load_concat, Logged.bind_of_ok hmid, ih hmid, hstep, push_enumerations,
      List.flatMap_append, List.flatMap_singleton]

/-- The first block that is rejected, if there is one. -/
theorem exists_stop (blocks : List Block) : ∃ k ≤ blocks.length,
    (∀ j < k, ¬ FailsAt blocks j) ∧ (k < blocks.length → FailsAt blocks k) := by
  by_cases h : ∃ k, FailsAt blocks k
  · classical
    exact ⟨Nat.find h, (Nat.find_spec h).lt.le, fun j => Nat.find_min h, fun _ => Nat.find_spec h⟩
  · exact ⟨blocks.length, le_rfl, fun j _ hj => h ⟨j, hj⟩, fun hlt => absurd hlt (lt_irrefl _)⟩

/-- Neither the rejected block nor those behind it report anything. -/
theorem events_load_take (o : Options) (hbefore : ∀ j < k, ¬ FailsAt blocks j)
    (hstop : k < blocks.length → FailsAt blocks k) :
    (load o blocks).events = (load o (blocks.take k)).events := by
  by_cases hk : k < blocks.length
  · obtain ⟨mid, hmid⟩ := isOk_load_take o hbefore
    obtain ⟨b, hb, hfails⟩ := hstop hk
    rw [← names_of_load hmid] at hfails
    obtain ⟨f, hf⟩ := (sound_of_load hmid).exists_add_eq_error o hfails
    rw [load_of_add_eq_error hmid hb hf]
  · rw [List.take_of_length_le (Nat.not_lt.mp hk)]

theorem forall₂_resolve_of_load (h : (load o blocks).outcome = .ok c) :
    List.Forall₂ (fun b e => b.resolve = .ok e) blocks c.enumerations := by
  have hmap : List.Forall₂ (· = ·) (blocks.map (·.resolve)) (c.enumerations.map .ok) := by
    rw [List.forall₂_eq_eq_eq]
    exact resolutions_of_load h
  rwa [List.forall₂_map_left_iff, List.forall₂_map_right_iff] at hmap

theorem resolve_rightUnique : Relator.RightUnique fun (b : Block) e => b.resolve = .ok e := by
  intro b e e' he he'
  exact Except.ok.inj (he.symm.trans he')

theorem records_of_resolve (o : Options)
    (h : List.Forall₂ (fun b e => b.resolve = .ok e) blocks es) :
    (es.flatMap (·.loadEvents o)).map (·.record) =
      if o.traceMembers then (List.zipWith Block.records blocks (es.map (·.values))).flatten
      else (List.zipWith Block.records blocks (es.map (·.values))).flatten.filter
        (·.level ≠ .trace) := by
  induction h with
  | nil => cases o.traceMembers <;> rfl
  | cons hb _ ih =>
    rw [List.flatMap_cons, List.map_append, ih, (Block.resolves_of_resolve hb).records]
    cases o.traceMembers <;> simp

/-- The records of loading are those of the blocks before the first rejected one, or of all blocks,
with the value at the end of the chain of each member. Without tracing they are the same but for the
records of the members. -/
theorem load_records_exact (blocks : List Block) :
    ∃ k ≤ blocks.length, (∀ j < k, ¬ FailsAt blocks j) ∧
      (k < blocks.length → FailsAt blocks k) ∧
      ∃ values : List (List Int32), List.Forall₂ Block.HasValues (blocks.take k) values ∧
        ∀ o, (load o blocks).events.map (·.record) =
          if o.traceMembers then (List.zipWith Block.records (blocks.take k) values).flatten
          else (List.zipWith Block.records (blocks.take k) values).flatten.filter
            (·.level ≠ .trace) := by
  obtain ⟨k, hk, hbefore, hstop⟩ := exists_stop blocks
  obtain ⟨c, hc⟩ := isOk_load_take .full hbefore
  have hresolve := forall₂_resolve_of_load hc
  refine ⟨k, hk, hbefore, hstop, c.enumerations.map (·.values), ?_, ?_⟩
  · rw [List.forall₂_map_right_iff]
    exact hresolve.imp fun b e he => (Block.resolves_of_resolve he).hasValues
  · intro o
    obtain ⟨c', hc'⟩ := isOk_load_take o hbefore
    have hsame : c'.enumerations = c.enumerations :=
      List.right_unique_forall₂' resolve_rightUnique (forall₂_resolve_of_load hc') hresolve
    rw [events_load_take o hbefore hstop, events_of_load hc', hsame, records_of_resolve o hresolve]

/-- The second block has resolved its first member when it comes to its cycle. -/
example : (load .full [⟨"E", ⟨"VK_A"⟩, [⟨"OLD", .reference "NEW", ⟨"VK_A"⟩, .absent⟩,
      ⟨"NEW", .literal (-1), ⟨"VK_A"⟩, .absent⟩]⟩,
    ⟨"F", ⟨"VK_A"⟩, [⟨"A", .literal 0, ⟨"VK_A"⟩, .absent⟩,
      ⟨"B", .reference "B", ⟨"VK_A"⟩, .absent⟩]⟩]).events.map (·.record.message) =
    ["E: OLD = -1", "E: NEW = -1", "Loaded E (2 members, 1 aliases)"] := by
  decide +kernel

end Catalog

end ConstantCatalog
