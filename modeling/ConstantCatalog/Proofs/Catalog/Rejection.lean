import Mathlib.Data.List.Forall2
import Mathlib.Data.String.Basic
import Mathlib.Order.Bounds.Basic
import ConstantCatalog.Proofs.Catalog.Load

/-! # Loaded and rejected blocks

Blocks are added one after the other, each to what the blocks before it resolve to. The first block
whose name stands before it already or that does not resolve ends the loading with its own fault,
and no block behind it is looked at. Without such a block the catalog has one enumeration for each
block, in their order. -/

namespace ConstantCatalog.Catalog
set_option autoImplicit false

variable {o : Options} {c mid : Catalog} {b : Block} {blocks before after : List Block} {k : Nat}

/-- The block at index `k` cannot be loaded: its name stands at a smaller index already, or it does
not resolve. -/
def FailsAt (blocks : List Block) (k : Nat) : Prop :=
  ∃ b, blocks[k]? = some b ∧ (b.name ∈ (blocks.take k).map (·.name) ∨ ∃ f, b.resolve = .error f)

/-! ## One block after the other -/

theorem addAll_append (o : Options) (c : Catalog) (before after : List Block) :
    c.addAll o (before ++ after) = c.addAll o before >>= (·.addAll o after) := by
  induction before generalizing c with
  | nil => rw [addAll, pure_bind, List.nil_append]
  | cons b before ih => simp only [List.cons_append, addAll, bind_assoc, ih]

theorem load_concat (o : Options) (blocks : List Block) (b : Block) :
    load o (blocks ++ [b]) = load o blocks >>= (·.add o b) := by
  simp only [load, addAll_append, addAll, bind_pure]

theorem load_concat_eq_ok_iff : (load o (blocks ++ [b])).outcome = .ok c ↔
    ∃ mid, (load o blocks).outcome = .ok mid ∧ (mid.add o b).outcome = .ok c := by
  rw [load_concat, Logged.outcome_bind_eq_ok]

/-- There is one enumeration for each block, in order. -/
theorem resolutions_of_load (h : (load o blocks).outcome = .ok c) :
    blocks.map (·.resolve) = c.enumerations.map .ok := by
  induction blocks using List.reverseRecOn generalizing c with
  | nil =>
    cases h
    rfl
  | append_singleton blocks b ih =>
    obtain ⟨mid, hmid, hadd⟩ := load_concat_eq_ok_iff.mp h
    obtain ⟨-, e, he, rfl⟩ := add_eq_ok_iff.mp hadd
    rw [push_enumerations, List.map_append, List.map_append, ih hmid, List.map_singleton,
      List.map_singleton, he]

theorem names_of_load (h : (load o blocks).outcome = .ok c) :
    c.enumerations.map (·.name) = blocks.map (·.name) := by
  induction blocks using List.reverseRecOn generalizing c with
  | nil =>
    cases h
    rfl
  | append_singleton blocks b ih =>
    obtain ⟨mid, hmid, hadd⟩ := load_concat_eq_ok_iff.mp h
    obtain ⟨-, e, he, rfl⟩ := add_eq_ok_iff.mp hadd
    rw [push_enumerations, List.map_append, List.map_append, ih hmid, List.map_singleton,
      List.map_singleton, (Block.resolves_of_resolve he).name]

theorem isOk_load_concat_iff : (∃ c, (load o (blocks ++ [b])).outcome = .ok c) ↔
    (∃ c, (load o blocks).outcome = .ok c) ∧
      b.name ∉ blocks.map (·.name) ∧ ∃ e, b.resolve = .ok e := by
  constructor
  · intro ⟨c, hc⟩
    obtain ⟨mid, hmid, hadd⟩ := load_concat_eq_ok_iff.mp hc
    obtain ⟨hname, e, he, -⟩ := add_eq_ok_iff.mp hadd
    rw [(sound_of_load hmid).contains_eq_false_iff, names_of_load hmid] at hname
    exact ⟨⟨mid, hmid⟩, hname, e, he⟩
  · intro ⟨⟨mid, hmid⟩, hname, e, he⟩
    rw [← names_of_load hmid, ← (sound_of_load hmid).contains_eq_false_iff] at hname
    exact ⟨_, load_concat_eq_ok_iff.mpr ⟨mid, hmid, add_eq_ok_iff.mpr ⟨hname, e, he, rfl⟩⟩⟩

/-! ## The first failure -/

theorem FailsAt.lt (h : FailsAt blocks k) : k < blocks.length := by
  obtain ⟨b, hb, -⟩ := h
  exact (List.getElem?_eq_some_iff.mp hb).1

theorem failsAt_append_of_lt (hk : k < before.length) (after : List Block) :
    FailsAt (before ++ after) k ↔ FailsAt before k := by
  rw [FailsAt, FailsAt, List.getElem?_append_left hk, List.take_append_of_le_length hk.le]

theorem failsAt_length : FailsAt (before ++ b :: after) before.length ↔
    b.name ∈ before.map (·.name) ∨ ∃ f, b.resolve = .error f := by
  simp [FailsAt]

theorem forall_not_failsAt_concat : (∀ k, ¬ FailsAt (blocks ++ [b]) k) ↔
    (∀ k, ¬ FailsAt blocks k) ∧ b.name ∉ blocks.map (·.name) ∧ ∃ e, b.resolve = .ok e := by
  have hlast : ¬ FailsAt (blocks ++ [b]) blocks.length ↔
      b.name ∉ blocks.map (·.name) ∧ ∃ e, b.resolve = .ok e := by
    rw [failsAt_length, not_or]
    cases b.resolve <;> simp
  rw [← hlast]
  constructor
  · intro h
    refine ⟨fun k hk => h k ?_, h _⟩
    exact (failsAt_append_of_lt hk.lt [b]).mpr hk
  · intro ⟨hblocks, hlast⟩ k hk
    have hle : k ≤ blocks.length := by
      have hlt := hk.lt
      rw [List.length_append, List.length_singleton] at hlt
      omega
    rcases hle.lt_or_eq with hlt | rfl
    · exact hblocks k ((failsAt_append_of_lt hlt [b]).mp hk)
    · exact hlast hk

theorem isOk_load_iff : (∃ c, (load o blocks).outcome = .ok c) ↔ ∀ k, ¬ FailsAt blocks k := by
  induction blocks using List.reverseRecOn with
  | nil =>
    apply iff_of_true ⟨_, rfl⟩
    intro k hk
    exact absurd hk.lt (Nat.not_lt_zero k)
  | append_singleton blocks b ih => rw [isOk_load_concat_iff, forall_not_failsAt_concat, ih]

theorem isOk_load_take (o : Options) (h : ∀ j < k, ¬ FailsAt blocks j) :
    ∃ mid, (load o (blocks.take k)).outcome = .ok mid := by
  rw [isOk_load_iff]
  intro j hj
  have hjk : j < k := hj.lt.trans_le (List.length_take_le k blocks)
  have hfails := (failsAt_append_of_lt hj.lt (blocks.drop k)).mpr hj
  rw [List.take_append_drop] at hfails
  exact h j hjk hfails

theorem Sound.exists_add_eq_error (hc : c.Sound) (o : Options)
    (h : b.name ∈ c.enumerations.map (·.name) ∨ ∃ f, b.resolve = .error f) :
    ∃ f, (c.add o b).outcome = .error f := by
  cases hname : c.index.contains b.name with
  | true => exact ⟨_, add_eq_error_iff.mpr (Or.inl ⟨hname, rfl⟩)⟩
  | false =>
    obtain ⟨f, hf⟩ := h.resolve_left (hc.contains_eq_false_iff.mp hname)
    exact ⟨f, add_eq_error_iff.mpr (Or.inr ⟨hname, hf⟩)⟩

/-- What stands behind the block that cannot be added does not matter. -/
theorem load_of_add_eq_error (hmid : (load o (blocks.take k)).outcome = .ok mid)
    (hb : blocks[k]? = some b) {f : Fault} (hadd : (mid.add o b).outcome = .error f) :
    load o blocks = ⟨.error f, (load o (blocks.take k)).events⟩ := by
  obtain ⟨hlt, rfl⟩ := List.getElem?_eq_some_iff.mp hb
  have hsplit : load o blocks =
      load o (blocks.take k) >>= (·.addAll o (blocks[k] :: blocks.drop (k + 1))) := by
    rw [load, load, ← addAll_append, ← List.drop_eq_getElem_cons hlt, List.take_append_drop]
  have hstep : mid.add o blocks[k] = ⟨.error f, []⟩ := by
    rcases add_eq_error_iff.mp hadd with ⟨hname, rfl⟩ | ⟨hname, hresolve⟩
    · exact add_of_repeated hname
    · rw [add_of_fresh hname, hresolve]
  rw [hsplit, Logged.bind_of_ok hmid, addAll, hstep, Logged.bind_of_error rfl, List.append_nil]

theorem load_of_isLeast (hk : IsLeast {k | FailsAt blocks k} k) (hb : blocks[k]? = some b) :
    (b.name ∈ (blocks.take k).map (·.name) →
      (load o blocks).outcome = .error (.repeatedEnumeration b.name)) ∧
    (b.name ∉ (blocks.take k).map (·.name) →
      ∃ f, b.resolve = .error f ∧ (load o blocks).outcome = .error f) := by
  obtain ⟨mid, hmid⟩ := isOk_load_take o fun j hj hfails => absurd (hk.2 hfails) (Nat.not_le.mpr hj)
  have hload : ∀ f, (mid.add o b).outcome = .error f → (load o blocks).outcome = .error f := by
    intro f hf
    rw [load_of_add_eq_error hmid hb hf]
  have hsound := sound_of_load hmid
  simp only [add_eq_error_iff, hsound.contains_iff, hsound.contains_eq_false_iff,
    names_of_load hmid] at hload
  constructor
  · intro hname
    exact hload _ (Or.inl ⟨hname, rfl⟩)
  · intro hname
    obtain ⟨b', hb', hfails⟩ := hk.1
    obtain rfl : b' = b := Option.some.inj (hb'.symm.trans hb)
    obtain ⟨f, hf⟩ := hfails.resolve_left hname
    exact ⟨f, hf, hload f (Or.inr ⟨hname, hf⟩)⟩

/-! ## What a loaded catalog holds -/

theorem names_perm (c : Catalog) : c.names.Perm (c.enumerations.map (·.name)) :=
  List.mergeSort_perm _ _

theorem names_pairwise_lt (h : (c.enumerations.map (·.name)).Nodup) :
    c.names.Pairwise (· < ·) := by
  have hle : c.names.Pairwise (decide <| · ≤ ·) := by
    apply List.pairwise_mergeSort
    · intro x y z hxy hyz
      exact decide_eq_true ((of_decide_eq_true hxy).trans (of_decide_eq_true hyz))
    · intro x y
      simpa using le_total x y
  have hne : c.names.Nodup := c.names_perm.nodup_iff.mpr h
  apply (hle.and hne).imp
  intro x y ⟨hxy, hxy'⟩
  exact lt_of_le_of_ne (of_decide_eq_true hxy) hxy'

theorem enumeration_eq_ok_iff_of_load (h : (load o blocks).outcome = .ok c) {name : String}
    {e : Enumeration} :
    c.enumeration name = .ok e ↔ ∃ b ∈ blocks, b.name = name ∧ b.resolve = .ok e := by
  have hmem : e ∈ c.enumerations ↔ ∃ b ∈ blocks, b.resolve = .ok e := by
    have hmap : (.ok e : Except Fault Enumeration) ∈ c.enumerations.map .ok ↔
        e ∈ c.enumerations := by simp
    rw [← hmap, ← resolutions_of_load h, List.mem_map]
  rw [(sound_of_load h).enumeration_eq_ok_iff, hmem]
  constructor
  · intro ⟨⟨b, hb, he⟩, hname⟩
    exact ⟨b, hb, (Block.resolves_of_resolve he).name ▸ hname, he⟩
  · intro ⟨b, hb, hname, he⟩
    exact ⟨⟨b, hb, he⟩, (Block.resolves_of_resolve he).name.trans hname⟩

theorem isOk_enumeration_iff_of_load (h : (load o blocks).outcome = .ok c) {name : String} :
    (∃ e, c.enumeration name = .ok e) ↔ name ∈ blocks.map (·.name) := by
  rw [← names_of_load h]
  cases he : c.enumeration name with
  | ok e =>
    obtain ⟨hmem, hname⟩ := (sound_of_load h).enumeration_eq_ok_iff.mp he
    exact iff_of_true ⟨e, rfl⟩ (List.mem_map.mpr ⟨e, hmem, hname⟩)
  | error f => exact iff_of_false (by simp) ((sound_of_load h).enumeration_eq_error_iff.mp he).1

theorem inStep_of_load (h : (load o blocks).outcome = .ok c) :
    c.index.InStep (blocks.map (·.name)) := by
  rw [← names_of_load h]
  exact (sound_of_load h).index

/-- Loading succeeds exactly when no block has the name of an earlier one and all resolve. The
catalog then has the resolutions of the blocks in order and the names of the blocks entered where
they stand, finds each under the name of its block and under no other, and lists the names in
ascending order. Otherwise the first block that has the name
of an earlier one or does not resolve decides the fault: its name if that is repeated, else whatever
keeps it from resolving. -/
theorem load_exact (o : Options) (blocks : List Block) :
    ((∃ c, (load o blocks).outcome = .ok c) ↔ ∀ k, ¬ FailsAt blocks k) ∧
    (∀ c, (load o blocks).outcome = .ok c →
      blocks.map (·.resolve) = c.enumerations.map .ok ∧
      c.index.InStep (blocks.map (·.name)) ∧
      (∀ name, (∃ e, c.enumeration name = .ok e) ↔ name ∈ blocks.map (·.name)) ∧
      (∀ name e, c.enumeration name = .ok e ↔ ∃ b ∈ blocks, b.name = name ∧ b.resolve = .ok e) ∧
      c.names.Pairwise (· < ·) ∧ c.names.length = c.size ∧
      ∀ name, name ∈ c.names ↔ name ∈ blocks.map (·.name)) ∧
    ∀ k b, IsLeast {k | FailsAt blocks k} k → blocks[k]? = some b →
      (b.name ∈ (blocks.take k).map (·.name) →
        (load o blocks).outcome = .error (.repeatedEnumeration b.name)) ∧
      (b.name ∉ (blocks.take k).map (·.name) →
        ∃ f, b.resolve = .error f ∧ (load o blocks).outcome = .error f) := by
  refine ⟨isOk_load_iff, ?_, fun k b => load_of_isLeast⟩
  intro c hc
  refine ⟨resolutions_of_load hc, inStep_of_load hc, fun name => isOk_enumeration_iff_of_load hc,
    fun name e => enumeration_eq_ok_iff_of_load hc, ?_, ?_, ?_⟩
  · exact names_pairwise_lt (sound_of_load hc).names_nodup
  · rw [c.names_perm.length_eq, List.length_map, size]
  · intro name
    rw [c.names_perm.mem_iff, names_of_load hc]

def soleMember (name member : String) (rightSide : RightSide) : Block :=
  ⟨name, ⟨"VK_A"⟩, [⟨member, rightSide, ⟨"VK_A"⟩, .absent⟩]⟩

/-- The second block has the name of the first one and a cycle, and the third one has a cycle. -/
def rejectedBlocks : List Block :=
  [soleMember "E" "A" (.literal 1), soleMember "E" "B" (.reference "B"),
   soleMember "F" "C" (.reference "C")]

/-- The first block alone loads, the second one is rejected for its name behind the first one, and
for its cycle without it. -/
theorem load_exact_rejectedBlocks :
    (∃ c, (load .full (rejectedBlocks.take 1)).outcome = .ok c ∧ "E" ∈ c.names) ∧
    (load .full rejectedBlocks).outcome = .error (.repeatedEnumeration "E") ∧
    (load .full (rejectedBlocks.drop 1)).outcome = .error (.aliasCycle "E" ["B", "B"]) := by
  have hcycle : (soleMember "E" "B" (.reference "B")).resolve =
      .error (.aliasCycle "E" ["B", "B"]) := by decide +kernel
  have hfirst : ∀ blocks, ¬ FailsAt (soleMember "E" "A" (.literal 1) :: blocks) 0 := by
    rintro blocks ⟨b, hb, hname | ⟨f, hf⟩⟩
    · cases hname
    · have hok : (soleMember "E" "A" (.literal 1)).resolve.isOk = true := by decide +kernel
      rw [Option.some.inj hb, hf] at hok
      cases hok
  have hsecond : IsLeast {k | FailsAt rejectedBlocks k} 1 := by
    refine ⟨⟨_, rfl, Or.inl (by decide)⟩, ?_⟩
    intro k hk
    apply Nat.one_le_iff_ne_zero.mpr
    rintro rfl
    exact hfirst _ hk
  have hthird : IsLeast {k | FailsAt (rejectedBlocks.drop 1) k} 0 :=
    ⟨⟨_, rfl, Or.inr ⟨_, hcycle⟩⟩, fun k _ => Nat.zero_le k⟩
  refine ⟨?_, ?_, ?_⟩
  · obtain ⟨hloads, hanswers, -⟩ := load_exact .full (rejectedBlocks.take 1)
    obtain ⟨c, hc⟩ := hloads.mpr fun k hk => by
      obtain rfl : k = 0 := Nat.lt_one_iff.mp hk.lt
      exact hfirst [] hk
    obtain ⟨-, -, -, -, -, -, hnames⟩ := hanswers c hc
    exact ⟨c, hc, (hnames "E").mpr (by decide)⟩
  · exact ((load_exact .full rejectedBlocks).2.2 _ _ hsecond rfl).1 (by decide)
  · obtain ⟨f, hf, hload⟩ :=
      ((load_exact .full (rejectedBlocks.drop 1)).2.2 _ _ hthird rfl).2 (by decide)
    cases hcycle.symm.trans hf
    exact hload

end ConstantCatalog.Catalog
