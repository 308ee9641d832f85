import ConstantCatalog.Mask

/-! # Single bits

A mask said by its single bits. Each of them is a power of two, so that a mask meets it exactly when
it has that bit; unions and differences of masks are told bit by bit. -/

namespace ConstantCatalog.Mask
set_option autoImplicit false

theorem toBitVec_single (i : Fin 32) :
    ((1 : UInt32) <<< UInt32.ofNat i.val).toBitVec = BitVec.twoPow 32 i.val := by
  revert i
  decide

/-- The single bits are the powers of two. -/
theorem mem_singles_iff {bit : UInt32} :
    bit ∈ singles ↔ ∃ i < 32, bit.toBitVec = BitVec.twoPow 32 i := by
  simp only [singles, List.mem_map, List.mem_range]
  constructor
  · intro ⟨i, hi, hbit⟩
    exact ⟨i, hi, hbit ▸ toBitVec_single ⟨i, hi⟩⟩
  · intro ⟨i, hi, hbit⟩
    refine ⟨i, hi, ?_⟩
    rw [← UInt32.toBitVec_inj, hbit]
    exact toBitVec_single ⟨i, hi⟩

theorem singles_pairwise_lt : singles.Pairwise (· < ·) := by
  decide +kernel

theorem bits_pairwise_lt (mask : UInt32) : (bits mask).Pairwise (· < ·) :=
  singles_pairwise_lt.sublist List.filter_sublist

theorem bits_zero : bits 0 = [] := by
  simp [bits]

theorem twoPow_ne_zero {i : Nat} (hi : i < 32) : BitVec.twoPow 32 i ≠ 0#32 := by
  intro hzero
  have hbit := congrArg (fun bits => bits.getLsbD i) hzero
  simp [hi] at hbit

section Single
variable {bit : UInt32} (hbit : bit ∈ singles)
include hbit

/-- Meeting a single bit is having the bit at its index. -/
theorem exists_index : ∃ i < 32, bit.toBitVec = BitVec.twoPow 32 i ∧
    ∀ mask : UInt32, mask &&& bit ≠ 0 ↔ mask.toBitVec.getLsbD i = true := by
  obtain ⟨i, hi, htwoPow⟩ := mem_singles_iff.mp hbit
  refine ⟨i, hi, htwoPow, ?_⟩
  intro mask
  rw [ne_eq, ← UInt32.toBitVec_inj, UInt32.toBitVec_and, htwoPow, BitVec.and_twoPow]
  cases mask.toBitVec.getLsbD i with
  | false => simp
  | true => simpa using twoPow_ne_zero hi

theorem ne_zero_of_mem_singles : bit ≠ 0 := by
  obtain ⟨i, hi, htwoPow, -⟩ := exists_index hbit
  rw [ne_eq, ← UInt32.toBitVec_inj, htwoPow]
  exact twoPow_ne_zero hi

theorem includes_single_iff {mask : UInt32} : includes mask bit = true ↔ mask &&& bit ≠ 0 := by
  obtain ⟨i, hi, htwoPow, hmeets⟩ := exists_index hbit
  rw [hmeets, includes_iff, htwoPow]
  constructor
  · intro h
    exact h i (by simp [hi])
  · intro h j hj
    have hij : i = j := by simpa [hi] using hj
    exact hij ▸ h

theorem single_and_ne_zero_iff {bit' : UInt32} (hbit' : bit' ∈ singles) :
    bit' &&& bit ≠ 0 ↔ bit' = bit := by
  obtain ⟨i, hi, htwoPow, hmeets⟩ := exists_index hbit
  obtain ⟨j, hj, htwoPow', -⟩ := exists_index hbit'
  rw [hmeets, ← UInt32.toBitVec_inj, htwoPow, htwoPow']
  constructor
  · intro h
    have hji : j = i := by simpa [hj] using h
    rw [hji]
  · intro h
    rw [h]
    simp [hi]

theorem or_and_ne_zero_iff {a b : UInt32} :
    (a ||| b) &&& bit ≠ 0 ↔ a &&& bit ≠ 0 ∨ b &&& bit ≠ 0 := by
  obtain ⟨i, -, -, hmeets⟩ := exists_index hbit
  simp [hmeets]

theorem diff_and_ne_zero_iff {a b : UInt32} :
    (a &&& ~~~b) &&& bit ≠ 0 ↔ a &&& bit ≠ 0 ∧ ¬ b &&& bit ≠ 0 := by
  obtain ⟨i, hi, -, hmeets⟩ := exists_index hbit
  simp [hmeets, hi]

theorem union_and_ne_zero_iff_exists {parts : List UInt32} :
    union parts &&& bit ≠ 0 ↔ ∃ part ∈ parts, part &&& bit ≠ 0 := by
  induction parts with
  | nil => simp
  | cons part parts ih =>
    rw [union_cons, or_and_ne_zero_iff hbit, ih]
    simp only [List.mem_cons, exists_eq_or_imp]

/-- A union of single bits meets exactly these. -/
theorem union_and_ne_zero_iff {parts : List UInt32} (hparts : ∀ part ∈ parts, part ∈ singles) :
    union parts &&& bit ≠ 0 ↔ bit ∈ parts := by
  rw [union_and_ne_zero_iff_exists hbit]
  constructor
  · intro ⟨part, hpart, hmeets⟩
    exact (single_and_ne_zero_iff hbit (hparts part hpart)).mp hmeets ▸ hpart
  · intro hmem
    exact ⟨bit, hmem, (single_and_ne_zero_iff hbit hbit).mpr rfl⟩

end Single

/-- Masks that meet the same single bits are equal. -/
theorem eq_of_and_single {a b : UInt32}
    (h : ∀ bit ∈ singles, a &&& bit ≠ 0 ↔ b &&& bit ≠ 0) : a = b := by
  rw [← UInt32.toBitVec_inj]
  apply BitVec.eq_of_getLsbD_eq
  intro i hi
  have hsingle : (1 : UInt32) <<< UInt32.ofNat i ∈ singles :=
    mem_singles_iff.mpr ⟨i, hi, toBitVec_single ⟨i, hi⟩⟩
  obtain ⟨j, hj, htwoPow, hmeets⟩ := exists_index hsingle
  have hji : j = i := by
    have hbit :=
      congrArg (fun bits => bits.getLsbD j) ((toBitVec_single ⟨i, hi⟩).symm.trans htwoPow)
    simpa [hj] using hbit
  have hab := h _ hsingle
  rw [hmeets, hmeets, hji] at hab
  exact Bool.eq_iff_iff.mpr hab

/-- A mask is the union of its single bits. -/
theorem union_bits (mask : UInt32) : union (bits mask) = mask := by
  apply eq_of_and_single
  intro bit hbit
  rw [union_and_ne_zero_iff hbit fun part hpart => (mem_bits.mp hpart).1, mem_bits]
  exact and_iff_right hbit

/-! ## Inclusion -/

variable {mask part : UInt32} {parts parts' : List UInt32}

/-- A mask includes what has no bit outside it. -/
theorem includes_iff_diff_eq_zero : includes mask part = true ↔ part &&& ~~~mask = 0 := by
  rw [includes_iff, ← UInt32.toBitVec_inj]
  constructor
  · intro h
    apply BitVec.eq_of_getLsbD_eq
    intro i hi
    cases hpart : part.toBitVec.getLsbD i with
    | false => simp [hpart]
    | true => simp [h i hpart]
  · intro h i hpart
    have hi : i < 32 := BitVec.lt_of_getLsbD hpart
    have hbit := congrArg (fun bits => bits.getLsbD i) h
    simpa [hpart, hi] using hbit

theorem includes_refl (mask : UInt32) : includes mask mask = true := by
  simp [includes]

theorem includes_zero (mask : UInt32) : includes mask 0 = true := by
  simp [includes]

theorem includes_antisymm (h : includes mask part = true) (h' : includes part mask = true) :
    mask = part := by
  rw [includes, beq_iff_eq] at h h'
  rw [← h', UInt32.and_comm, h]

theorem includes_union_of_mem (h : part ∈ parts) : includes (union parts) part = true :=
  includes_union.mp (includes_refl _) part h

theorem includes_union_of_subset (h : parts ⊆ parts') :
    includes (union parts') (union parts) = true :=
  includes_union.mpr fun _ hpart => includes_union_of_mem (h hpart)

/-- A union depends neither on the order of its parts nor on repetitions. -/
theorem union_congr (h : ∀ part, part ∈ parts ↔ part ∈ parts') : union parts = union parts' :=
  includes_antisymm (includes_union_of_subset fun part hpart => (h part).mpr hpart)
    (includes_union_of_subset fun part hpart => (h part).mp hpart)

end ConstantCatalog.Mask
