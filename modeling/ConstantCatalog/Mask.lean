/-! # Masks

Sets of bits in a 32-bit word: the single bits of a mask, the union of several masks, and whether
one mask includes another. The sign bit of the signed reading is a bit like any other. -/

namespace ConstantCatalog.Mask
set_option autoImplicit false

/-- The 32 single bits, lowest first. -/
def singles : List UInt32 :=
  (List.range 32).map fun i => 1 <<< UInt32.ofNat i

/-- The single bits of a mask, lowest first. -/
def bits (mask : UInt32) : List UInt32 :=
  singles.filter (mask &&& · ≠ 0)

def union : List UInt32 → UInt32
  | [] => 0
  | mask :: rest => mask ||| union rest

/-- Whether every bit of `part` is in `mask`. -/
def includes (mask part : UInt32) : Bool :=
  mask &&& part == part

@[simp] theorem union_nil : union [] = 0 := rfl

@[simp] theorem union_cons (mask : UInt32) (rest : List UInt32) :
    union (mask :: rest) = mask ||| union rest := rfl

theorem union_append (xs ys : List UInt32) : union (xs ++ ys) = union xs ||| union ys := by
  induction xs with
  | nil => simp
  | cons x xs ih => simp [ih, UInt32.or_assoc]

theorem mem_bits {mask bit : UInt32} : bit ∈ bits mask ↔ bit ∈ singles ∧ mask &&& bit ≠ 0 := by
  simp [bits]

/-- Inclusion bit by bit. -/
theorem includes_iff {mask part : UInt32} :
    includes mask part = true ↔
      ∀ i : Nat, part.toBitVec.getLsbD i = true → mask.toBitVec.getLsbD i = true := by
  rw [includes, beq_iff_eq, ← UInt32.toBitVec_inj, UInt32.toBitVec_and]
  constructor
  · intro h i hi
    rw [← h, BitVec.getLsbD_and, Bool.and_eq_true] at hi
    exact hi.1
  · intro h
    apply BitVec.eq_of_getLsbD_eq
    intro i _
    rw [BitVec.getLsbD_and]
    cases hp : part.toBitVec.getLsbD i with
    | false => simp
    | true => simp [h i hp]

/-- A mask includes the union of two parts when it includes both. -/
theorem includes_or (mask a b : UInt32) :
    includes mask (a ||| b) = (includes mask a && includes mask b) := by
  rw [Bool.eq_iff_iff, Bool.and_eq_true, includes_iff, includes_iff, includes_iff]
  simp only [UInt32.toBitVec_or, BitVec.getLsbD_or, Bool.or_eq_true]
  exact ⟨fun h => ⟨fun i hi => h i (.inl hi), fun i hi => h i (.inr hi)⟩,
    fun h i hi => hi.elim (h.1 i) (h.2 i)⟩

/-- A mask includes a union when it includes every part. -/
theorem includes_union {mask : UInt32} {parts : List UInt32} :
    includes mask (union parts) = true ↔ ∀ part ∈ parts, includes mask part = true := by
  induction parts with
  | nil => simp [includes]
  | cons part parts ih => simp [includes_or, ih]

end ConstantCatalog.Mask
