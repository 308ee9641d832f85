import ConstantCatalog.Proofs.Binding.Mask

/-! # Variants and masks

Variants fold into a mask, and a mask unfolds into the variants that it includes. Each side goes as
far as the other allows: the variants without the zero one are in the unfolding of a mask exactly
when their fold has no bit outside it. The other laws follow from this one. Variants with several
bits may come back although they did not go in; where no variant has several, exactly those come
back that went in and are not zero. -/

namespace ConstantCatalog.Binding
set_option autoImplicit false
open Mask

variable {b : Binding} {v : Variant} {vs ws : List Variant} {m : UInt32}

theorem bits_eq_zero_iff : v.bits = 0 ↔ v.raw = 0 := by
  have hzero : (0 : Int32).toUInt32 = 0 := rfl
  rw [Variant.bits, ← hzero, toUInt32_injective.eq_iff]

theorem mem_ofMask : v ∈ b.ofMask m ↔
    v ∈ b.variants ∧ v.raw ≠ 0 ∧ includes m v.bits = true := by
  rw [ofMask, List.mem_filter, Bool.and_eq_true, bne_iff_ne, ne_eq, bits_eq_zero_iff]

theorem ofMask_sublist (b : Binding) (m : UInt32) : (b.ofMask m).Sublist b.variants :=
  List.filter_sublist

theorem mask_append (vs ws : List Variant) : mask (vs ++ ws) = mask vs ||| mask ws := by
  rw [mask, List.map_append, union_append, mask, mask]

theorem mask_congr (h : ∀ v, v ∈ vs ↔ v ∈ ws) : mask vs = mask ws := by
  apply union_congr
  intro bits
  simp only [List.mem_map, h]

theorem includes_mask_iff : includes m (mask vs) = true ↔ ∀ v ∈ vs, includes m v.bits = true := by
  rw [mask, includes_union, List.forall_mem_map]

/-- The zero variant counts for nothing in a mask, so that it need not come back. -/
theorem mem_ofMask_iff_includes_mask (hvs : vs ⊆ b.variants) :
    (∀ v ∈ vs, v.raw ≠ 0 → v ∈ b.ofMask m) ↔ includes m (mask vs) = true := by
  rw [includes_mask_iff]
  constructor
  · intro h v hv
    by_cases hzero : v.raw = 0
    · rw [bits_eq_zero_iff.mpr hzero]
      exact includes_zero m
    · exact (mem_ofMask.mp (h v hv hzero)).2.2
  · intro h v hv hraw
    exact mem_ofMask.mpr ⟨hvs hv, hraw, h v hv⟩

theorem includes_mask_ofMask (b : Binding) (m : UInt32) :
    includes m (mask (b.ofMask m)) = true :=
  (mem_ofMask_iff_includes_mask (b.ofMask_sublist m).subset).mp fun _ hv _ => hv

theorem mask_ofMask_mask (hvs : vs ⊆ b.variants) : mask (b.ofMask (mask vs)) = mask vs := by
  apply includes_antisymm _ (b.includes_mask_ofMask (mask vs))
  have hback := (mem_ofMask_iff_includes_mask hvs).mpr (includes_refl (mask vs))
  apply (mem_ofMask_iff_includes_mask (b := b) hvs).mp
  intro v hv hraw
  apply mem_ofMask.mpr
  refine ⟨hvs hv, hraw, includes_mask_iff.mp (includes_refl _) v (hback v hv hraw)⟩

section Singles
variable (hsingle : ∀ v ∈ b.variants, v.raw ≠ 0 → v.bits ∈ singles)
include hsingle

/-- A mask of variants with one bit each includes no other such variant. -/
theorem includes_mask_iff_mem (hvs : vs ⊆ b.variants) (hv : v ∈ b.variants) (hraw : v.raw ≠ 0) :
    includes (mask vs) v.bits = true ↔ v ∈ vs := by
  have hbit := hsingle v hv hraw
  rw [includes_single_iff hbit, mask, union_and_ne_zero_iff_exists hbit]
  constructor
  · intro ⟨bits, hbits, hmeets⟩
    obtain ⟨w, hw, rfl⟩ := List.mem_map.mp hbits
    have hwraw : w.raw ≠ 0 := by
      intro hzero
      rw [bits_eq_zero_iff.mpr hzero, UInt32.zero_and] at hmeets
      exact hmeets rfl
    have heq := (single_and_ne_zero_iff hbit (hsingle w (hvs hw) hwraw)).mp hmeets
    obtain rfl := List.inj_on_of_nodup_map b.bits_nodup (hvs hw) hv heq
    exact hw
  · intro hmem
    exact ⟨v.bits, List.mem_map_of_mem hmem, (single_and_ne_zero_iff hbit hbit).mpr rfl⟩

theorem ofMask_mask_of_singles (hvs : vs ⊆ b.variants) :
    b.ofMask (mask vs) = b.variants.filter fun v => v.raw ≠ 0 ∧ v ∈ vs := by
  apply List.filter_congr
  intro v hv
  rw [Bool.eq_iff_iff, Bool.and_eq_true, bne_iff_ne, decide_eq_true_eq, ne_eq, bits_eq_zero_iff]
  exact and_congr_right (includes_mask_iff_mem hsingle hvs hv)

end Singles

/-- Folding variants into a mask turns lists one behind the other into a union and knows no order
and no repetition. Unfolding keeps the order of the variants and repeats none. The variants that are
not zero are in the unfolding of a mask exactly when their fold has no bit outside it; so an
unfolding folds into the mask, and the unfolding of a fold folds as before. With one bit in each
variant that is not zero, exactly the variants of the fold that are not zero come back. -/
theorem mask_adjunction (b : Binding) :
    (∀ vs ws, mask (vs ++ ws) = mask vs ||| mask ws) ∧
    (∀ vs ws, (∀ v, v ∈ vs ↔ v ∈ ws) → mask vs = mask ws) ∧
    (∀ m, (b.ofMask m).Sublist b.variants ∧ (b.ofMask m).Nodup ∧
      mask (b.ofMask m) &&& ~~~m = 0) ∧
    ∀ vs ⊆ b.variants,
      (∀ m, (∀ v ∈ vs, v.raw ≠ 0 → v ∈ b.ofMask m) ↔ mask vs &&& ~~~m = 0) ∧
      mask (b.ofMask (mask vs)) = mask vs ∧
      ((∀ v ∈ b.variants, v.raw ≠ 0 → v.bits ∈ singles) →
        b.ofMask (mask vs) = b.variants.filter fun v => v.raw ≠ 0 ∧ v ∈ vs) := by
  refine ⟨mask_append, fun vs ws => mask_congr, fun m => ⟨b.ofMask_sublist m, ?_, ?_⟩,
    fun vs hvs => ⟨fun m => ?_, mask_ofMask_mask hvs, fun hsingle => ?_⟩⟩
  · exact (b.ofMask_sublist m).nodup b.variants_nodup
  · exact includes_iff_diff_eq_zero.mp (b.includes_mask_ofMask m)
  · rw [← includes_iff_diff_eq_zero]
    exact mem_ofMask_iff_includes_mask hvs
  · exact ofMask_mask_of_singles hsingle hvs

/-- A zero variant, the sign bit, and no variant with several bits. -/
def singleBinding : Binding where
  enumeration := "SingleFlagBits"
  kind := .flags
  variants := [⟨"Low", "LOW", 1⟩, ⟨"High", "HIGH", -2147483648⟩, ⟨"None", "NONE", 0⟩]

/-- Where a variant has both bits, it comes back as well. -/
theorem mask_adjunction_signBit :
    mask (mixedBinding.ofMask (mask [⟨"High", "HIGH", -2147483648⟩, ⟨"None", "NONE", 0⟩,
      ⟨"Low", "LOW", 1⟩])) = 2147483649 ∧
    (mixedBinding.ofMask 2147483649).map (·.symbol) = ["LOW", "BOTH", "HIGH"] ∧
    singleBinding.ofMask (mask [⟨"High", "HIGH", -2147483648⟩, ⟨"None", "NONE", 0⟩,
      ⟨"Low", "LOW", 1⟩]) = [⟨"Low", "LOW", 1⟩, ⟨"High", "HIGH", -2147483648⟩] := by
  obtain ⟨-, hback, -⟩ := (mask_adjunction mixedBinding).2.2.2
    [⟨"High", "HIGH", -2147483648⟩, ⟨"None", "NONE", 0⟩, ⟨"Low", "LOW", 1⟩] (by decide)
  obtain ⟨-, -, hsingle⟩ := (mask_adjunction singleBinding).2.2.2
    [⟨"High", "HIGH", -2147483648⟩, ⟨"None", "NONE", 0⟩, ⟨"Low", "LOW", 1⟩] (by decide)
  refine ⟨hback.trans (by decide), by decide, ?_⟩
  rw [hsingle (by decide)]
  decide

end ConstantCatalog.Binding
