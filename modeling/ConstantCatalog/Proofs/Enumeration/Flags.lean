import ConstantCatalog.Enumeration.Flags
import ConstantCatalog.Proofs.Mask
import ConstantCatalog.Proofs.Text.Trim

/-! # Flags of a mask

The bits of a mask that no canonical member has alone are left over; the others have a name each.
Without the bits left over a mask is covered, and its names are those of the members that have its
bits, lowest first. -/

namespace ConstantCatalog
set_option autoImplicit false
open Mask

theorem Kind.ofName_eq_flags_iff {name : String} :
    Kind.ofName name = .flags ↔ "FlagBits".toList <:+: name.toList := by
  rw [← Text.occursIn_iff, ofName]
  split <;> simp_all

namespace Enumeration
variable {e : Enumeration} {mask bit : UInt32}

theorem uncovered_and_ne_zero_iff (hbit : bit ∈ singles) : e.uncovered mask &&& bit ≠ 0 ↔
    mask &&& bit ≠ 0 ∧ e.canonicalWithBits? bit = none := by
  have hparts : ∀ part ∈ (bits mask).filter fun bit => (e.canonicalWithBits? bit).isNone,
      part ∈ singles := by
    intro part hpart
    exact (mem_bits.mp (List.mem_filter.mp hpart).1).1
  rw [uncovered, union_and_ne_zero_iff hbit hparts, List.mem_filter, mem_bits,
    Option.isNone_iff_eq_none]
  simp [hbit]

def covered (e : Enumeration) (mask : UInt32) : UInt32 := mask &&& ~~~e.uncovered mask

theorem bits_covered : bits (e.covered mask) =
    (bits mask).filter fun bit => (e.canonicalWithBits? bit).isSome := by
  rw [bits, bits, List.filter_filter]
  apply List.filter_congr
  intro bit hbit
  rw [Bool.eq_iff_iff, Bool.and_eq_true, decide_eq_true_iff, decide_eq_true_iff, covered,
    diff_and_ne_zero_iff hbit, uncovered_and_ne_zero_iff hbit]
  cases e.canonicalWithBits? bit <;> simp [and_comm]

theorem uncovered_covered : e.uncovered (e.covered mask) = 0 := by
  have hnone : (bits (e.covered mask)).filter (fun bit => (e.canonicalWithBits? bit).isNone) =
      [] := by
    rw [bits_covered, List.filter_filter, List.filter_eq_nil_iff]
    intro bit _
    cases e.canonicalWithBits? bit <;> simp
  rw [uncovered, hnone, union_nil]

theorem filterMap_bits_covered : (bits (e.covered mask)).filterMap e.canonicalWithBits? =
    (bits mask).filterMap e.canonicalWithBits? := by
  rw [bits_covered, List.filterMap_filter]
  apply List.filterMap_congr
  intro bit _
  cases h : e.canonicalWithBits? bit <;> simp

/-! ## Answers -/

variable (hflags : e.kind = .flags)
include hflags

theorem flagNames_zero :
    e.flagNames 0 = .ok ((e.canonicalWithValue? 0).map (·.name)).toList := by
  simp [flagNames, hflags]

theorem flagNames_of_uncovered_ne_zero (hmask : mask ≠ 0) (h : e.uncovered mask ≠ 0) :
    e.flagNames mask = .error (.uncoveredBits e.name (e.uncovered mask)) := by
  simp [flagNames, hflags, hmask, h]

theorem flagNames_of_uncovered_eq_zero (hmask : mask ≠ 0) (h : e.uncovered mask = 0) :
    e.flagNames mask = .ok (((bits mask).filterMap e.canonicalWithBits?).map (·.name)) := by
  simp [flagNames, hflags, hmask, h]

theorem flagNames_covered (hmask : e.covered mask ≠ 0) : e.flagNames (e.covered mask) =
    .ok (((bits mask).filterMap e.canonicalWithBits?).map (·.name)) := by
  rw [flagNames_of_uncovered_eq_zero hflags hmask uncovered_covered, filterMap_bits_covered]

end Enumeration

end ConstantCatalog
