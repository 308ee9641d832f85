import ConstantCatalog.Mask
import ConstantCatalog.Enumeration.Basic

/-! # Flags in a mask

A mask stands for the flags with a single bit in it. Members with several bits take no part, and the
member with value zero stands for the empty mask only. -/

namespace ConstantCatalog
set_option autoImplicit false

namespace Enumeration

/-- The first canonical member with exactly the given bits. -/
def canonicalWithBits? (e : Enumeration) (bits : UInt32) : Option Constant :=
  e.canonicalMembers.find? (·.bits == bits)

/-- The bits of a mask that no canonical member has alone. -/
def uncovered (e : Enumeration) (mask : UInt32) : UInt32 :=
  Mask.union ((Mask.bits mask).filter fun bit => (e.canonicalWithBits? bit).isNone)

/-- The names of the flags in a mask, lowest bit first. -/
def flagNames (e : Enumeration) (mask : UInt32) : Except Fault (List String) :=
  if e.kind ≠ .flags then .error (.notFlags e.name)
  else if mask = 0 then .ok ((e.canonicalWithValue? 0).map (·.name)).toList
  else if e.uncovered mask ≠ 0 then .error (.uncoveredBits e.name (e.uncovered mask))
  else .ok (((Mask.bits mask).filterMap e.canonicalWithBits?).map (·.name))

end Enumeration

end ConstantCatalog
