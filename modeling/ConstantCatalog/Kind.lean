import ConstantCatalog.Text.Split

/-! # Kinds of enumerations -/

namespace ConstantCatalog
set_option autoImplicit false

/-- An enumeration holds plain values, or flags: the bits of a mask. -/
inductive Kind where
  | value
  | flags
  deriving DecidableEq

/-- The flags enumerations are those with `FlagBits` in their name. -/
def Kind.ofName (name : String) : Kind :=
  if Text.occursIn "FlagBits".toList name.toList then .flags else .value

end ConstantCatalog
