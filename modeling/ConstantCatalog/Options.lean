/-! # Options

What a catalog does besides answering. No option changes an answer. -/

namespace ConstantCatalog
set_option autoImplicit false

structure Options where
  /-- Whether each member of a loaded enumeration is reported. -/
  traceMembers : Bool
  /-- Whether each use of a deprecated member is reported. -/
  warnDeprecated : Bool
  /-- Whether the shipped bindings are checked when the shipped catalog is built. -/
  checkBindings : Bool
  deriving DecidableEq

namespace Options

def full : Options := ⟨true, true, true⟩

def plain : Options := ⟨false, false, false⟩

end Options

end ConstantCatalog
