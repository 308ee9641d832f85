import ConstantCatalog.Kind
import ConstantCatalog.Mask

/-! # Typed bindings

The variants through which a program speaks of one enumeration, each with the symbol of a member and
its raw value. A binding stands on its own; whether it agrees with a catalog is another matter.

The masks of the graphics interface are given by their words of bits. This assumes that its flag
types keep all 32 bits, named or not: the mask that is made of a word, unchecked, has this word for
its bits. -/

namespace ConstantCatalog
set_option autoImplicit false

structure Variant where
  label : String
  symbol : String
  raw : Int32
  deriving DecidableEq

def Variant.bits (v : Variant) : UInt32 := v.raw.toUInt32

/-- What a variant is to the graphics interface: a number, or a mask. -/
inductive Native where
  | number (raw : Int32)
  | mask (bits : UInt32)
  deriving DecidableEq

/-- The variants for one enumeration. No two of them have the same raw value. -/
structure Binding where
  enumeration : String
  kind : Kind
  variants : List Variant
  raw_nodup : (variants.map (·.raw)).Nodup := by decide

namespace Binding

def ofRaw? (b : Binding) (raw : Int32) : Option Variant :=
  b.variants.find? (·.raw == raw)

def ofLabel? (b : Binding) (label : String) : Option Variant :=
  b.variants.find? (·.label == label)

def native (b : Binding) (v : Variant) : Native :=
  match b.kind with
  | .value => .number v.raw
  | .flags => .mask v.bits

/-- The bits of some variants together. The interface gets them as they are. -/
def mask (vs : List Variant) : UInt32 :=
  Mask.union (vs.map (·.bits))

/-- The variants whose bits, at least one of them, are all in the mask. Bits of the mask that no
variant has are kept by the interface, and make no difference here. -/
def ofMask (b : Binding) (mask : UInt32) : List Variant :=
  b.variants.filter fun v => v.bits != 0 && Mask.includes mask v.bits

/-- The variants without repetitions, in the order of their first appearance. -/
def distinct (vs : List Variant) : List Variant :=
  vs.eraseDups

end Binding

end ConstantCatalog
