import ConstantCatalog.Binding.Basic
import ConstantCatalog.Catalog.Access

/-! # Agreement of bindings and catalogs

A binding agrees with an enumeration when its variants are exactly the canonical members, name by
name and value by value. The members are gone through first, then the variants, and the first that
has no counterpart is reported. -/

namespace ConstantCatalog
set_option autoImplicit false

namespace Binding

/-- Whether a variant has the name and the value of a canonical member. -/
def covers (b : Binding) (c : Constant) : Bool :=
  match b.ofRaw? c.value with
  | some v => v.symbol == c.name
  | none => false

/-- Whether an enumeration has a canonical member with the name and the value of a variant. -/
def declaredIn (e : Enumeration) (v : Variant) : Except Fault Bool := do
  match ← e.find? v.symbol with
  | some c => return !c.isAlias && c.value == v.raw
  | none => return false

/-- The symbol of the first variant without a member. -/
def undeclared? (e : Enumeration) : List Variant → Except Fault (Option String)
  | [] => .ok none
  | v :: rest => do
    if ← declaredIn e v then undeclared? e rest else return some v.symbol

/-- The name of the first canonical member without a variant or, if there is none, the symbol of the
first variant without a member. -/
def disagreement? (b : Binding) (e : Enumeration) : Except Fault (Option String) :=
  match e.canonicalMembers.find? (!b.covers ·) with
  | some c => .ok (some c.name)
  | none => undeclared? e b.variants

def check (b : Binding) (c : Catalog) : Except Fault Unit := do
  let e ← c.enumeration b.enumeration
  match ← b.disagreement? e with
  | some name => .error (.bindingMismatch b.enumeration name)
  | none => .ok ()

/-- Checks some bindings in order, up to the first that does not agree. -/
def checkAll (c : Catalog) : List Binding → Except Fault Unit
  | [] => .ok ()
  | b :: rest => do
    b.check c
    checkAll c rest

/-- The variant for the member of the given name, which may be an alias. -/
def ofName (o : Options) (b : Binding) (c : Catalog) (name : String) : Logged Variant := do
  let value ← c.value o b.enumeration name
  match b.ofRaw? value with
  | some v => return v
  | none => .ofExcept (.error (.bindingMismatch b.enumeration name))

end Binding

end ConstantCatalog
