import ConstantCatalog.Options
import ConstantCatalog.Log.Logged
import ConstantCatalog.Catalog.Basic

/-! # Access to members

The questions that name a member. Each use of a deprecated member is reported once, whatever becomes
of the answer. -/

namespace ConstantCatalog
set_option autoImplicit false
open Log

def Enumeration.useEvents (o : Options) (e : Enumeration) (c : Constant) : List Event :=
  if o.warnDeprecated then ((e.notice? c).map .deprecatedUse).toList else []

def Enumeration.access (o : Options) (e : Enumeration) (name : String) : Logged Constant := do
  let c ← .ofExcept (e.member name)
  .report (e.useEvents o c)
  return c

namespace Catalog

def access (o : Options) (c : Catalog) (enumeration name : String) :
    Logged (Enumeration × Constant) := do
  let e ← .ofExcept (c.enumeration enumeration)
  let m ← e.access o name
  return (e, m)

def member (o : Options) (c : Catalog) (enumeration name : String) : Logged Constant := do
  let (_, m) ← c.access o enumeration name
  return m

def value (o : Options) (c : Catalog) (enumeration name : String) : Logged Int32 := do
  let (_, m) ← c.access o enumeration name
  return m.value

def canonicalName (o : Options) (c : Catalog) (enumeration name : String) : Logged String := do
  let (e, m) ← c.access o enumeration name
  return (e.canonical m).name

def mentions (o : Options) (c : Catalog) (enumeration name extension : String) : Logged Bool := do
  let (_, m) ← c.access o enumeration name
  return m.availability.mentions extension

end Catalog

end ConstantCatalog
