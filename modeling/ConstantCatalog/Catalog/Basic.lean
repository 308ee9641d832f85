import ConstantCatalog.Enumeration.Flags

/-! # Catalogs

The loaded enumerations and the questions about them that have no side effect. A question about an
enumeration fails first of all when the catalog does not hold it. -/

namespace ConstantCatalog
set_option autoImplicit false

/-- The loaded enumerations, in the order of loading. -/
structure Catalog where
  enumerations : List Enumeration
  /-- Where each enumeration stands. -/
  index : Index Nat
  deriving DecidableEq

namespace Catalog

def empty : Catalog := ⟨[], .empty⟩

def size (c : Catalog) : Nat := c.enumerations.length

def isEmpty (c : Catalog) : Bool := c.enumerations.isEmpty

/-- The names of all enumerations, in the order of their characters. -/
def names (c : Catalog) : List String :=
  (c.enumerations.map (·.name)).mergeSort fun a b => decide (a ≤ b)

def find? (c : Catalog) (name : String) : Except Fault (Option Enumeration) :=
  c.index.find? c.enumerations name

def enumeration (c : Catalog) (name : String) : Except Fault Enumeration := do
  match ← c.find? name with
  | some e => .ok e
  | none => .error (.unknownEnumeration name)

def withValue (c : Catalog) (name : String) (value : Int32) : Except Fault (List Constant) :=
  (c.enumeration name).map (·.withValue value)

def canonicalWithValue? (c : Catalog) (name : String) (value : Int32) :
    Except Fault (Option String) :=
  (c.enumeration name).map fun e => (e.canonicalWithValue? value).map (·.name)

def flagNames (c : Catalog) (name : String) (mask : UInt32) : Except Fault (List String) :=
  c.enumeration name >>= (·.flagNames mask)

end Catalog

end ConstantCatalog
