import ConstantCatalog.Text.Numeral
import ConstantCatalog.Log.Record

/-! # Events

What building and asking a catalog report, and the record of each. -/

namespace ConstantCatalog.Log
set_option autoImplicit false

inductive Event where
  | resolved (enumeration member : String) (value : Int32)
  | loaded (enumeration : String) (members aliases : Nat)
  | deprecatedUse (notice : String)
  | shippedBegin
  | shippedEnd (count : Nat)
  deriving DecidableEq

namespace Event

def shippedPlace : String := "vk_enum_registry::registry"

def memberPlace : String := "vk_enum_registry::registry::set"

def enumerationPlace : String := "vk_enum_registry::registry::table"

def record : Event → Record
  | resolved enumeration member value =>
    ⟨.trace, memberPlace, some memberPlace,
      s!"{enumeration}: {member} = {String.ofList (Text.decimal value.toInt)}"⟩
  | loaded enumeration members aliases =>
    ⟨.debug, enumerationPlace, some enumerationPlace,
      s!"Loaded {enumeration} ({members} members, {aliases} aliases)"⟩
  | deprecatedUse notice =>
    ⟨.warn, "warning", some memberPlace, s!"[WARNING] {notice}"⟩
  | shippedBegin =>
    ⟨.debug, shippedPlace, some shippedPlace, "Loading built-in enumerations..."⟩
  | shippedEnd count =>
    ⟨.debug, "success", some shippedPlace, s!"[SUCCESS] Loaded {count} built-in enumerations"⟩

end Event

end ConstantCatalog.Log
