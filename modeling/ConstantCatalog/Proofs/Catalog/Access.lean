import ConstantCatalog.Catalog.Access
import ConstantCatalog.Proofs.Catalog.Load

/-! # Answers of a catalog

What the questions to a catalog answer, whatever they report, once their enumeration is known: the
answer about a member comes from the member, and so does the fault. -/

namespace ConstantCatalog
set_option autoImplicit false

variable {e : Enumeration} {name : String} {o : Options}

namespace Enumeration

theorem outcome_access : (e.access o name).outcome = e.member name := by
  rw [access, Logged.outcome_bind, Logged.outcome_ofExcept]
  cases e.member name <;> rfl

end Enumeration

namespace Catalog
variable {c : Catalog} {enumeration : String} (he : c.enumeration enumeration = .ok e)
include he

theorem outcome_access :
    (c.access o enumeration name).outcome = (e.member name).map fun m => (e, m) := by
  simp only [access, he, Logged.outcome_bind, Logged.outcome_ofExcept, Enumeration.outcome_access]
  change (e.member name).bind _ = _
  cases e.member name <;> rfl

theorem outcome_member : (c.member o enumeration name).outcome = e.member name := by
  rw [member, Logged.outcome_bind, outcome_access he]
  cases e.member name <;> rfl

theorem outcome_mentions (extension : String) :
    (c.mentions o enumeration name extension).outcome =
      (e.member name).map (·.availability.mentions extension) := by
  rw [mentions, Logged.outcome_bind, outcome_access he]
  cases e.member name <;> rfl

theorem outcome_value : (c.value o enumeration name).outcome = (e.member name).map (·.value) := by
  rw [value, Logged.outcome_bind, outcome_access he]
  cases e.member name <;> rfl

theorem outcome_canonicalName : (c.canonicalName o enumeration name).outcome =
    (e.member name).map fun m => (e.canonical m).name := by
  rw [canonicalName, Logged.outcome_bind, outcome_access he]
  cases e.member name <;> rfl

theorem withValue_of_enumeration (value : Int32) :
    c.withValue enumeration value = .ok (e.withValue value) := by
  rw [withValue, he]
  rfl

theorem canonicalWithValue?_of_enumeration (value : Int32) :
    c.canonicalWithValue? enumeration value = .ok ((e.canonicalWithValue? value).map (·.name)) := by
  rw [canonicalWithValue?, he]
  rfl

theorem flagNames_of_enumeration (mask : UInt32) :
    c.flagNames enumeration mask = e.flagNames mask := by
  rw [flagNames, he]
  rfl

end Catalog

end ConstantCatalog
