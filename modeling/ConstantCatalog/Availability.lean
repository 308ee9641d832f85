import ConstantCatalog.Text.Blank
import ConstantCatalog.Text.Split
import ConstantCatalog.Text.Numeral

/-! # Availability

What provides a constant. A tag such as `VK_VERSION_1_1 with VK_KHR_swapchain, VK_KHR_device_group`
lists alternatives, any one of which provides the constant; the terms of one alternative are needed
together. A term is a core version or else an extension. Nothing here says which versions or
extensions exist. -/

namespace ConstantCatalog
set_option autoImplicit false
open Text

structure Version where
  major : UInt32
  minor : UInt32
  patch : UInt32 := 0
  deriving DecidableEq

namespace Version

/-- Versions are ordered by major, then minor, then patch number. -/
instance : LE Version where
  le v w := v.major < w.major ∨ (v.major = w.major ∧
    (v.minor < w.minor ∨ (v.minor = w.minor ∧ v.patch ≤ w.patch)))

instance (v w : Version) : Decidable (v ≤ w) :=
  inferInstanceAs (Decidable (v.major < w.major ∨ (v.major = w.major ∧
    (v.minor < w.minor ∨ (v.minor = w.minor ∧ v.patch ≤ w.patch)))))

instance : Min Version := minOfLe

instance : Max Version := maxOfLe

/-- Reads `VK_VERSION_`, the major number, an underscore and the minor number. Terms name no patch
level. -/
def ofTerm? (term : List Char) : Option Version := do
  let numbers ← "VK_VERSION_".toList.isPrefixOf? term
  let (major, minor) ← cut? '_' [] numbers
  return { major := ← word? 10 major, minor := ← word? 10 minor }

end Version

/-- One way of getting a constant: a least core version, if any, and the extensions needed. -/
structure Alternative where
  version : Option Version
  extensions : List String
  deriving DecidableEq

namespace Alternative

/-- The terms that ` with ` joins. -/
def terms (text : List Char) : List (List Char) :=
  (pieces ' ' "with ".toList text).map trim

/-- Of several versions the greatest one is needed; every other term is an extension. -/
def ofTerms (ts : List (List Char)) : Alternative where
  version := (ts.filterMap Version.ofTerm?).max?
  extensions := (ts.filter fun t => (Version.ofTerm? t).isNone).map String.ofList

end Alternative

/-- What provides a constant, as its tag says it. -/
structure Availability where
  tag : String
  deriving DecidableEq

namespace Availability

/-- The blanks around a tag are not part of it. -/
def ofTag (tag : String) : Availability where
  tag := String.ofList (trim tag.toList)

def text (a : Availability) : String := a.tag

/-- The alternatives of a tag as texts: its pieces between commas that are not blank. -/
def alternativeTexts (a : Availability) : List (List Char) :=
  ((a.tag.toList.splitOn ',').map trim).filter (· ≠ [])

def alternatives (a : Availability) : List Alternative :=
  a.alternativeTexts.map fun text => .ofTerms (Alternative.terms text)

/-- Whether some alternative needs the extension. -/
def mentions (a : Availability) (extension : String) : Bool :=
  a.alternatives.any (·.extensions.contains extension)

/-- The least core version that provides the constant without any extension. -/
def coreVersion? (a : Availability) : Option Version :=
  ((a.alternatives.filter (·.extensions.isEmpty)).filterMap (·.version)).min?

end Availability

end ConstantCatalog
