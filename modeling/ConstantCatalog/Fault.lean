import ConstantCatalog.Text.Numeral

/-! # Faults

Every way in which reading, loading or asking can fail, with its wording. A fault that prevents
loading means that there is no catalog; the others are answers to a question about one. The last
one is no answer: a list is read at a position that it does not have, and the program stops. -/

namespace ConstantCatalog
set_option autoImplicit false

inductive Malformation where
  | badEnumerationName (name : String)
  | untagged (name : String)
  | nested (name outer : String)
  | strayClosing
  | mismatched (opened closed : String)
  | outsideBlock (line : String)
  | noAssignment (line : String)
  | badMemberName (name : String)
  | badValue (value name : String)
  | unclosed (name : String)
  deriving DecidableEq

def Malformation.message : Malformation → String
  | badEnumerationName name => s!"bad enumeration name `{name}`"
  | untagged name => s!"`{name}` has no `Provided by` tag"
  | nested name outer => s!"`{name}` opened inside `{outer}`"
  | strayClosing => "closing brace outside of a block"
  | mismatched opened closed => s!"`{opened}` closed as `{closed}`"
  | outsideBlock line => s!"`{line}` is outside of any block"
  | noAssignment line => s!"expected `NAME = VALUE`, found `{line}`"
  | badMemberName name => s!"bad member name `{name}`"
  | badValue value name => s!"bad value `{value}` for `{name}`"
  | unclosed name => s!"`{name}` is never closed"

inductive Fault where
  | malformed (source : String) (line : Nat) (malformation : Malformation)
  | repeatedEnumeration (enumeration : String)
  | repeatedMember (enumeration member : String)
  | danglingAlias (enumeration member target : String)
  /-- The chain runs once round the loop and ends with its first member. -/
  | aliasCycle (enumeration : String) (chain : List String)
  | unknownEnumeration (enumeration : String)
  | unknownMember (enumeration member : String)
  | notFlags (enumeration : String)
  | uncoveredBits (enumeration : String) (bits : UInt32)
  | bindingMismatch (enumeration member : String)
  | outOfRange (position length : Nat)
  deriving DecidableEq

namespace Fault

def message : Fault → String
  | malformed source line malformation => s!"{source}:{line}: {malformation.message}"
  | repeatedEnumeration enumeration => s!"Enumeration `{enumeration}` is declared more than once."
  | repeatedMember enumeration member =>
    s!"Enumeration `{enumeration}` declares `{member}` more than once."
  | danglingAlias enumeration member target =>
    s!"`{member}` in `{enumeration}` aliases `{target}`, which is not a member."
  | aliasCycle enumeration chain =>
    s!"Alias cycle in `{enumeration}`: " ++ " -> ".intercalate chain
  | unknownEnumeration enumeration => s!"Unknown enumeration `{enumeration}`."
  | unknownMember enumeration member =>
    s!"Enumeration `{enumeration}` has no member `{member}`."
  | notFlags enumeration => s!"Enumeration `{enumeration}` is not a flags enumeration."
  | uncoveredBits enumeration bits =>
    "Bits 0x" ++ String.ofList (Text.hexadecimal 8 bits.toNat)
      ++ s!" of `{enumeration}` match no member."
  | bindingMismatch enumeration member =>
    s!"Typed binding for `{enumeration}` disagrees with the registry on `{member}`."
  | outOfRange position length =>
    s!"index out of bounds: the len is {length} but the index is {position}"

/-- Whether the fault means that no catalog was built. -/
def preventsLoading : Fault → Bool
  | malformed .. | repeatedEnumeration _ | repeatedMember .. | danglingAlias ..
  | aliasCycle .. => true
  | unknownEnumeration _ | unknownMember .. | notFlags _ | uncoveredBits ..
  | bindingMismatch .. | outOfRange .. => false

end Fault

end ConstantCatalog
